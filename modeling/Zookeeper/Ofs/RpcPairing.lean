import Mathlib.Data.List.Infix
import Zookeeper.Ofs.Rpc

/-!
# Every caller reads its own reply

The mutexes hand the connection over in one order: a caller takes `_readMutex` while it
still holds `_writeMutex`, so the next one can neither send nor read before it.  The
server answers in the order in which it reads.  So three sequences agree: the calls in the
order of `_writeMutex`, the requests as the server has read them, and the results of the
calls.

That the server and the callers read what was sent, whatever pieces it comes in, is
`Framing.Follows`.
-/

namespace Ofs

open Framing

variable {ι : Type}

/-- What was sent are whole frames and a part of the last one, and the result of every
call is what the server has answered to its request. -/
structure Paired (s : Rpc ι) : Prop where
  whole : stream rpcHeaderCodec (s.order.dropLast.map fun p => p.2.frame) <+: s.sent
  frames : s.sent <+: stream rpcHeaderCodec (s.order.map fun p => p.2.frame)
  own : ∀ (k : Nat) (r : CallResult ι), s.results[k]? = some r →
    s.order[k]? = some (r.caller, r.request) ∧
      ∃ v, s.served[k]? = some v ∧ (v.header, v.data) = r.request.frame ∧
        (r.ret, r.out) = answer v.reply

/-! ## Sizes -/

theorem RpcRequest.frame_fits (req : RpcRequest) : Fits RpcHeader.block req.frame := by
  have hsmall := req.data.small
  simp only [Fits, RpcRequest.frame, RpcHeader.block, UInt32.toNat_ofNat']
  exact (Nat.mod_eq_of_lt (by omega)).symm

theorem answer_fits (reply : Option Serialized) : Fits RpcRet.block (answer reply) := by
  cases reply with
  | none => rfl
  | some out =>
      have hsmall := out.small
      simp only [Fits, answer, RpcRet.block, UInt32.toNat_ofNat']
      exact (Nat.mod_eq_of_lt (by omega)).symm

/-! ## What a caller has -/

namespace CallPhase

/-- The caller holds `_writeMutex`. -/
def writes : CallPhase → Bool
  | .sendHeader _ | .sendData _ | .handOver _ | .unlock _ => true
  | .idle | .waiting _ | .reading _ _ => false

/-- The caller holds `_readMutex`. -/
def reads : CallPhase → Bool
  | .unlock _ | .reading _ _ => true
  | .idle | .waiting _ | .sendHeader _ | .sendData _ | .handOver _ => false

/-- The call of a caller that has `_writeMutex` and not yet `_readMutex`. -/
def writing : CallPhase → List RpcRequest
  | .sendHeader req | .sendData req | .handOver req => [req]
  | .idle | .waiting _ | .unlock _ | .reading _ _ => []

/-- The call of a caller that has `_readMutex`. -/
def readingCall : CallPhase → List RpcRequest
  | .unlock req | .reading req _ => [req]
  | .idle | .waiting _ | .sendHeader _ | .sendData _ | .handOver _ => []

/-- What the caller still has to send. -/
def unsent : CallPhase → Bytes
  | .sendHeader req => rpcHeaderCodec.encode req.frame.1 ++ req.frame.2
  | .sendData req => req.frame.2
  | .idle | .waiting _ | .handOver _ | .unlock _ | .reading _ _ => []

def reader : CallPhase → FrameReader RpcRet
  | .reading _ r => r
  | .idle | .waiting _ | .sendHeader _ | .sendData _ | .handOver _ | .unlock _ => .atHead []

end CallPhase

/-- What the holder of a mutex has. -/
def holder {β : Type} (mutex : Option ι) (free : β) (f : ι → β) : β :=
  match mutex with
  | some i => f i
  | none => free

/-- A caller changes that does not hold the mutex. -/
theorem holder_of_ne [DecidableEq ι] {β : Type} {mutex : Option ι} {i : ι} (h : mutex ≠ some i)
    (free : β) (f : ι → CallPhase → β) (phase : ι → CallPhase) (p : CallPhase) :
    holder mutex free (fun j => f j (Function.update phase i p j)) =
      holder mutex free fun j => f j (phase j) := by
  cases mutex with
  | none => rfl
  | some j =>
      have hne : j ≠ i := fun heq => h (congrArg some heq)
      simp only [holder, Function.update_of_ne hne]

/-- Who holds a mutex is the one whose phase says so. -/
def Holds (mutex : Option ι) (held : CallPhase → Bool) (phase : ι → CallPhase) : Prop :=
  ∀ i, mutex = some i ↔ held (phase i) = true

namespace Holds

variable [DecidableEq ι] {mutex : Option ι} {held : CallPhase → Bool} {phase : ι → CallPhase}
  {i : ι} {p : CallPhase}

theorem keep (h : Holds mutex held phase) (hp : held p = held (phase i)) :
    Holds mutex held (Function.update phase i p) := by
  intro j
  rcases eq_or_ne j i with rfl | hj
  · rw [Function.update_self, hp]
    exact h j
  · rw [Function.update_of_ne hj]
    exact h j

theorem acquire (h : Holds none held phase) (hp : held p = true) :
    Holds (some i) held (Function.update phase i p) := by
  intro j
  rcases eq_or_ne j i with rfl | hj
  · rw [Function.update_self]
    exact ⟨fun _ => hp, fun _ => rfl⟩
  · rw [Function.update_of_ne hj, ← h j]
    refine ⟨fun heq => ?_, fun heq => by cases heq⟩
    exact absurd (Option.some.inj heq).symm hj

theorem release (h : Holds (some i) held phase) (hp : held p = false) :
    Holds none held (Function.update phase i p) := by
  intro j
  rcases eq_or_ne j i with rfl | hj
  · rw [Function.update_self, hp]
    exact ⟨fun heq => (by cases heq), fun heq => (by cases heq)⟩
  · rw [Function.update_of_ne hj, ← h j]
    refine ⟨fun heq => (by cases heq), fun heq => ?_⟩
    exact absurd (Option.some.inj heq).symm hj

end Holds

namespace Rpc

variable (s : Rpc ι)

/-- The call that is between the mutexes. -/
def writers : List (ι × RpcRequest) :=
  holder s.writeMutex [] fun i => (s.phase i).writing.map fun req => (i, req)

/-- The call that is read for. -/
def readers : List (ι × RpcRequest) :=
  holder s.readMutex [] fun i => (s.phase i).readingCall.map fun req => (i, req)

/-- What the holder of `_writeMutex` still has to send. -/
def unsent : Bytes := holder s.writeMutex [] fun i => (s.phase i).unsent

def reader : FrameReader RpcRet := holder s.readMutex (.atHead []) fun i => (s.phase i).reader

end Rpc

/-- What the server still has to send. -/
def ServePhase.unsent : ServePhase → Bytes
  | .sendRet reply => rpcRetCodec.encode (answer reply).1 ++ (answer reply).2
  | .sendOut out => out.bytes
  | .reading _ => []

def ServePhase.reader : ServePhase → FrameReader RpcHeader
  | .reading r => r
  | .sendRet _ | .sendOut _ => .atHead []

/-! ## The invariant -/

namespace Rpc

/-- The frames of the calls. -/
def frames (s : Rpc ι) : List (RpcHeader × Bytes) := s.order.map fun p => p.2.frame

/-- The requests as the server has read them. -/
def requests (s : Rpc ι) : List (RpcHeader × Bytes) := s.served.map fun v => (v.header, v.data)

/-- The replies of the server. -/
def replies (s : Rpc ι) : List (RpcRet × Bytes) := s.served.map fun v => answer v.reply

/-- The replies as the callers have read them. -/
def outcomes (s : Rpc ι) : List (RpcRet × Bytes) := s.results.map fun r => (r.ret, r.out)

/-- The calls that are over. -/
def calls (s : Rpc ι) : List (ι × RpcRequest) := s.results.map fun r => (r.caller, r.request)

structure Inv (s : Rpc ι) : Prop where
  writeLock : Holds s.writeMutex CallPhase.writes s.phase
  readLock : Holds s.readMutex CallPhase.reads s.phase
  order : s.order = s.calls ++ s.readers ++ s.writers
  sent : stream rpcHeaderCodec s.frames = s.sent ++ s.unsent
  server : Follows rpcHeaderCodec RpcHeader.block s.frames s.requests s.server.reader
    (s.toServer ++ s.unsent)
  client : Follows rpcRetCodec RpcRet.block s.replies s.outcomes s.reader
    (s.toClient ++ s.server.unsent)

theorem inv_start : Inv ({} : Rpc ι) where
  writeLock i := ⟨fun h => (by cases h), fun h => (by cases h)⟩
  readLock i := ⟨fun h => (by cases h), fun h => (by cases h)⟩
  order := rfl
  sent := rfl
  server := Follows.start
  client := Follows.start

variable {s s' : Rpc ι}

theorem write_free (h : s.writeMutex = none) : s.writers = [] ∧ s.unsent = [] := by
  rw [writers, unsent, h]
  exact ⟨rfl, rfl⟩

theorem write_held {i : ι} {p : CallPhase} (h : s.writeMutex = some i) (hp : s.phase i = p) :
    s.writers = (p.writing.map fun req => (i, req)) ∧ s.unsent = p.unsent := by
  rw [writers, unsent, h, ← hp]
  exact ⟨rfl, rfl⟩

theorem read_free (h : s.readMutex = none) : s.readers = [] ∧ s.reader = .atHead [] := by
  rw [readers, reader, h]
  exact ⟨rfl, rfl⟩

theorem read_held {i : ι} {p : CallPhase} (h : s.readMutex = some i) (hp : s.phase i = p) :
    s.readers = (p.readingCall.map fun req => (i, req)) ∧ s.reader = p.reader := by
  rw [readers, reader, h, ← hp]
  exact ⟨rfl, rfl⟩

theorem Inv.writes_not (h : s.Inv) {i : ι} {p : CallPhase} (hp : s.phase i = p)
    (hno : p.writes = false) : s.writeMutex ≠ some i := by
  intro heq
  have hyes := (h.writeLock i).mp heq
  rw [hp, hno] at hyes
  cases hyes

theorem Inv.reads_not (h : s.Inv) {i : ι} {p : CallPhase} (hp : s.phase i = p)
    (hno : p.reads = false) : s.readMutex ≠ some i := by
  intro heq
  have hyes := (h.readLock i).mp heq
  rw [hp, hno] at hyes
  cases hyes

theorem Inv.writes (h : s.Inv) {i : ι} {p : CallPhase} (hp : s.phase i = p)
    (hyes : p.writes = true) : s.writeMutex = some i :=
  (h.writeLock i).mpr (by rw [hp, hyes])

theorem Inv.reads (h : s.Inv) {i : ι} {p : CallPhase} (hp : s.phase i = p)
    (hyes : p.reads = true) : s.readMutex = some i :=
  (h.readLock i).mpr (by rw [hp, hyes])

/-! ### The server -/

theorem Inv.serverRecv (h : s.Inv) {r : FrameReader RpcHeader} {k : Nat}
    (hserver : s.server = .reading r) (hwant : k ≤ r.want rpcHeaderCodec RpcHeader.block) :
    Inv { s with
      toServer := s.toServer.drop k
      server := .reading (r.push rpcHeaderCodec (s.toServer.take k)) } :=
  { writeLock := h.writeLock
    readLock := h.readLock
    order := h.order
    sent := h.sent
    server := by
      have hfollows := h.server
      rw [hserver, ← List.take_append_drop k s.toServer, List.append_assoc] at hfollows
      have hlen : (s.toServer.take k).length ≤ k := List.length_take_le k s.toServer
      exact hfollows.push (by decide) (hlen.trans hwant)
    client := by
      have hclient := h.client
      rw [hserver] at hclient
      exact hclient }

/-- The server makes the reply to a request. -/
theorem Inv.serve (h : s.Inv) {header : RpcHeader} {data : Bytes} (reply : Option Serialized)
    (hserver : s.server = .reading (.inBody header data)) (hlen : data.length = header.block) :
    Inv { s with
      server := .sendRet reply
      served := s.served ++ [Served.mk header data reply] } :=
  { writeLock := h.writeLock
    readLock := h.readLock
    order := h.order
    sent := h.sent
    server := by
      have hfollows := h.server
      rw [hserver] at hfollows
      have hcomplete := hfollows.complete hlen
      rw [requests, List.map_append]
      exact hcomplete
    client := by
      have hclient := h.client
      rw [hserver] at hclient
      have happend := hclient.append [answer reply] fun p hmem => by
        rw [List.mem_singleton.mp hmem]
        exact answer_fits reply
      rw [stream_singleton, List.append_assoc] at happend
      rw [replies, List.map_append]
      exact happend }

/-- The server sends the next part of a reply. -/
theorem Inv.serverSend (h : s.Inv) {server' : ServePhase} {bytes : Bytes}
    (hunsent : s.server.unsent = bytes ++ server'.unsent)
    (hreader : server'.reader = s.server.reader) :
    Inv { s with toClient := s.toClient ++ bytes, server := server' } :=
  { writeLock := h.writeLock
    readLock := h.readLock
    order := h.order
    sent := h.sent
    server := by
      have hserver := h.server
      rw [← hreader] at hserver
      exact hserver
    client := by
      have hclient := h.client
      rw [hunsent, ← List.append_assoc] at hclient
      exact hclient }

/-! ### What the invariant says -/

/-- What is still to be sent is an end of the last frame. -/
theorem Inv.unsent_cases (h : s.Inv) :
    s.unsent = [] ∨ ∃ before i req part, s.order = before ++ [(i, req)] ∧
      frame rpcHeaderCodec req.frame = part ++ s.unsent := by
  cases hmutex : s.writeMutex with
  | none => exact .inl (write_free hmutex).2
  | some i =>
      cases hp : s.phase i with
      | sendHeader req =>
          obtain ⟨hwriters, hunsent⟩ := write_held hmutex hp
          refine .inr ⟨s.calls ++ s.readers, i, req, [], ?_, ?_⟩
          · exact h.order.trans (congrArg (s.calls ++ s.readers ++ ·) hwriters)
          · rw [hunsent]
            rfl
      | sendData req =>
          obtain ⟨hwriters, hunsent⟩ := write_held hmutex hp
          refine .inr ⟨s.calls ++ s.readers, i, req, rpcHeaderCodec.encode req.frame.1, ?_, ?_⟩
          · exact h.order.trans (congrArg (s.calls ++ s.readers ++ ·) hwriters)
          · rw [hunsent]
            rfl
      | idle => exact .inl (write_held hmutex hp).2
      | waiting req => exact .inl (write_held hmutex hp).2
      | handOver req => exact .inl (write_held hmutex hp).2
      | unlock req => exact .inl (write_held hmutex hp).2
      | reading req r => exact .inl (write_held hmutex hp).2

/-- The frames before the last one have been sent. -/
theorem Inv.whole (h : s.Inv) :
    stream rpcHeaderCodec (s.order.dropLast.map fun p => p.2.frame) <+: s.sent := by
  have hsent := h.sent
  rcases h.unsent_cases with hnone | ⟨before, i, req, part, horder, hpart⟩
  · rw [hnone, List.append_nil] at hsent
    rw [← hsent]
    exact ((List.dropLast_prefix s.order).map _).flatMap _
  · rw [frames, horder, List.map_append, stream_append] at hsent
    have hlast : stream rpcHeaderCodec ([(i, req)].map fun p => p.2.frame) = part ++ s.unsent :=
      (stream_singleton _ _).trans hpart
    rw [hlast, ← List.append_assoc] at hsent
    rw [horder, List.dropLast_concat, ← List.append_cancel_right hsent]
    exact List.prefix_append _ _

/-- An element of a list is one of a longer list. -/
theorem getElem?_append_of {α : Type} {l : List α} {k : Nat} {a : α} (h : l[k]? = some a)
    (l' : List α) : (l ++ l')[k]? = some a := by
  rw [List.getElem?_append_left (List.getElem?_eq_some_iff.mp h).1]
  exact h

/-- The result of a call is what the server has answered to it. -/
theorem Inv.own (h : s.Inv) {k : Nat} {r : CallResult ι} (hr : s.results[k]? = some r) :
    s.order[k]? = some (r.caller, r.request) ∧
      ∃ v, s.served[k]? = some v ∧ (v.header, v.data) = r.request.frame ∧
        (r.ret, r.out) = answer v.reply := by
  have hcall : s.order[k]? = some (r.caller, r.request) := by
    have hcalls : s.calls[k]? = some (r.caller, r.request) := by
      rw [calls, List.getElem?_map, hr]
      rfl
    rw [h.order, List.append_assoc]
    exact getElem?_append_of hcalls _
  obtain ⟨replies, hreplies, _⟩ := h.client
  obtain ⟨frames, hframes, _⟩ := h.server
  have hreply : s.replies[k]? = some (r.ret, r.out) := by
    have houtcome : s.outcomes[k]? = some (r.ret, r.out) := by
      rw [outcomes, List.getElem?_map, hr]
      rfl
    rw [hreplies]
    exact getElem?_append_of houtcome _
  rw [Rpc.replies, List.getElem?_map] at hreply
  obtain ⟨v, hv, hanswer⟩ := Option.map_eq_some_iff.mp hreply
  have hframe : s.frames[k]? = some (v.header, v.data) := by
    have hrequest : s.requests[k]? = some (v.header, v.data) := by
      rw [requests, List.getElem?_map, hv]
      rfl
    rw [hframes]
    exact getElem?_append_of hrequest _
  rw [Rpc.frames, List.getElem?_map, hcall] at hframe
  exact ⟨hcall, v, hv, (Option.some.inj hframe).symm, hanswer.symm⟩

/-! ### The callers -/

variable [DecidableEq ι]

theorem setPhase_phase (s : Rpc ι) (i : ι) (p : CallPhase) : (s.setPhase i p).phase i = p := by
  simp only [setPhase, Function.update_self]

theorem write_other {i : ι} (h : s.writeMutex ≠ some i) (p : CallPhase) :
    (s.setPhase i p).writers = s.writers ∧ (s.setPhase i p).unsent = s.unsent :=
  ⟨holder_of_ne h [] (fun j q => q.writing.map fun req => (j, req)) s.phase p,
    holder_of_ne h [] (fun _ q => q.unsent) s.phase p⟩

theorem read_other {i : ι} (h : s.readMutex ≠ some i) (p : CallPhase) :
    (s.setPhase i p).readers = s.readers ∧ (s.setPhase i p).reader = s.reader :=
  ⟨holder_of_ne h [] (fun j q => q.readingCall.map fun req => (j, req)) s.phase p,
    holder_of_ne h (FrameReader.atHead []) (fun _ q => q.reader) s.phase p⟩

/-- A caller that holds neither mutex. -/
theorem Inv.call (h : s.Inv) {i : ι} (req : RpcRequest) (hp : s.phase i = .idle) :
    (s.setPhase i (.waiting req)).Inv := by
  obtain ⟨hwriters, hunsent⟩ := write_other (h.writes_not hp rfl) (.waiting req)
  obtain ⟨hreaders, hreader⟩ := read_other (h.reads_not hp rfl) (.waiting req)
  exact
    { writeLock := h.writeLock.keep (by rw [hp]; rfl)
      readLock := h.readLock.keep (by rw [hp]; rfl)
      order := by rw [hwriters, hreaders]; exact h.order
      sent := by rw [hunsent]; exact h.sent
      server := by rw [hunsent]; exact h.server
      client := by rw [hreader]; exact h.client }

/-- A caller gets `_writeMutex`: its frame is the next one. -/
theorem Inv.lockWrite (h : s.Inv) {i : ι} {req : RpcRequest} (hp : s.phase i = .waiting req)
    (hfree : s.writeMutex = none) :
    Inv ({ s with writeMutex := some i, order := s.order ++ [(i, req)] }.setPhase i
      (.sendHeader req)) := by
  let s' : Rpc ι := { s with writeMutex := some i, order := s.order ++ [(i, req)] }
  obtain ⟨hwriters, hunsent⟩ := write_free hfree
  obtain ⟨hwriters', hunsent'⟩ := write_held (s := s'.setPhase i (.sendHeader req)) rfl
    (setPhase_phase s' i _)
  obtain ⟨hreaders, hreader⟩ := read_other (s := s') (h.reads_not hp rfl) (.sendHeader req)
  have hframes : (s'.setPhase i (.sendHeader req)).frames = s.frames ++ [req.frame] :=
    List.map_append
  have hlock := h.writeLock
  rw [hfree] at hlock
  exact
    { writeLock := hlock.acquire rfl
      readLock := h.readLock.keep (by rw [hp]; rfl)
      order := by
        have horder := h.order
        rw [hwriters, List.append_nil] at horder
        rw [hwriters', hreaders]
        exact congrArg (· ++ [(i, req)]) horder
      sent := by
        have hsent := h.sent
        rw [hunsent, List.append_nil] at hsent
        rw [hframes, hunsent', stream_append, stream_singleton, hsent]
        rfl
      server := by
        have hserver := h.server.append [req.frame] fun p hmem => by
          rw [List.mem_singleton.mp hmem]
          exact req.frame_fits
        rw [hunsent, List.append_nil, stream_singleton] at hserver
        rw [hframes, hunsent']
        exact hserver
      client := by rw [hreader]; exact h.client }

/-- A caller sends the next part of its frame. -/
theorem Inv.send (h : s.Inv) {i : ι} {p p' : CallPhase} {bytes : Bytes} (hp : s.phase i = p)
    (hwrites : p.writes = true ∧ p'.writes = true) (hreads : p.reads = false ∧ p'.reads = false)
    (hsame : p'.writing = p.writing) (hbytes : p.unsent = bytes ++ p'.unsent) :
    ((s.sendBytes bytes).setPhase i p').Inv := by
  have hheld := h.writes hp hwrites.1
  obtain ⟨hwriters, hunsent⟩ := write_held hheld hp
  obtain ⟨hwriters', hunsent'⟩ := write_held (s := (s.sendBytes bytes).setPhase i p') hheld
    (setPhase_phase (s.sendBytes bytes) i p')
  obtain ⟨hreaders, hreader⟩ := read_other (s := s.sendBytes bytes) (h.reads_not hp hreads.1) p'
  rw [hbytes] at hunsent
  exact
    { writeLock := h.writeLock.keep (by rw [hp, hwrites.1, hwrites.2])
      readLock := h.readLock.keep (by rw [hp, hreads.1, hreads.2])
      order := by
        rw [hwriters', hsame, hreaders, ← hwriters]
        exact h.order
      sent := by
        have hsent := h.sent
        rw [hunsent, ← List.append_assoc] at hsent
        rw [hunsent']
        exact hsent
      server := by
        have hserver := h.server
        rw [hunsent, ← List.append_assoc] at hserver
        rw [hunsent']
        exact hserver
      client := by rw [hreader]; exact h.client }

/-- A caller gets `_readMutex`, and still holds `_writeMutex`. -/
theorem Inv.lockRead (h : s.Inv) {i : ι} {req : RpcRequest} (hp : s.phase i = .handOver req)
    (hfree : s.readMutex = none) :
    Inv ({ s with readMutex := some i }.setPhase i (.unlock req)) := by
  let s' : Rpc ι := { s with readMutex := some i }
  have hheld := h.writes hp rfl
  obtain ⟨hwriters, hunsent⟩ := write_held hheld hp
  obtain ⟨hwriters', hunsent'⟩ := write_held (s := s'.setPhase i (.unlock req)) hheld
    (setPhase_phase s' i _)
  obtain ⟨hreaders, hreader⟩ := read_free hfree
  obtain ⟨hreaders', hreader'⟩ := read_held (s := s'.setPhase i (.unlock req)) rfl
    (setPhase_phase s' i _)
  have hlock := h.readLock
  rw [hfree] at hlock
  exact
    { writeLock := h.writeLock.keep (by rw [hp]; rfl)
      readLock := hlock.acquire rfl
      order := by
        have horder := h.order
        rw [hreaders, hwriters, List.append_nil] at horder
        rw [hreaders', hwriters']
        exact horder.trans (List.append_nil _).symm
      sent := by
        have hsent := h.sent
        rw [hunsent] at hsent
        rw [hunsent']
        exact hsent
      server := by
        have hserver := h.server
        rw [hunsent] at hserver
        rw [hunsent']
        exact hserver
      client := by
        have hclient := h.client
        rw [hreader] at hclient
        rw [hreader']
        exact hclient }

/-- A caller gives up `_writeMutex`: its frame has been sent. -/
theorem Inv.unlockWrite (h : s.Inv) {i : ι} {req : RpcRequest} (hp : s.phase i = .unlock req) :
    Inv ({ s with writeMutex := none }.setPhase i (.reading req (.atHead []))) := by
  let s' : Rpc ι := { s with writeMutex := none }
  have hheld := h.writes hp rfl
  have hheldRead := h.reads hp rfl
  obtain ⟨hwriters, hunsent⟩ := write_held hheld hp
  obtain ⟨hwriters', hunsent'⟩ := write_free (s := s'.setPhase i (.reading req (.atHead []))) rfl
  obtain ⟨hreaders, hreader⟩ := read_held hheldRead hp
  obtain ⟨hreaders', hreader'⟩ := read_held (s := s'.setPhase i (.reading req (.atHead [])))
    hheldRead (setPhase_phase s' i _)
  have hlock := h.writeLock
  rw [hheld] at hlock
  exact
    { writeLock := hlock.release rfl
      readLock := h.readLock.keep (by rw [hp]; rfl)
      order := by
        have horder := h.order
        rw [hreaders, hwriters] at horder
        rw [hreaders', hwriters']
        exact horder
      sent := by
        have hsent := h.sent
        rw [hunsent] at hsent
        rw [hunsent']
        exact hsent
      server := by
        have hserver := h.server
        rw [hunsent] at hserver
        rw [hunsent']
        exact hserver
      client := by
        have hclient := h.client
        rw [hreader] at hclient
        rw [hreader']
        exact hclient }

/-- A caller receives a part of its reply. -/
theorem Inv.recv (h : s.Inv) {i : ι} {req : RpcRequest} {r : FrameReader RpcRet} {k : Nat}
    (hp : s.phase i = .reading req r) (hwant : k ≤ r.want rpcRetCodec RpcRet.block) :
    Inv ({ s with toClient := s.toClient.drop k }.setPhase i
      (.reading req (r.push rpcRetCodec (s.toClient.take k)))) := by
  let s' : Rpc ι := { s with toClient := s.toClient.drop k }
  let p' : CallPhase := .reading req (r.push rpcRetCodec (s.toClient.take k))
  have hheld := h.reads hp rfl
  obtain ⟨hwriters, hunsent⟩ := write_other (s := s') (h.writes_not hp rfl) p'
  obtain ⟨hreaders, hreader⟩ := read_held hheld hp
  obtain ⟨hreaders', hreader'⟩ := read_held (s := s'.setPhase i p') hheld (setPhase_phase s' i p')
  exact
    { writeLock := h.writeLock.keep (by rw [hp]; rfl)
      readLock := h.readLock.keep (by rw [hp]; rfl)
      order := by
        have horder := h.order
        rw [hreaders] at horder
        rw [hreaders', hwriters]
        exact horder
      sent := by rw [hunsent]; exact h.sent
      server := by rw [hunsent]; exact h.server
      client := by
        have hclient := h.client
        rw [hreader, ← List.take_append_drop k s.toClient, List.append_assoc] at hclient
        have hlen : (s.toClient.take k).length ≤ k := List.length_take_le k s.toClient
        have hpush := hclient.push (by decide) (hlen.trans hwant)
        rw [hreader']
        exact hpush }

/-- The reply of a caller is complete. -/
theorem Inv.finish (h : s.Inv) {i : ι} {req : RpcRequest} {ret : RpcRet} {out : Bytes}
    (hp : s.phase i = .reading req (.inBody ret out)) (hlen : out.length = ret.block) :
    Inv ({ s with
      readMutex := none
      results := s.results ++ [CallResult.mk i req ret out] }.setPhase i .idle) := by
  let s' : Rpc ι :=
    { s with readMutex := none, results := s.results ++ [CallResult.mk i req ret out] }
  have hheld := h.reads hp rfl
  obtain ⟨hwriters, hunsent⟩ := write_other (s := s') (h.writes_not hp rfl) .idle
  obtain ⟨hreaders, hreader⟩ := read_held hheld hp
  obtain ⟨hreaders', hreader'⟩ := read_free (s := s'.setPhase i .idle) rfl
  have hlock := h.readLock
  rw [hheld] at hlock
  exact
    { writeLock := h.writeLock.keep (by rw [hp]; rfl)
      readLock := hlock.release rfl
      order := by
        have horder := h.order
        rw [hreaders] at horder
        have hcalls : (s'.setPhase i .idle).calls = s.calls ++ [(i, req)] := List.map_append
        rw [hreaders', hwriters, hcalls, List.append_nil]
        exact horder
      sent := by rw [hunsent]; exact h.sent
      server := by rw [hunsent]; exact h.server
      client := by
        have hclient := h.client
        rw [hreader] at hclient
        have hcomplete := hclient.complete hlen
        have houtcomes : (s'.setPhase i .idle).outcomes = s.outcomes ++ [(ret, out)] :=
          List.map_append
        rw [hreader', houtcomes]
        exact hcomplete }

theorem Inv.step {a : RpcAct ι} (h : s.Inv) (hs : s.step a = some s') : s'.Inv := by
  cases a with
  | call i req =>
      simp only [Rpc.step] at hs
      split at hs
      next hp => cases hs; exact h.call req hp
      next => cases hs
  | lockWrite i =>
      simp only [Rpc.step] at hs
      split at hs
      next req hp hfree => cases hs; exact h.lockWrite hp hfree
      next => cases hs
  | send i =>
      simp only [Rpc.step] at hs
      split at hs
      next req hp => cases hs; exact h.send hp ⟨rfl, rfl⟩ ⟨rfl, rfl⟩ rfl rfl
      next req hp =>
        cases hs
        exact h.send hp ⟨rfl, rfl⟩ ⟨rfl, rfl⟩ rfl (List.append_nil _).symm
      next => cases hs
  | lockRead i =>
      simp only [Rpc.step] at hs
      split at hs
      next req hp hfree => cases hs; exact h.lockRead hp hfree
      next => cases hs
  | unlockWrite i =>
      simp only [Rpc.step] at hs
      split at hs
      next req hp => cases hs; exact h.unlockWrite hp
      next => cases hs
  | recv i k =>
      simp only [Rpc.step] at hs
      split at hs
      next req r hp =>
        split at hs
        next hk => cases hs; exact h.recv hp hk.2.1
        next => cases hs
      next => cases hs
  | finish i =>
      simp only [Rpc.step] at hs
      split at hs
      next req ret out hp =>
        split at hs
        next hlen => cases hs; exact h.finish hp hlen
        next => cases hs
      next => cases hs
  | serverRecv k =>
      simp only [Rpc.step] at hs
      split at hs
      next r hserver =>
        split at hs
        next hk => cases hs; exact h.serverRecv hserver hk.2.1
        next => cases hs
      next => cases hs
  | serve reply =>
      simp only [Rpc.step] at hs
      split at hs
      next header data hserver =>
        split at hs
        next hlen => cases hs; exact h.serve reply hserver hlen
        next => cases hs
      next => cases hs
  | serverSend =>
      simp only [Rpc.step] at hs
      split at hs
      next reply hserver =>
        cases hs
        refine h.serverSend ?_ ?_
        · rw [hserver]
          cases reply with
          | none => rfl
          | some out => rfl
        · rw [hserver]
          cases reply with
          | none => rfl
          | some out => rfl
      next out hserver =>
        cases hs
        refine h.serverSend ?_ ?_
        · rw [hserver]
          exact (List.append_nil _).symm
        · rw [hserver]
          rfl
      next => cases hs

end Rpc

/-- In every state of every run of any callers, the frames on the wire are whole, and
every caller has read what the server has answered to its own request. -/
theorem calls_paired [DecidableEq ι] {s : Rpc ι} (h : (rpc ι).Reachable s) : Paired s := by
  have hinv : s.Inv := Transition.System.Reachable.invariant (I := Rpc.Inv)
    (fun _ hi => hi ▸ Rpc.inv_start) (fun _ _ _ hi hs => hi.step hs) h
  exact
    { whole := hinv.whole
      frames := ⟨s.unsent, hinv.sent.symm⟩
      own := fun _ _ hr => hinv.own hr }

/-- A call with a request of one byte, and one with an empty request. -/
def oneByteCall : RpcRequest := ⟨3, 1, ⟨[7], by decide⟩⟩

def emptyCall : RpcRequest := ⟨3, 2, ⟨[], by decide⟩⟩

/-- The caller that comes second gets the mutexes first, and the other one sends while
its reply is under way. -/
def overlappingCalls : List (RpcAct Bool) :=
  [.call false oneByteCall, .call true emptyCall, .lockWrite true, .send true, .send true,
   .lockRead true, .unlockWrite true, .lockWrite false, .send false, .serverRecv 7,
   .serverRecv 3, .serve (some ⟨[5, 6], by decide⟩), .serverSend, .recv true 3, .serverSend,
   .recv true 2, .recv true 1, .send false, .recv true 1, .finish true, .lockRead false,
   .unlockWrite false, .serverRecv 10, .serverRecv 1, .serve none, .serverSend, .recv false 5,
   .finish false]

/-- The second caller reads two bytes, and the first one that its call has failed. -/
theorem calls_paired_overlapping :
    ∃ s, Transition.exec Rpc.step {} overlappingCalls = some s ∧
      (s.results.map fun r => (r.caller, r.ret.failed, r.out)) =
        [(true, false, [5, 6]), (false, true, [])] ∧ Paired s := by
  have hrun : (Transition.exec Rpc.step {} overlappingCalls).map
      (fun s => s.results.map fun r => (r.caller, r.ret.failed, r.out)) =
        some [(true, false, [5, 6]), (false, true, [])] := by
    decide +kernel
  obtain ⟨s, hs, hresults⟩ := Option.map_eq_some_iff.mp hrun
  exact ⟨s, hs, hresults, calls_paired (Transition.exec_reachable rfl hs)⟩

end Ofs
