import Zookeeper.Framing
import Zookeeper.Paxos.Election

/-!
# Reading votes off a connection

`VoteReciver::DealNetPacket` and `VoteSender::DealPingpong` read frames into a buffer of
`NET_BUFF_SIZE` bytes.  They deal with the frames that are whole, and move what is left to
the front before they receive more (`paxos/election/election.cpp`).

The two are one `NetLoop`, with what they do with a frame, what they read of it behind the
header, and whether a loop around it starts them again.  A step of the loop is a call of
`hn_recv` or a turn of the inner loop.

`votes_framed` is about peers that send whole frames, however these are cut into pieces.
`vote_reading` is about any peer.  A size that is not positive, too long for the buffer or
too short for a vote is not checked, and `DealNetPacket` never returns.
-/

namespace Paxos

/-- `NET_BUFF_SIZE`. -/
def netBuffSize : Nat := 1024

structure VoteHeader where
  /-- The bytes of the frame, with the header. -/
  size : Int16
  id : Int16
deriving DecidableEq

namespace VoteHeader

def ping : Int16 := 0

def pong : Int16 := 1

def vote : Int16 := 2

def codec : Codec VoteHeader :=
  (Codec.int16.pair Codec.int16).map (fun x => ⟨x.1, x.2⟩) (fun h => (h.size, h.id)) fun _ => rfl

end VoteHeader

/-- The byte of a state. -/
def ElectionState.codec : Codec ElectionState where
  size := 1
  encode
    | .looking => [0]
    | .following => [1]
    | .leading => [2]
    | .other => [3]
  decode bs :=
    match bs.headD 3 with
    | 0 => .looking
    | 1 => .following
    | 2 => .leading
    | _ => .other
  length_encode state := by cases state <;> rfl
  decode_encode state := by cases state <;> rfl

/-- Bytes between two fields. -/
def paddingCodec (n : Nat) : Codec Unit where
  size := n
  encode _ := List.replicate n 0
  decode _ := ()
  length_encode _ := List.length_replicate
  decode_encode _ := rfl

/-- A `Vote` in memory. -/
def Vote.codec : Codec Vote :=
  (Codec.int32.pair (ElectionState.codec.pair ((paddingCodec 3).pair
    (Codec.int32.pair (Codec.int32.pair Codec.int64))))).map
    (fun x => ⟨x.1, x.2.1, x.2.2.2.1, x.2.2.2.2.1, x.2.2.2.2.2⟩)
    (fun v => (v.idx, v.state, (), v.electionEpoch, v.voteId, v.voteZxId)) fun _ => rfl

/-! ## The loop -/

/-- What is done with a frame. -/
inductive VoteEvent where
  /-- `_activeTick` is set. -/
  | active
  /-- A `PONG` is sent. -/
  | pong
  /-- A vote goes to the channel. -/
  | vote (vote : Vote)
deriving DecidableEq

structure NetLoop where
  /-- How many bytes behind the header of a frame are read. -/
  reads : Int16 → Nat
  /-- What is done with a frame, with the bytes behind its header. -/
  deal : Int16 → Bytes → List VoteEvent
  /-- Whether the loop is started again when `hn_recv` has failed. -/
  again : Bool

/-- `VoteReciver::DealNetPacket`. -/
def dealNetPacket : NetLoop where
  reads id := if id = VoteHeader.vote then Vote.codec.size else 0
  deal id bytes :=
    if id = VoteHeader.pong then [.active]
    else if id = VoteHeader.vote then [.vote (Vote.codec.decode (bytes.take Vote.codec.size))]
    else []
  again := true

/-- `VoteSender::DealPingpong`. -/
def dealPingpong : NetLoop where
  reads _ := 0
  deal id _ := if id = VoteHeader.ping then [.pong, .active] else []
  again := false

/-- Where a loop stands. -/
inductive LoopStage where
  /-- In front of `hn_recv`. -/
  | receiving
  /-- In front of a turn of the inner loop. -/
  | dealing (pos : Int)
  | returned
  /-- Something was read that is not among the bytes received. -/
  | beyond
deriving DecidableEq

structure LoopState where
  /-- The first `offset` bytes of `buff`. -/
  buff : Bytes := []
  stage : LoopStage := .receiving
  events : List VoteEvent := []
  /-- All that `hn_recv` has returned. -/
  received : Bytes := []
deriving DecidableEq

inductive LoopAct where
  /-- `hn_recv` returns bytes, no more than it was asked for. -/
  | recv (bytes : Bytes)
  /-- `hn_recv` reports a failure. -/
  | fail
  /-- A turn of the inner loop. -/
  | deal
deriving DecidableEq

namespace NetLoop

/-- The lines behind the inner loop. -/
def leave (s : LoopState) (pos : Int) : LoopState :=
  { s with
    buff := if pos < s.buff.length then s.buff.drop pos.toNat else []
    stage := .receiving }

/-- The header at the front of bytes. -/
def header (bytes : Bytes) : VoteHeader :=
  VoteHeader.codec.decode (bytes.take VoteHeader.codec.size)

/-- A turn of the inner loop.  Its condition compares unsigned numbers. -/
def turn (l : NetLoop) (s : LoopState) (pos : Int) : LoopState :=
  let left : Int := s.buff.length - pos
  if pos < 0 ∨ left < 0 then { s with stage := .beyond }
  else if left % 2 ^ 64 < VoteHeader.codec.size then leave s pos
  else
    let h := header (s.buff.drop pos.toNat)
    if left < h.size.toInt then leave s pos
    else
      let bytes := s.buff.drop (pos.toNat + VoteHeader.codec.size)
      if bytes.length < l.reads h.id then { s with stage := .beyond }
      else
        { s with
          stage := .dealing (pos + h.size.toInt)
          events := s.events ++ l.deal h.id bytes }

def step (l : NetLoop) (s : LoopState) : LoopAct → Option LoopState
  | .recv bytes =>
      if s.stage = .receiving ∧ bytes.length ≤ netBuffSize - s.buff.length then
        some { s with
          buff := s.buff ++ bytes
          stage := .dealing 0
          received := s.received ++ bytes }
      else none
  | .fail =>
      if s.stage = .receiving then
        some (if l.again then { s with buff := [] } else { s with stage := .returned })
      else none
  | .deal =>
      match s.stage with
      | .dealing pos => some (l.turn s pos)
      | _ => none

end NetLoop

/-- A loop on a new connection. -/
def netLoop (l : NetLoop) : Transition.System LoopState LoopAct :=
  Transition.ofStep (fun s => s = {}) l.step

/-- What `hn_recv` returns is the next part of a stream, and not empty. -/
def Sends (data : Bytes) (s : LoopState) : LoopAct → Prop
  | .recv bytes => bytes ≠ [] ∧ s.received ++ bytes <+: data
  | .fail => False
  | .deal => True

instance (data : Bytes) (s : LoopState) : ∀ a, Decidable (Sends data s a)
  | .recv _ => inferInstanceAs (Decidable (_ ∧ _))
  | .fail => inferInstanceAs (Decidable False)
  | .deal => inferInstanceAs (Decidable True)

namespace NetLoop

variable {l : NetLoop} {s s' : LoopState} {data rest bytes : Bytes} {p : Nat}

/-! ## A turn -/

theorem leave_eq (s : LoopState) (p : Nat) :
    leave s p = { s with buff := s.buff.drop p, stage := .receiving } := by
  rw [leave]
  split
  next => rw [Int.toNat_natCast]
  next hle =>
    rw [Nat.cast_lt] at hle
    rw [List.drop_eq_nil_of_le (Nat.not_lt.mp hle)]

/-- What is behind a position is not a whole frame. -/
def Waits (bytes : Bytes) : Prop :=
  bytes.length < VoteHeader.codec.size ∨ (bytes.length : Int) < (header bytes).size.toInt

/-- A turn at a position in the buffer. -/
theorem turn_cases (l : NetLoop) (h : p ≤ s.buff.length) (hsize : s.buff.length ≤ netBuffSize) :
    (Waits (s.buff.drop p) ∧
        l.turn s p = { s with buff := s.buff.drop p, stage := .receiving }) ∨
      (¬ Waits (s.buff.drop p) ∧
        (s.buff.drop p).length < VoteHeader.codec.size + l.reads (header (s.buff.drop p)).id ∧
        l.turn s p = { s with stage := .beyond }) ∨
      (¬ Waits (s.buff.drop p) ∧
        VoteHeader.codec.size + l.reads (header (s.buff.drop p)).id ≤ (s.buff.drop p).length ∧
        l.turn s p =
          { s with
            stage := .dealing (p + (header (s.buff.drop p)).size.toInt)
            events := s.events ++ l.deal (header (s.buff.drop p)).id
              ((s.buff.drop p).drop VoteHeader.codec.size) }) := by
  have hleft : ((s.buff.length : Int) - p) = ((s.buff.drop p).length : Int) := by
    rw [List.length_drop]
    omega
  have hin : ¬ ((p : Int) < 0 ∨ ((s.buff.drop p).length : Int) < 0) := by omega
  have hlarge : ((s.buff.drop p).length : Int) % 2 ^ 64 = ((s.buff.drop p).length : Int) := by
    refine Int.emod_eq_of_lt (Int.natCast_nonneg _) ?_
    rw [List.length_drop]
    simp only [netBuffSize] at hsize
    omega
  simp only [turn, hleft, if_neg hin, hlarge, Int.toNat_natCast, ← List.drop_drop, Waits,
    Nat.cast_lt]
  by_cases hshort : (s.buff.drop p).length < VoteHeader.codec.size
  · exact .inl ⟨.inl hshort, by rw [if_pos hshort, leave_eq]⟩
  · by_cases hlong : ((s.buff.drop p).length : Int) < (header (s.buff.drop p)).size.toInt
    · exact .inl ⟨.inr hlong, by rw [if_neg hshort, if_pos hlong, leave_eq]⟩
    · rw [if_neg hshort, if_neg hlong]
      have hlength := List.length_drop (i := VoteHeader.codec.size) (l := s.buff.drop p)
      split
      next hread =>
        exact .inr (.inl ⟨not_or.mpr ⟨hshort, hlong⟩, by omega, rfl⟩)
      next hread =>
        exact .inr (.inr ⟨not_or.mpr ⟨hshort, hlong⟩, by omega, rfl⟩)

theorem turn_received (l : NetLoop) (s : LoopState) (pos : Int) :
    (l.turn s pos).received = s.received := by
  have hleave : (leave s pos).received = s.received := rfl
  simp only [turn]
  split
  next => rfl
  next =>
    split
    next => exact hleave
    next =>
      split
      next => exact hleave
      next =>
        split
        next => rfl
        next => rfl

/-- A turn that goes on leaves the buffer as it is. -/
theorem turn_buff {pos pos' : Int} (h : (l.turn s pos).stage = .dealing pos') :
    (l.turn s pos).buff = s.buff := by
  have hleave : (leave s pos).stage = .receiving := rfl
  simp only [turn] at h ⊢
  split at h
  next => cases h
  next hin =>
    rw [if_neg hin]
    split at h
    next => rw [hleave] at h; cases h
    next hshort =>
      rw [if_neg hshort]
      split at h
      next => rw [hleave] at h; cases h
      next hlong =>
        rw [if_neg hlong]
        split at h
        next => cases h
        next hread => rw [if_neg hread]

/-! ## Streams that are read as frames -/

/-- The bytes that stand behind each other are frames of which each is not empty, fits the
buffer, and has what is read of it.  Of the last one less may come than fills the buffer. -/
inductive WellFramed (l : NetLoop) : Bytes → Prop where
  | short {bytes : Bytes} : bytes.length < VoteHeader.codec.size → WellFramed l bytes
  | waiting {bytes : Bytes} : (bytes.length : Int) < (header bytes).size.toInt →
      (header bytes).size.toInt ≤ netBuffSize ∨ bytes.length < netBuffSize → WellFramed l bytes
  | frame {bytes : Bytes} : 0 < (header bytes).size.toInt →
      (header bytes).size.toInt ≤ netBuffSize → (header bytes).size.toInt ≤ bytes.length →
      VoteHeader.codec.size + l.reads (header bytes).id ≤
        max (VoteHeader.codec.size : Int) (header bytes).size.toInt →
      WellFramed l (bytes.drop (header bytes).size.toInt.toNat) → WellFramed l bytes

/-- A header that is there does not depend on what follows. -/
theorem header_append (h : VoteHeader.codec.size ≤ bytes.length) (rest : Bytes) :
    header (bytes ++ rest) = header bytes := by
  rw [header, header, List.take_append_of_le_length h]

theorem header_take {m : Nat} (h : VoteHeader.codec.size ≤ m) :
    header (bytes.take m) = header bytes := by
  rw [header, header, List.take_take, Nat.min_eq_left h]

/-- What waits leaves room for more. -/
theorem WellFramed.room (h : WellFramed l (bytes ++ rest)) (hwaits : Waits bytes) :
    bytes.length < netBuffSize := by
  by_cases hshort : bytes.length < VoteHeader.codec.size
  · exact Nat.lt_trans hshort (by decide)
  · have hlong := hwaits.resolve_left hshort
    rw [← header_append (Nat.not_lt.mp hshort) rest] at hlong
    cases h with
    | short h =>
        rw [List.length_append] at h
        omega
    | waiting _ h =>
        rw [List.length_append] at h
        omega
    | frame _ h => omega

/-- What does not wait begins with a whole frame. -/
theorem WellFramed.frame_of (h : WellFramed l (bytes ++ rest)) (hwaits : ¬ Waits bytes) :
    0 < (header bytes).size.toInt ∧ (header bytes).size.toInt ≤ bytes.length ∧
      VoteHeader.codec.size + l.reads (header bytes).id ≤ bytes.length ∧
      WellFramed l (bytes.drop (header bytes).size.toInt.toNat ++ rest) := by
  obtain ⟨hshort, hlong⟩ := not_or.mp hwaits
  have hheader := header_append (Nat.not_lt.mp hshort) rest
  cases h with
  | short h =>
      rw [List.length_append] at h
      omega
  | waiting h _ =>
      rw [hheader, List.length_append] at h
      omega
  | frame hpos hfits _ hread htail =>
      rw [hheader] at hpos hfits hread htail
      refine ⟨hpos, by omega, by omega, ?_⟩
      rwa [List.drop_append_of_le_length (by omega)] at htail

/-! ## Runs -/

/-- A loop in the middle of a stream that is read as frames. -/
structure Reading (l : NetLoop) (s : LoopState) (rest : Bytes) : Prop where
  fits : s.buff.length ≤ netBuffSize
  stage : match s.stage with
    | .receiving => Waits s.buff ∧ l.WellFramed (s.buff ++ rest)
    | .dealing pos => ∃ p : Nat, pos = p ∧ p ≤ s.buff.length ∧
        l.WellFramed (s.buff.drop p ++ rest)
    | .returned | .beyond => False

namespace Reading

theorem start (h : l.WellFramed data) : l.Reading {} data where
  fits := Nat.zero_le _
  stage := ⟨.inl (by decide), h⟩

theorem recv (h : l.Reading s (bytes ++ rest)) (hstage : s.stage = .receiving)
    (hlen : bytes.length ≤ netBuffSize - s.buff.length) (received : Bytes) :
    l.Reading { s with buff := s.buff ++ bytes, stage := .dealing 0, received := received }
      rest := by
  have hframed := h.stage
  rw [hstage] at hframed
  have hroom := hframed.2.room hframed.1
  refine ⟨?_, 0, rfl, Nat.zero_le _, ?_⟩
  · show (s.buff ++ bytes).length ≤ netBuffSize
    rw [List.length_append]
    omega
  · rw [List.drop_zero, List.append_assoc]
    exact hframed.2

/-- A turn leaves the loop, or goes on behind a frame. -/
theorem deal {pos : Int} (h : l.Reading s rest) (hstage : s.stage = .dealing pos) :
    l.Reading (l.turn s pos) rest ∧ ∀ pos', (l.turn s pos).stage = .dealing pos' → pos < pos' := by
  have hframed := h.stage
  rw [hstage] at hframed
  obtain ⟨p, rfl, hp, hframed⟩ := hframed
  have hlength := List.length_drop (i := p) (l := s.buff)
  rcases turn_cases l hp h.fits with ⟨hwaits, hturn⟩ | ⟨hwhole, hread, _⟩ | ⟨hwhole, _, hturn⟩
  · rw [hturn]
    refine ⟨⟨?_, hwaits, hframed⟩, fun pos' hpos => by cases hpos⟩
    show (s.buff.drop p).length ≤ netBuffSize
    have hfits := h.fits
    omega
  · have hreads := (hframed.frame_of hwhole).2.2.1
    omega
  · obtain ⟨hpos, hsize, _, htail⟩ := hframed.frame_of hwhole
    rw [hturn]
    refine ⟨⟨h.fits, p + (header (s.buff.drop p)).size.toInt.toNat, ?_, ?_, ?_⟩, ?_⟩
    · rw [Nat.cast_add, Int.toNat_of_nonneg (Int.le_of_lt hpos)]
    · show _ ≤ s.buff.length
      omega
    · rw [← List.drop_drop]
      exact htail
    · intro pos' hpos'
      cases hpos'
      omega

end Reading

/-- In a stream that is read as frames, a loop is always in the middle of it. -/
theorem run_reading (hdata : l.WellFramed data) (h : (netLoop l).Run (Sends data) s) :
    ∃ rest, s.received ++ rest = data ∧ l.Reading s rest := by
  refine h.invariant (I := fun s => ∃ rest, s.received ++ rest = data ∧ l.Reading s rest) ?_ ?_
  · rintro s rfl
    exact ⟨data, rfl, .start hdata⟩
  · rintro s a s' ⟨rest, hrest, hreading⟩ hsends hs
    cases a with
    | recv bytes =>
        obtain ⟨_, rest', hrest'⟩ := hsends
        rw [← hrest', List.append_assoc, List.append_cancel_left_eq] at hrest
        subst hrest
        obtain ⟨⟨hstage, hlen⟩, hs⟩ := Option.ite_none_right_eq_some.mp hs
        cases hs
        exact ⟨rest', hrest', hreading.recv hstage hlen _⟩
    | fail => exact absurd hsends id
    | deal =>
        change l.step s .deal = some s' at hs
        simp only [step] at hs
        split at hs
        next pos hstage =>
          cases hs
          refine ⟨rest, ?_, (hreading.deal hstage).1⟩
          rw [turn_received]
          exact hrest
        next => cases hs

/-- The loop is within what it has received, goes on behind a frame, and has room for
what it receives. -/
def Inside (l : NetLoop) (s : LoopState) : Prop :=
  match s.stage with
  | .receiving => s.buff.length < netBuffSize
  | .dealing pos =>
      0 ≤ pos ∧ pos ≤ s.buff.length ∧ ∀ pos', (l.turn s pos).stage = .dealing pos' → pos < pos'
  | .returned => True
  | .beyond => False

/-- Whatever parts of the bytes have come, in whatever pieces. -/
def StaysInside (l : NetLoop) (data : Bytes) : Prop :=
  ∀ s, (netLoop l).Run (Sends data) s → l.Inside s

theorem Reading.inside (h : l.Reading s rest) : l.Inside s := by
  have hframed := h.stage
  rw [Inside]
  cases hstage : s.stage with
  | receiving =>
      rw [hstage] at hframed
      exact hframed.2.room hframed.1
  | dealing pos =>
      have hdeal := (h.deal hstage).2
      rw [hstage] at hframed
      obtain ⟨p, rfl, hp, _⟩ := hframed
      exact ⟨Int.natCast_nonneg p, Int.ofNat_le.mpr hp, hdeal⟩
  | returned => trivial
  | beyond =>
      rw [hstage] at hframed
      exact hframed

/-- The inner loop comes to an end, since there is less left to deal with behind each frame. -/
theorem Reading.deals_end (h : l.Reading s rest) :
    ∃ n s', Transition.exec l.step s (List.replicate n .deal) = some s' ∧
      s'.stage = .receiving ∧ s'.received = s.received ∧ l.Reading s' rest := by
  cases hstage : s.stage with
  | receiving => exact ⟨0, s, rfl, hstage, rfl, h⟩
  | dealing pos =>
      induction hleft : (s.buff.length - pos).toNat using Nat.strong_induction_on
        generalizing s pos with
      | _ left ih =>
          have hstep : l.step s .deal = some (l.turn s pos) := by
            simp only [step, hstage]
          obtain ⟨hreads, hmore⟩ := h.deal hstage
          have hstop := hreads.stage
          cases hturn : (l.turn s pos).stage with
          | receiving =>
              refine ⟨1, _, ?_, hturn, turn_received l s pos, hreads⟩
              simp only [List.replicate, Transition.exec, hstep, Option.bind_some]
          | dealing pos' =>
              have hless := hmore pos' hturn
              rw [hturn] at hstop
              obtain ⟨p', rfl, hle, _⟩ := hstop
              have hbuff := turn_buff hturn
              rw [hbuff] at hle
              obtain ⟨n, s', hexec, hs', hreceived, hreading⟩ :=
                ih _ (by rw [hbuff]; omega) hreads _ hturn rfl
              refine ⟨n + 1, s', ?_, hs', hreceived.trans (turn_received l s pos), hreading⟩
              simp only [List.replicate, Transition.exec, hstep, Option.bind_some]
              exact hexec
          | returned =>
              rw [hturn] at hstop
              exact hstop.elim
          | beyond =>
              rw [hturn] at hstop
              exact hstop.elim
  | returned =>
      have hstop := h.stage
      rw [hstage] at hstop
      exact hstop.elim
  | beyond =>
      have hstop := h.stage
      rw [hstage] at hstop
      exact hstop.elim

/-- Turns of the inner loop belong to any run. -/
theorem run_deals {n : Nat} (h : (netLoop l).Run (Sends data) s)
    (hexec : Transition.exec l.step s (List.replicate n .deal) = some s') :
    (netLoop l).Run (Sends data) s' := by
  refine Transition.exec_run h ?_ hexec
  clear h hexec
  induction n generalizing s with
  | zero => trivial
  | succ n ih => exact ⟨trivial, fun s' _ => ih⟩

/-! ## Frames in full -/

/-- A frame that its header describes, which fits the buffer and has what is read of it. -/
structure Fits (l : NetLoop) (p : VoteHeader × Bytes) : Prop where
  size : p.1.size.toInt = VoteHeader.codec.size + p.2.length
  fits : p.1.size.toInt ≤ netBuffSize
  reads : l.reads p.1.id ≤ p.2.length

/-- What is done with frames. -/
def dealt (l : NetLoop) (frames : List (VoteHeader × Bytes)) : List VoteEvent :=
  frames.flatMap fun p => l.deal p.1.id p.2

/-- What is done with a frame depends on that frame only. -/
def Local (l : NetLoop) : Prop :=
  ∀ id (body rest : Bytes), l.reads id ≤ body.length → l.deal id (body ++ rest) = l.deal id body

variable {frames : List (VoteHeader × Bytes)} {k : Nat}

/-- The first frame of a stream, where it has come as a whole. -/
theorem frame_front (hfits : ∀ p ∈ frames, l.Fits p)
    (h : Framing.stream VoteHeader.codec frames = bytes ++ rest) (hwaits : ¬ Waits bytes) :
    ∃ p frames' behind, frames = p :: frames' ∧ header bytes = p.1 ∧
      bytes = VoteHeader.codec.encode p.1 ++ (p.2 ++ behind) := by
  obtain ⟨hshort, hlong⟩ := not_or.mp hwaits
  have hsplit : Framing.stream VoteHeader.codec frames =
      bytes.take VoteHeader.codec.size ++ (bytes.drop VoteHeader.codec.size ++ rest) := by
    rw [← List.append_assoc, List.take_append_drop]
    exact h
  have htake : (bytes.take VoteHeader.codec.size).length = VoteHeader.codec.size := by
    rw [List.length_take]
    omega
  obtain ⟨p, frames', rfl, hhead, htail⟩ :=
    Framing.Reads.head_complete (by decide) hsplit htake
  have hheader : header bytes = p.1 := by
    rw [header, hhead, Codec.decode_encode]
  have hsize := (hfits p List.mem_cons_self).size
  have hlength := List.length_drop (i := VoteHeader.codec.size) (l := bytes)
  rw [hheader] at hlong
  obtain ⟨behind, hbehind, _⟩ : ∃ behind, bytes.drop VoteHeader.codec.size = p.2 ++ behind ∧
      Framing.stream VoteHeader.codec frames' = behind ++ rest := by
    rcases List.append_eq_append_iff.mp htail with ⟨behind, h₁, h₂⟩ | ⟨behind, h₁, h₂⟩
    · exact ⟨behind, h₁, h₂⟩
    · have hnil : behind = [] := by
        have hlen := congrArg List.length h₁
        rw [List.length_append] at hlen
        exact List.length_eq_zero_iff.mp (by omega)
      subst hnil
      exact ⟨[], by rw [h₁, List.append_nil, List.append_nil], h₂.symm⟩
  refine ⟨p, frames', behind, rfl, hheader, ?_⟩
  rw [← hhead, ← hbehind, List.take_append_drop]

theorem header_stream (p : VoteHeader × Bytes) (frames : List (VoteHeader × Bytes)) :
    header (Framing.stream VoteHeader.codec (p :: frames)) = p.1 := by
  have hhead : VoteHeader.codec.size ≤ (VoteHeader.codec.encode p.1).length := by
    rw [Codec.length_encode]
  rw [Framing.stream_cons, header_append hhead, header,
    List.take_of_length_le (Nat.le_of_eq (Codec.length_encode _ _)), Codec.decode_encode]

/-- Frames in full are read as frames. -/
theorem wellFramed_stream (hfits : ∀ p ∈ frames, l.Fits p) :
    l.WellFramed (Framing.stream VoteHeader.codec frames) := by
  induction frames with
  | nil => exact .short (by decide)
  | cons p frames ih =>
      have hp := hfits p List.mem_cons_self
      have hheader := header_stream p frames
      have hsize := hp.size
      have hreads := hp.reads
      have hpos : (0 : Int) < VoteHeader.codec.size := by decide
      have hlength : (Framing.stream VoteHeader.codec (p :: frames)).length =
          VoteHeader.codec.size + (p.2.length +
            (Framing.stream VoteHeader.codec frames).length) := by
        rw [Framing.stream_cons, List.length_append, List.length_append, Codec.length_encode]
      refine .frame ?_ ?_ ?_ ?_ ?_
      · rw [hheader]
        omega
      · rw [hheader]
        exact hp.fits
      · rw [hheader, hlength]
        omega
      · rw [hheader]
        omega
      · have hdrop : p.1.size.toInt.toNat = (VoteHeader.codec.encode p.1 ++ p.2).length := by
          rw [List.length_append, Codec.length_encode]
          omega
        rw [hheader, Framing.stream_cons, ← List.append_assoc, hdrop, List.drop_left]
        exact ih fun q hq => hfits q (List.mem_cons_of_mem p hq)

/-- What the inner loop has still to deal with. -/
def ahead (s : LoopState) : Bytes :=
  match s.stage with
  | .dealing pos => s.buff.drop pos.toNat
  | _ => s.buff

/-- A loop has dealt with the first frames, and with nothing else. -/
structure Kept (l : NetLoop) (frames : List (VoteHeader × Bytes)) (s : LoopState) (k : Nat) :
    Prop where
  received : s.received = Framing.stream VoteHeader.codec (frames.take k) ++ ahead s
  events : s.events = l.dealt (frames.take k)

/-- What is left is less than the next frame. -/
theorem Kept.unfinished (h : l.Kept frames s k) (hfits : ∀ p ∈ frames, l.Fits p)
    (hrest : s.received ++ rest = Framing.stream VoteHeader.codec frames)
    (hwaits : Waits (ahead s)) (p : VoteHeader × Bytes) (hp : frames[k]? = some p) :
    ((ahead s).length : Int) < p.1.size.toInt := by
  obtain ⟨hk, rfl⟩ := List.getElem?_eq_some_iff.mp hp
  have hsplit : frames.drop k = frames[k] :: frames.drop (k + 1) := List.drop_eq_getElem_cons hk
  have hstream : Framing.stream VoteHeader.codec (frames.drop k) = ahead s ++ rest := by
    have hboth := Framing.stream_append VoteHeader.codec (frames.take k) (frames.drop k)
    rw [List.take_append_drop, ← hrest, h.received, List.append_assoc] at hboth
    exact (List.append_cancel_left hboth).symm
  have hpFits := hfits _ (List.getElem_mem hk)
  have hsize := hpFits.size
  rcases hwaits with hshort | hlong
  · omega
  · by_cases hshort : (ahead s).length < VoteHeader.codec.size
    · omega
    · have hheader := header_append (Nat.not_lt.mp hshort) rest
      have hhead : VoteHeader.codec.size ≤ (VoteHeader.codec.encode frames[k].1).length := by
        rw [Codec.length_encode]
      rw [← hstream, hsplit, Framing.stream_cons, header_append hhead, header,
        List.take_of_length_le (Nat.le_of_eq (Codec.length_encode _ _)), Codec.decode_encode]
        at hheader
      rw [hheader]
      exact hlong

/-- A turn deals with the next frame, or with none. -/
theorem Kept.turn {pos : Int} (h : l.Kept frames s k) (hfits : ∀ p ∈ frames, l.Fits p)
    (hlocal : l.Local) (hrest : s.received ++ rest = Framing.stream VoteHeader.codec frames)
    (hreading : l.Reading s rest) (hstage : s.stage = .dealing pos) :
    ∃ k', l.Kept frames (l.turn s pos) k' := by
  have hframed := hreading.stage
  rw [hstage] at hframed
  obtain ⟨p, rfl, hp, hframed⟩ := hframed
  have hahead : ahead s = s.buff.drop p := by
    simp only [ahead, hstage, Int.toNat_natCast]
  have hreceived := h.received
  rw [hahead] at hreceived
  rcases turn_cases l hp hreading.fits with ⟨_, hturn⟩ | ⟨hwhole, hread, _⟩ | ⟨hwhole, _, hturn⟩
  · refine ⟨k, ?_⟩
    rw [hturn]
    exact ⟨hreceived, h.events⟩
  · have hreads := (hframed.frame_of hwhole).2.2.1
    omega
  · have hstream : Framing.stream VoteHeader.codec (frames.drop k) = s.buff.drop p ++ rest := by
      have hboth := Framing.stream_append VoteHeader.codec (frames.take k) (frames.drop k)
      rw [List.take_append_drop, ← hrest, hreceived, List.append_assoc] at hboth
      exact (List.append_cancel_left hboth).symm
    obtain ⟨frame, frames', behind, hdrop, hheader, hfront⟩ :=
      frame_front (fun q hq => hfits q (List.mem_of_mem_drop hq)) hstream hwhole
    have hframe : frame ∈ frames := List.mem_of_mem_drop (hdrop ▸ List.mem_cons_self)
    have hsize := (hfits frame hframe).size
    have htake : frames.take (k + 1) = frames.take k ++ [frame] := by
      rw [List.take_add, hdrop]
      rfl
    have hlen : (VoteHeader.codec.encode frame.1).length = VoteHeader.codec.size :=
      VoteHeader.codec.length_encode _
    have hbody : (s.buff.drop p).drop VoteHeader.codec.size = frame.2 ++ behind := by
      rw [hfront, List.drop_left' hlen]
    refine ⟨k + 1, ?_, ?_⟩
    · have hnext : s.buff.drop (p + frame.1.size.toInt.toNat) = behind := by
        have hall : frame.1.size.toInt.toNat =
            (VoteHeader.codec.encode frame.1 ++ frame.2).length := by
          rw [List.length_append, hlen]
          omega
        rw [← List.drop_drop, hfront, ← List.append_assoc, hall, List.drop_left]
      have hpos : ((p : Int) + frame.1.size.toInt).toNat = p + frame.1.size.toInt.toNat := by
        omega
      rw [hturn, hheader, htake, Framing.stream_append, Framing.stream_singleton]
      show s.received = _ ++ s.buff.drop ((p : Int) + frame.1.size.toInt).toNat
      rw [hpos, hnext, hreceived, hfront, Framing.frame, List.append_assoc, List.append_assoc]
    · rw [hturn, hheader, htake, hbody, hlocal _ _ _ (hfits frame hframe).reads, h.events]
      simp only [dealt, List.flatMap_append, List.flatMap_cons, List.flatMap_nil, List.append_nil]

/-- Along a stream of frames, a loop has dealt with the first of them. -/
theorem run_kept (hfits : ∀ p ∈ frames, l.Fits p) (hlocal : l.Local)
    (h : (netLoop l).Run (Sends (Framing.stream VoteHeader.codec frames)) s) :
    ∃ k, l.Kept frames s k := by
  induction h with
  | start hi =>
      cases hi
      exact ⟨0, rfl, rfl⟩
  | @next s s' a hrun hsends hs ih =>
      obtain ⟨k, hkept⟩ := ih
      obtain ⟨rest, hrest, hreading⟩ := run_reading (wellFramed_stream hfits) hrun
      change l.step s a = some s' at hs
      cases a with
      | recv bytes =>
          obtain ⟨⟨hstage, _⟩, hs⟩ := Option.ite_none_right_eq_some.mp hs
          cases hs
          have hahead : ahead s = s.buff := by
            rw [ahead, hstage]
          refine ⟨k, ?_, hkept.events⟩
          rw [hkept.received, hahead, List.append_assoc]
          rfl
      | fail => exact absurd hsends id
      | deal =>
          simp only [step] at hs
          split at hs
          next pos hstage =>
            cases hs
            exact hkept.turn hfits hlocal hrest hreading hstage
          next => cases hs

end NetLoop

/-! ## Votes -/

/-- The votes that went to the channel. -/
def LoopState.votes (s : LoopState) : List Vote :=
  s.events.filterMap fun
    | .vote vote => some vote
    | _ => none

/-- The votes of frames. -/
def sentVotes (frames : List (VoteHeader × Bytes)) : List Vote :=
  frames.filterMap fun p =>
    if p.1.id = VoteHeader.vote then some (Vote.codec.decode (p.2.take Vote.codec.size)) else none

/-- A frame of at most `NET_BUFF_SIZE` bytes, with a whole `Vote` if it is a `VOTE`. -/
structure VoteFrame (p : VoteHeader × Bytes) : Prop where
  size : p.1.size.toInt = VoteHeader.codec.size + p.2.length
  fits : p.1.size.toInt ≤ netBuffSize
  whole : p.1.id = VoteHeader.vote → Vote.codec.size ≤ p.2.length

theorem VoteFrame.fits_net {p : VoteHeader × Bytes} (h : VoteFrame p) : dealNetPacket.Fits p where
  size := h.size
  fits := h.fits
  reads := by
    simp only [dealNetPacket]
    split
    next hid => exact h.whole hid
    next => exact Nat.zero_le _

theorem dealNetPacket_local : dealNetPacket.Local := by
  intro id body rest hreads
  simp only [dealNetPacket] at hreads ⊢
  split
  next => rfl
  next =>
    split
    next hid =>
      rw [if_pos hid] at hreads
      rw [List.take_append_of_le_length hreads]
    next => rfl

theorem dealt_votes {s : LoopState} {frames : List (VoteHeader × Bytes)}
    (h : s.events = dealNetPacket.dealt frames) : s.votes = sentVotes frames := by
  rw [LoopState.votes, h]
  clear h
  induction frames with
  | nil => rfl
  | cons p frames ih =>
      have hcons : dealNetPacket.dealt (p :: frames) =
          dealNetPacket.deal p.1.id p.2 ++ dealNetPacket.dealt frames := List.flatMap_cons
      rw [hcons, List.filterMap_append, ih, sentVotes, sentVotes, List.filterMap_cons]
      by_cases hvote : p.1.id = VoteHeader.vote
      · have hpong : ¬ VoteHeader.vote = VoteHeader.pong := by decide
        simp [dealNetPacket, hvote, hpong]
      · by_cases hpong : p.1.id = VoteHeader.pong
        · have hother : ¬ VoteHeader.pong = VoteHeader.vote := by decide
          simp [dealNetPacket, hpong, hother]
        · simp [dealNetPacket, hpong, hvote]

/-- While frames come in any pieces, `pos` is in what has been received, the inner loop
comes to an end, and there the votes of the frames that are whole have gone to the channel,
the rest is in the buffer, and there is room behind it. -/
theorem votes_framed {frames : List (VoteHeader × Bytes)} (hframes : ∀ p ∈ frames, VoteFrame p)
    {s : LoopState}
    (h : (netLoop dealNetPacket).Run (Sends (Framing.stream VoteHeader.codec frames)) s) :
    s.buff.length ≤ netBuffSize ∧ s.stage ≠ .beyond ∧
      (∀ pos, s.stage = .dealing pos → 0 ≤ pos ∧ pos ≤ s.buff.length) ∧
      ∃ n s', Transition.exec dealNetPacket.step s (List.replicate n .deal) = some s' ∧
        s'.stage = .receiving ∧ s'.received = s.received ∧ s'.buff.length < netBuffSize ∧
        ∃ k, s'.received = Framing.stream VoteHeader.codec (frames.take k) ++ s'.buff ∧
          s'.votes = sentVotes (frames.take k) ∧
          ∀ p ∈ frames[k]?, (s'.buff.length : Int) < p.1.size.toInt := by
  have hfits : ∀ p ∈ frames, dealNetPacket.Fits p := fun p hp => (hframes p hp).fits_net
  obtain ⟨rest, hrest, hreading⟩ := NetLoop.run_reading (NetLoop.wellFramed_stream hfits) h
  have hinside := hreading.inside
  obtain ⟨n, s', hexec, hstage, hreceived, hreading'⟩ := hreading.deals_end
  obtain ⟨k, hkept⟩ := NetLoop.run_kept hfits dealNetPacket_local (NetLoop.run_deals h hexec)
  have hinside' := hreading'.inside
  have hframed := hreading'.stage
  rw [NetLoop.Inside, hstage] at hinside'
  rw [hstage] at hframed
  have hahead : NetLoop.ahead s' = s'.buff := by
    simp only [NetLoop.ahead, hstage]
  refine ⟨hreading.fits, ?_, ?_, n, s', hexec, hstage, hreceived, hinside', k, ?_,
    dealt_votes hkept.events, ?_⟩
  · intro hbeyond
    rw [NetLoop.Inside, hbeyond] at hinside
    exact hinside
  · intro pos hpos
    rw [NetLoop.Inside, hpos] at hinside
    exact ⟨hinside.1, hinside.2.1⟩
  · rw [← hahead]
    exact hkept.received
  · rw [← hahead]
    rw [← hreceived] at hrest
    rw [← hahead] at hframed
    exact fun p hp => hkept.unfinished hfits hrest hframed.1 p hp

/-- A frame with a vote, as `BrocastVote` makes it. -/
def voteFrame (vote : Vote) : VoteHeader × Bytes := (⟨28, VoteHeader.vote⟩, Vote.codec.encode vote)

theorem voteFrame_whole (vote : Vote) : VoteFrame (voteFrame vote) where
  size := by
    have hsize : (28 : Int16).toInt = (VoteHeader.codec.size : Int) + Vote.codec.size := by decide
    rw [voteFrame, Codec.length_encode]
    exact hsize
  fits := by
    show (28 : Int16).toInt ≤ (netBuffSize : Int)
    decide
  whole _ := by rw [voteFrame, Codec.length_encode]

/-- A vote comes in two pieces, the first of which is not even a header. -/
def twoPieces (data : Bytes) : List LoopAct := [.recv (data.take 3), .deal, .recv (data.drop 3)]

theorem votes_framed_twoPieces :
    ∃ s, Transition.exec dealNetPacket.step {}
        (twoPieces (Framing.stream VoteHeader.codec [voteFrame ⟨2, .looking, 1, 2, 7⟩])) = some s ∧
      s.buff.length ≤ netBuffSize ∧ s.stage ≠ .beyond := by
  have hguard : Transition.Guarded dealNetPacket.step
      (Sends (Framing.stream VoteHeader.codec [voteFrame ⟨2, .looking, 1, 2, 7⟩])) {}
      (twoPieces (Framing.stream VoteHeader.codec [voteFrame ⟨2, .looking, 1, 2, 7⟩])) := by
    decide +kernel
  have hrun : (Transition.exec dealNetPacket.step {}
      (twoPieces (Framing.stream VoteHeader.codec [voteFrame ⟨2, .looking, 1, 2, 7⟩]))).isSome := by
    decide +kernel
  obtain ⟨s, hs⟩ := Option.isSome_iff_exists.mp hrun
  have hframes : ∀ p ∈ [voteFrame ⟨2, .looking, 1, 2, 7⟩], VoteFrame p := by
    intro p hp
    obtain rfl := List.mem_singleton.mp hp
    exact voteFrame_whole _
  have hfree : ({} : LoopState) = {} := rfl
  have hframed := votes_framed hframes (Transition.exec_run (.start hfree) hguard hs)
  exact ⟨s, hs, hframed.1, hframed.2.1⟩

/-! ## Any peer -/

namespace NetLoop

variable {l : NetLoop} {s s' : LoopState} {data rest bytes : Bytes}

/-- Where `hn_recv` reports a failure, which it then goes on doing, the loop returns. -/
def Returns (l : NetLoop) (data : Bytes) : Prop :=
  ∀ s, (netLoop l).Run (Sends data) s → s.stage = .receiving →
    ∃ n s', Transition.exec l.step s (List.replicate n .fail) = some s' ∧ s'.stage = .returned

/-- The loop survives a peer that sends some bytes, and then nothing. -/
def Survives (l : NetLoop) (data : Bytes) : Prop := l.StaysInside data ∧ l.Returns data

theorem staysInside_of_wellFramed (h : l.WellFramed data) : l.StaysInside data := by
  intro s hrun
  obtain ⟨rest, _, hreading⟩ := run_reading h hrun
  exact hreading.inside

/-- `DealPingpong` returns when `hn_recv` has failed. -/
theorem returns_of_once (h : l.again = false) (data : Bytes) : l.Returns data := by
  intro s _ hstage
  refine ⟨1, { s with stage := .returned }, ?_, rfl⟩
  simp only [List.replicate, Transition.exec, step, hstage, if_true, h, Bool.false_eq_true,
    if_false, Option.bind_some]

/-- A loop that is started again never returns. -/
theorem not_returns_of_again (h : l.again = true) (data : Bytes) : ¬ l.Returns data := by
  intro hreturns
  obtain ⟨n, s', hexec, hstage⟩ := hreturns {} (.start rfl) rfl
  have hreceiving : s'.stage = .receiving := by
    have hfirst : ({} : LoopState).stage = .receiving := rfl
    revert hexec hfirst
    generalize ({} : LoopState) = s
    intro hexec hfirst
    induction n generalizing s with
    | zero =>
        cases hexec
        exact hfirst
    | succ n ih =>
        have hstep : l.step s .fail = some { s with buff := [] } := by
          simp only [step, hfirst, if_true, h]
        simp only [List.replicate, Transition.exec, hstep, Option.bind_some] at hexec
        exact ih _ hexec hfirst
  rw [hstage] at hreceiving
  cases hreceiving

/-- A loop that is in front of `hn_recv` takes in as much as it has room for. -/
theorem run_recv (hrun : (netLoop l).Run (Sends data) s) (hstage : s.stage = .receiving)
    (hne : bytes ≠ []) (hdata : s.received ++ (bytes ++ rest) = data)
    (hlen : s.buff.length + bytes.length ≤ netBuffSize) :
    (netLoop l).Run (Sends data)
      { s with
        buff := s.buff ++ bytes
        stage := .dealing 0
        received := s.received ++ bytes } := by
  refine hrun.next (a := .recv bytes) ⟨hne, rest, by rw [List.append_assoc]; exact hdata⟩ ?_
  change l.step s (.recv bytes) = _
  simp only [step, hstage, true_and]
  rw [if_pos (by omega)]

theorem run_turn {pos : Int} (hrun : (netLoop l).Run (Sends data) s)
    (hstage : s.stage = .dealing pos) : (netLoop l).Run (Sends data) (l.turn s pos) := by
  refine hrun.next (a := .deal) trivial ?_
  change l.step s .deal = _
  simp only [step, hstage]

/-- A loop takes in so much that it has the first `m` bytes of what is to come. -/
theorem run_upto {m : Nat} (hrun : (netLoop l).Run (Sends data) s) (hstage : s.stage = .receiving)
    (hdata : s.received ++ rest = data) (hless : s.buff.length < m)
    (hlen : m ≤ (s.buff ++ rest).length) (hsize : m ≤ netBuffSize) :
    ∃ s' : LoopState, (netLoop l).Run (Sends data) s' ∧ s'.stage = .dealing 0 ∧
      s'.buff = (s.buff ++ rest).take m ∧
      s'.received ++ rest.drop (m - s.buff.length) = data := by
  rw [List.length_append] at hlen
  have htake : (rest.take (m - s.buff.length)).length = m - s.buff.length := by
    rw [List.length_take]
    omega
  have hne : rest.take (m - s.buff.length) ≠ [] := by
    intro hnil
    rw [hnil, List.length_nil] at htake
    omega
  have hall : s.received ++ (rest.take (m - s.buff.length) ++ rest.drop (m - s.buff.length)) =
      data := by
    rw [List.take_append_drop]
    exact hdata
  refine ⟨_, run_recv hrun hstage hne hall (by omega), rfl, ?_, ?_⟩
  · rw [List.take_append, List.take_of_length_le (Nat.le_of_lt hless)]
  · rw [List.append_assoc]
    exact hall

/-- What is not whole waits in the buffer. -/
theorem turn_waits {p : Nat} (h : p ≤ s.buff.length) (hsize : s.buff.length ≤ netBuffSize)
    (hwaits : Waits (s.buff.drop p)) :
    l.turn s p = { s with buff := s.buff.drop p, stage := .receiving } := by
  rcases turn_cases l h hsize with ⟨_, hturn⟩ | ⟨hwhole, _⟩ | ⟨hwhole, _⟩
  · exact hturn
  · exact absurd hwaits hwhole
  · exact absurd hwaits hwhole

/-- No frame fills the buffer without an end. -/
theorem fits_of_staysInside (hinside : l.StaysInside data)
    (hrun : (netLoop l).Run (Sends data) s) (hstage : s.stage = .dealing 0)
    (hfull : s.buff.length = netBuffSize) : (header s.buff).size.toInt ≤ netBuffSize := by
  by_contra hlarge
  have hwaits : Waits (s.buff.drop 0) := by
    rw [List.drop_zero]
    exact .inr (by omega)
  have hin := hinside _ (run_turn hrun hstage)
  have hturn := turn_waits (l := l) (Nat.zero_le _) (Nat.le_of_eq hfull) hwaits
  rw [Nat.cast_zero] at hturn
  rw [hturn, Inside] at hin
  exact absurd hfull (Nat.ne_of_lt hin)

/-- A whole frame has a size, is long enough for what is read of it, and is left behind. -/
theorem deals_of_staysInside (hinside : l.StaysInside data)
    (hrun : (netLoop l).Run (Sends data) s) (hstage : s.stage = .dealing 0)
    (hsize : s.buff.length ≤ netBuffSize) (hwhole : ¬ Waits s.buff) :
    0 < (header s.buff).size.toInt ∧
      VoteHeader.codec.size + l.reads (header s.buff).id ≤ s.buff.length ∧
      (l.turn s 0).stage = .dealing (header s.buff).size.toInt := by
  have hhere := hinside _ hrun
  have hin := hinside _ (run_turn hrun hstage)
  rw [Inside, hstage] at hhere
  rcases turn_cases (p := 0) l (Nat.zero_le _) hsize with
    ⟨hwaits, _⟩ | ⟨_, _, hturn⟩ | ⟨_, hread, hturn⟩
  · rw [List.drop_zero] at hwaits
    exact absurd hwaits hwhole
  · rw [Nat.cast_zero] at hturn
    rw [hturn, Inside] at hin
    exact hin.elim
  · rw [List.drop_zero] at hread
    rw [Nat.cast_zero, List.drop_zero, Int.zero_add] at hturn
    exact ⟨hhere.2.2 _ (by rw [hturn]), hread, by rw [hturn]⟩

/-- The first frame comes alone, with the rest of its header if it is shorter than that.
Behind it there is not even a header. -/
theorem run_frame (hinside : l.StaysInside data) (hrun : (netLoop l).Run (Sends data) s)
    (hstage : s.stage = .receiving) (hshort : s.buff.length < VoteHeader.codec.size)
    (hdata : s.received ++ rest = data) (hwhole : ¬ Waits (s.buff ++ rest))
    (hfits : (header (s.buff ++ rest)).size.toInt ≤ netBuffSize) :
    0 < (header (s.buff ++ rest)).size.toInt ∧
      VoteHeader.codec.size + l.reads (header (s.buff ++ rest)).id ≤
        max (VoteHeader.codec.size : Int) (header (s.buff ++ rest)).size.toInt ∧
      ∃ s' rest', (netLoop l).Run (Sends data) s' ∧ s'.stage = .receiving ∧
        s'.buff.length < VoteHeader.codec.size ∧ s'.received ++ rest' = data ∧
        rest'.length < rest.length ∧
        (s.buff ++ rest).drop (header (s.buff ++ rest)).size.toInt.toNat = s'.buff ++ rest' := by
  have hfour : VoteHeader.codec.size = 4 := rfl
  have hnet : netBuffSize = 1024 := rfl
  have htotal : (s.buff ++ rest).length = s.buff.length + rest.length := List.length_append
  rw [Waits, not_or] at hwhole
  obtain ⟨m, hm⟩ : ∃ m : Nat, (m : Int) =
      max (VoteHeader.codec.size : Int) (header (s.buff ++ rest)).size.toInt :=
    ⟨_, Int.toNat_of_nonneg (by omega)⟩
  obtain ⟨s', hrun', hstage', hbuff, hdata'⟩ :=
    run_upto (m := m) hrun hstage hdata (by omega) (by omega) (by omega)
  have hlength : s'.buff.length = m := by
    rw [hbuff, List.length_take]
    omega
  have hheader : header s'.buff = header (s.buff ++ rest) := by
    rw [hbuff, header_take (by omega)]
  have hready : ¬ Waits s'.buff := by
    rw [Waits, hheader, not_or]
    omega
  obtain ⟨hpos, hread, hgoes⟩ := deals_of_staysInside hinside hrun' hstage' (by omega) hready
  rw [hheader] at hpos hread hgoes
  obtain ⟨n, hn⟩ := Int.eq_ofNat_of_zero_le (Int.le_of_lt hpos)
  rw [hn] at hgoes hm hpos hwhole ⊢
  have hsame := turn_buff hgoes
  have hleftover : ((l.turn s' 0).buff.drop n).length < VoteHeader.codec.size := by
    rw [hsame, List.length_drop]
    omega
  have hleave := turn_waits (l := l) (p := n) (s := l.turn s' 0) (by rw [hsame]; omega)
    (by rw [hsame]; omega) (.inl hleftover)
  have hkeeps : (l.turn (l.turn s' 0) n).buff = s'.buff.drop n := by rw [hleave, hsame]
  have hdrop : (s.buff ++ rest).drop m = rest.drop (m - s.buff.length) := by
    rw [List.drop_append, List.drop_eq_nil_of_le (by omega), List.nil_append]
  have hsplit : (s.buff ++ rest).drop n =
      ((s.buff ++ rest).take m).drop n ++ (s.buff ++ rest).drop m := by
    rw [← List.drop_append_of_le_length, List.take_append_drop]
    rw [← hbuff, hlength]
    omega
  refine ⟨hpos, by omega, l.turn (l.turn s' 0) n, rest.drop (m - s.buff.length),
    run_turn (run_turn hrun' hstage') hgoes, by rw [hleave], ?_, ?_, ?_, ?_⟩
  · rw [hsame] at hleftover
    rw [hkeeps]
    exact hleftover
  · rw [turn_received, turn_received]
    exact hdata'
  · rw [List.length_drop]
    omega
  · rw [Int.toNat_natCast, hsplit, hdrop, ← hbuff, hkeeps]

/-- Where a loop stays inside, what it keeps and what comes behind it are frames.  The
pieces are as long as it takes to show what is wrong with the first one. -/
theorem wellFramed_of_staysInside (hinside : l.StaysInside data)
    (hrun : (netLoop l).Run (Sends data) s) (hstage : s.stage = .receiving)
    (hshort : s.buff.length < VoteHeader.codec.size) (hdata : s.received ++ rest = data) :
    l.WellFramed (s.buff ++ rest) := by
  induction hleft : rest.length using Nat.strong_induction_on generalizing s rest with
  | _ left ih =>
      by_cases hall : (s.buff ++ rest).length < VoteHeader.codec.size
      · exact .short hall
      by_cases hlarge : (netBuffSize : Int) < (header (s.buff ++ rest)).size.toInt
      · by_cases hfull : netBuffSize ≤ (s.buff ++ rest).length
        · -- the buffer is filled by a frame that does not fit it
          obtain ⟨s', hrun', hstage', hbuff, _⟩ :=
            run_upto hrun hstage hdata (Nat.lt_trans hshort (by decide)) hfull (Nat.le_refl _)
          have hlength : s'.buff.length = netBuffSize := by
            rw [hbuff, List.length_take]
            omega
          have hfits := fits_of_staysInside hinside hrun' hstage' hlength
          rw [hbuff, header_take (by decide)] at hfits
          omega
        · exact .waiting (by omega) (.inr (Nat.not_le.mp hfull))
      by_cases hwait : ((s.buff ++ rest).length : Int) < (header (s.buff ++ rest)).size.toInt
      · exact .waiting hwait (.inl (by omega))
      obtain ⟨hpos, hread, s', rest', hrun', hstage', hshort', hdata', hless, hbehind⟩ :=
        run_frame hinside hrun hstage hshort hdata (by rw [Waits, not_or]; exact ⟨hall, hwait⟩)
          (by omega)
      refine .frame hpos (by omega) (by omega) hread ?_
      rw [hbehind]
      exact ih rest'.length (by omega) hrun' hstage' hshort' hdata' rfl

theorem staysInside_iff (l : NetLoop) (data : Bytes) : l.StaysInside data ↔ l.WellFramed data := by
  constructor
  · intro hinside
    exact wellFramed_of_staysInside hinside (.start rfl) rfl (by decide) rfl
  · exact staysInside_of_wellFramed

end NetLoop

/-- `DealNetPacket` survives no peer, since it does not return when the connection fails.
Otherwise the two stay within what a peer sends, and go on, exactly if it is frames. -/
theorem vote_reading (data : Bytes) :
    ¬ (dealNetPacket.Survives data ∧ dealPingpong.Survives data) ∧
      (dealNetPacket.StaysInside data ↔ dealNetPacket.WellFramed data) ∧
      (dealPingpong.Survives data ↔ dealPingpong.WellFramed data) := by
  have hnever := NetLoop.not_returns_of_again (l := dealNetPacket) rfl data
  have honce := NetLoop.returns_of_once (l := dealPingpong) rfl data
  refine ⟨fun h => hnever h.1.2, NetLoop.staysInside_iff _ data, ?_⟩
  rw [NetLoop.Survives, and_iff_left honce]
  exact NetLoop.staysInside_iff _ data

/-- A connection fails before anything has come. -/
theorem dealNetPacket_never_returns :
    ¬ ∀ data : Bytes, dealNetPacket.Survives data ∧ dealPingpong.Survives data := by
  intro h
  exact NetLoop.not_returns_of_again (l := dealNetPacket) rfl [] (h []).1.2

/-- A frame of size zero is dealt with again and again. -/
example : (dealNetPacket.turn
    { buff := [0, 0, 2, 0] ++ Vote.codec.encode ⟨2, .looking, 1, 2, 7⟩ } 0).stage = .dealing 0 := by
  decide +kernel

end Paxos
