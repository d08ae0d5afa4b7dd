import Zookeeper.ReplicatedLog
import Zookeeper.Paxos.Cluster

/-!
# What the servers have applied and logged

The invariant of the cluster, and what the small changes of a step leave of it.

The frames on a connection lead from what the follower has to what the leader had when it
sent the last one (`DownFrame.run`).  A bill is logged before it is applied, the log of a
server only grows, and the drafts of a leader hold the votes of servers that have logged all
that the leader has.  What is applied is part of one common log, behind which stands a
majority (`Cluster.Inv`).
-/

namespace Paxos

open Majority ReplicatedLog

variable {n : Nat} {σ τ : Type}

/-! ## What frames do -/

namespace DownFrame

/-- What a frame does to the bills that its reader has applied and not yet committed. -/
def act (frame : DownFrame) (x : List Bill × List Bill) : Option (List Bill × List Bill) :=
  match frame with
  | .diff | .newLeader | .updated => some x
  | .trunc _ => none
  | .snap _ _ applied => if x.2 = [] then some (applied, []) else none
  | .propose bill => some (x.1, x.2 ++ [bill])
  | .commit zxId =>
      match x.2 with
      | [] => none
      | bill :: uncommit => if bill.zxId = zxId then some (x.1 ++ [bill], uncommit) else none

/-- What frames do, one after the other. -/
def run (frames : List DownFrame) (x : List Bill × List Bill) : Option (List Bill × List Bill) :=
  frames.foldlM (fun x frame => frame.act x) x

variable {frame : DownFrame} {frames : List DownFrame} {x y : List Bill × List Bill}

theorem run_cons (frame : DownFrame) (frames : List DownFrame) (x : List Bill × List Bill) :
    run (frame :: frames) x = (frame.act x).bind (run frames) :=
  List.foldlM_cons

theorem run_concat (frames : List DownFrame) (frame : DownFrame) (x : List Bill × List Bill) :
    run (frames ++ [frame]) x = (run frames x).bind frame.act := by
  unfold run
  rw [List.foldlM_append]
  cases frames.foldlM (fun x frame => frame.act x) x with
  | none => rfl
  | some y => exact Option.bind_fun_some (frame.act y)

theorem act_commit {zxId : Int64} (h : (commit zxId).act x = some y) :
    ∃ bill uncommit, x.2 = bill :: uncommit ∧ bill.zxId = zxId ∧ y = (x.1 ++ [bill], uncommit) := by
  rw [act] at h
  cases hx : x.2 with
  | nil =>
      rw [hx] at h
      cases h
  | cons bill uncommit =>
      rw [hx] at h
      dsimp only at h
      split at h
      next heq =>
        cases h
        exact ⟨bill, uncommit, rfl, heq, rfl⟩
      next => cases h

theorem act_snap {zxId : Int64} {data : Bytes} {applied : List Bill}
    (h : (snap zxId data applied).act x = some y) : x.2 = [] ∧ y = (applied, []) := by
  unfold act at h
  dsimp only at h
  split at h
  next hx =>
    cases h
    exact ⟨hx, rfl⟩
  next => cases h

/-- Behind the opening, what is applied and what is logged only grows. -/
theorem act_le (hframe : frame.isOpening = false) (h : frame.act x = some y) :
    x.1 <+: y.1 ∧ x.1 ++ x.2 <+: y.1 ++ y.2 := by
  cases frame with
  | diff | trunc | snap => cases hframe
  | newLeader | updated =>
      cases h
      exact ⟨List.prefix_rfl, List.prefix_rfl⟩
  | propose bill =>
      cases h
      refine ⟨List.prefix_rfl, ?_⟩
      rw [← List.append_assoc]
      exact List.prefix_append _ _
  | commit zxId =>
      obtain ⟨bill, uncommit, hx, _, rfl⟩ := act_commit h
      refine ⟨List.prefix_append _ _, ?_⟩
      rw [hx, List.append_assoc, List.singleton_append]

theorem run_le (hframes : ∀ frame ∈ frames, frame.isOpening = false)
    (h : run frames x = some y) : x.1 <+: y.1 ∧ x.1 ++ x.2 <+: y.1 ++ y.2 := by
  induction frames generalizing x with
  | nil =>
      cases h
      exact ⟨List.prefix_rfl, List.prefix_rfl⟩
  | cons frame frames ih =>
      rw [run_cons, Option.bind_eq_some_iff] at h
      obtain ⟨z, hact, hrun⟩ := h
      obtain ⟨happlied, hlog⟩ := act_le (hframes frame (.head _)) hact
      obtain ⟨happlied', hlog'⟩ := ih (fun f hf => hframes f (.tail _ hf)) hrun
      exact ⟨happlied.trans happlied', hlog.trans hlog'⟩

end DownFrame

/-! ## One server -/

namespace Member

variable {m : Machine σ τ} {x x' : Member n σ} {io : ReadIo τ}

/-- Everything a server has logged. -/
def log (x : Member n σ) : List Bill := x.applied ++ x.data.uncommit

/-- The id a sequence of bills ends with. -/
def lastOf (bills : List Bill) : Int64 := (bills.getLast?.map Bill.zxId).getD 0

/-- The ids of the data set are those of the bills it has applied. -/
structure Sound (x : Member n σ) : Prop where
  zxId : x.data.zxId = lastOf x.applied
  minZxId : x.data.minZxId = 0 ∨ x.data.minZxId ∈ x.applied.map Bill.zxId

/-- The next bill can be applied, and a snapshot can be saved behind it. -/
def Applies (m : Machine σ τ) (x : Member n σ) (io : ReadIo τ) : Prop :=
  io.snapSaved = true ∧ ∀ bill ∈ x.data.uncommit.head?,
    (m.applyBill x.data.stateData bill io.transaction).isSome = true ∧
      (m.applyBill x.data.stateData bill).isSome = true

instance (m : Machine σ τ) (x : Member n σ) (io : ReadIo τ) : Decidable (Applies m x io) :=
  inferInstanceAs (Decidable (_ ∧ ∀ bill ∈ x.data.uncommit.head?, _ ∧ _))

/-- The data sets are the same. -/
def Same (x x' : Member n σ) : Prop := x'.data = x.data ∧ x'.applied = x.applied

theorem Same.log (h : x.Same x') : x'.log = x.log := by
  rw [Member.log, Member.log, h.1, h.2]

theorem Same.copy (h : x.Same x') : x'.copy = x.copy := by
  rw [Member.copy, Member.copy, h.1, h.2]

theorem Same.sound (h : x.Same x') (hx : x.Sound) : x'.Sound where
  zxId := by rw [h.1, h.2, hx.zxId]
  minZxId := by
    rw [h.1, h.2]
    exact hx.minZxId

theorem lastOf_concat (bills : List Bill) (bill : Bill) : lastOf (bills ++ [bill]) = bill.zxId := by
  rw [lastOf, List.getLast?_concat]
  rfl

theorem lastOf_mem (bills : List Bill) : lastOf bills = 0 ∨ lastOf bills ∈ bills.map Bill.zxId := by
  rw [lastOf]
  cases hlast : bills.getLast? with
  | none => exact .inl rfl
  | some bill => exact .inr (List.mem_map.mpr ⟨bill, List.mem_of_getLast? hlast, rfl⟩)

section Ascending

variable {l l' common : List Bill} (hascending : common.Pairwise fun a b => a.zxId < b.zxId)
  (hpositive : ∀ bill ∈ common, 0 < bill.zxId)

include hpositive in
theorem lastOf_nonneg : 0 ≤ lastOf common := by
  rcases lastOf_mem common with hzero | hmem
  · rw [hzero]
    exact Int64.le_rfl
  · obtain ⟨bill, hbill, heq⟩ := List.mem_map.mp hmem
    rw [← heq]
    exact Int64.le_of_lt (hpositive bill hbill)

include hascending hpositive

theorem lastOf_lt (h : l <+: common) (hne : l ≠ common) : lastOf l < lastOf common := by
  obtain ⟨t, rfl⟩ := h
  rcases List.eq_nil_or_concat t with rfl | ⟨t, bill, rfl⟩
  · exact absurd (List.append_nil l).symm hne
  · rw [List.concat_eq_append, ← List.append_assoc, lastOf_concat]
    rcases lastOf_mem l with hzero | hmem
    · rw [hzero]
      exact hpositive bill (by simp)
    · obtain ⟨first, hfirst, heq⟩ := List.mem_map.mp hmem
      rw [← heq]
      exact (List.pairwise_append.mp hascending).2.2 first hfirst bill (by simp)

theorem le_lastOf {bill : Bill} (h : bill ∈ common) : bill.zxId ≤ lastOf common := by
  obtain ⟨a, t, rfl⟩ := List.append_of_mem h
  have hprefix : a ++ [bill] <+: a ++ bill :: t := ⟨t, by simp⟩
  rcases eq_or_ne (a ++ [bill]) (a ++ bill :: t) with heq | hne
  · rw [← heq, lastOf_concat]
    exact Int64.le_rfl
  · have hlt := lastOf_lt hascending hpositive hprefix hne
    rw [lastOf_concat] at hlt
    exact Int64.le_of_lt hlt

/-- Of two parts of a log, the one with the greater last id is the longer one. -/
theorem prefix_of_lastOf_le (h : l <+: common) (h' : l' <+: common) (hle : lastOf l ≤ lastOf l') :
    l <+: l' := by
  rcases List.prefix_or_prefix_of_prefix h h' with hprefix | hprefix
  · exact hprefix
  · rcases eq_or_ne l' l with rfl | hne
    · exact List.prefix_rfl
    · have hlt := lastOf_lt (hascending.sublist h.sublist)
        (fun bill hbill => hpositive bill (h.subset hbill)) hprefix hne
      exact absurd hle (Int64.not_le.mpr hlt)

end Ascending

theorem commit_eq {bill : Bill} {uncommit : List Bill} {transaction : Option τ}
    (nextCount : Nat) (huncommit : x.data.uncommit = bill :: uncommit)
    (happly : (m.applyBill x.data.stateData bill transaction).isSome = true) :
    ∃ d, x.commit m bill.zxId transaction true nextCount =
        ({ x with data := d, applied := x.applied ++ [bill] }, none) ∧
      d.uncommit = uncommit ∧ d.zxId = bill.zxId ∧ d.minZxId = x.data.minZxId := by
  obtain ⟨state, hstate⟩ := Option.isSome_iff_exists.mp happly
  have hcommits : x.data.commits m bill.zxId transaction = some bill := by
    simp [DataSet.commits, huncommit, Option.filter, hstate]
  rw [commit]
  rw [hcommits]
  rw [DataSet.commit]
  rw [huncommit]
  dsimp only
  rw [if_neg (not_not_intro rfl), hstate]
  unfold DataSet.saveSnap
  dsimp only
  split
  next => exact ⟨_, rfl, rfl, rfl, rfl⟩
  next => exact ⟨_, rfl, rfl, rfl, rfl⟩

/-- A bill that is applied. -/
theorem Sound.commit {bill : Bill} {d : DataSet σ} (hx : x.Sound) (hz : d.zxId = bill.zxId)
    (hmin : d.minZxId = x.data.minZxId) :
    Sound { x with data := d, applied := x.applied ++ [bill] } where
  zxId := hz.trans (lastOf_concat ..).symm
  minZxId := by
    change d.minZxId = 0 ∨ d.minZxId ∈ (x.applied ++ [bill]).map Bill.zxId
    rw [hmin, List.map_append]
    exact hx.minZxId.imp id (List.mem_append_left _)

/-- Without bills to flush, `Flush` does nothing. -/
theorem flush_nil (h : x.data.uncommit = []) : x.flush m = (x, none) := by
  rw [flush, DataSet.flush]
  rw [h]
  change ({ x with data := x.data, applied := x.applied ++ [] }, none) = _
  rw [List.append_nil]

/-- A reader takes a frame as `DownFrame.act` says, or it ends and has changed nothing. -/
theorem read_eq {reader : ReaderState} {frame : DownFrame} {y : List Bill × List Bill}
    (io : ReadIo τ) (hreader : reader ≠ .closed) (hact : frame.act x.copy = some y)
    (hopening : reader = .opening ↔ frame.isOpening = true)
    (hsave : ∀ bill, reader = .syncing → frame = .propose bill → io.save = true)
    (happlies : ∀ zxId, frame = .commit zxId → x.Applies m io)
    (hsnap : ∀ zxId data applied, frame = .snap zxId data applied → zxId = lastOf applied)
    (hx : x.Sound) :
    ∃ x' reader' up, x.read m io reader frame = (x', reader', up) ∧ x'.Sound ∧
      x'.leading = x.leading ∧ reader' ≠ .opening ∧
      (x'.copy = y ∨ (reader' = .closed ∧ x'.copy = x.copy)) ∧
      ∀ zxId, .ackPropose zxId ∈ up → ∃ bill, frame = .propose bill ∧ bill.zxId = zxId ∧
        x'.copy = y := by
  cases frame with
  | trunc zxId => cases hact
  | diff =>
      cases hact
      cases hopening.mpr rfl
      exact ⟨x, .syncing, [], rfl, hx, rfl, nofun, .inl rfl, nofun⟩
  | snap zxId data applied =>
      obtain ⟨huncommit, rfl⟩ := DownFrame.act_snap hact
      cases hopening.mpr rfl
      have hz := hsnap zxId data applied rfl
      refine ⟨_, if io.files.isSome then .closed else .syncing, [], rfl, ⟨hz, ?_⟩, rfl, ?_,
        .inl ?_, nofun⟩
      · change zxId = 0 ∨ zxId ∈ applied.map Bill.zxId
        rw [hz]
        exact lastOf_mem applied
      · split <;> nofun
      · change (applied, x.data.uncommit) = _
        rw [show x.data.uncommit = [] from huncommit]
  | newLeader =>
      cases hact
      cases reader with
      | opening => cases hopening.mp rfl
      | closed => exact absurd rfl hreader
      | syncing =>
          refine ⟨x, .syncing, [.ack], rfl, hx, rfl, nofun, .inl rfl, fun zxId hz => ?_⟩
          cases List.mem_singleton.mp hz
      | active => exact ⟨x, .active, [], rfl, hx, rfl, nofun, .inl rfl, nofun⟩
  | updated =>
      cases hact
      cases reader with
      | opening => cases hopening.mp rfl
      | closed => exact absurd rfl hreader
      | syncing | active => exact ⟨x, .active, [], rfl, hx, rfl, nofun, .inl rfl, nofun⟩
  | propose bill =>
      cases hact
      cases reader with
      | opening => cases hopening.mp rfl
      | closed => exact absurd rfl hreader
      | syncing =>
          refine ⟨(x.propose bill true).1, .syncing, [], ?_, ⟨hx.zxId, hx.minZxId⟩, rfl, nofun,
            .inl rfl, nofun⟩
          unfold read
          dsimp only
          rw [hsave bill rfl rfl]
      | active =>
          cases hok : io.save with
          | false =>
              refine ⟨x, .closed, [], ?_, hx, rfl, nofun, .inr ⟨rfl, rfl⟩, nofun⟩
              unfold read propose
              rw [hok]
              rfl
          | true =>
              refine ⟨(x.propose bill true).1, .active, [.ackPropose bill.zxId], ?_,
                ⟨hx.zxId, hx.minZxId⟩, rfl, nofun, .inl rfl, fun zxId hz => ?_⟩
              · unfold read propose
                rw [hok]
                rfl
              · cases List.mem_singleton.mp hz
                exact ⟨bill, rfl, rfl, rfl⟩
  | commit zxId =>
      obtain ⟨bill, uncommit, huncommit, rfl, rfl⟩ := DownFrame.act_commit hact
      obtain ⟨hsaved, happly⟩ := happlies bill.zxId rfl
      have hfirst : bill ∈ x.data.uncommit.head? := by
        rw [show x.data.uncommit = bill :: uncommit from huncommit]
        rfl
      obtain ⟨hwith, hwithout⟩ := happly bill hfirst
      cases reader with
      | opening => cases hopening.mp rfl
      | closed => exact absurd rfl hreader
      | syncing =>
          obtain ⟨d, hcommit, hd, hz, hmin⟩ := commit_eq io.nextCount huncommit hwithout
          refine ⟨_, .syncing, [], ?_, hx.commit hz hmin, rfl, nofun, .inl ?_, nofun⟩
          · unfold read
            dsimp only
            rw [hsaved, hcommit]
            rfl
          · exact Prod.ext rfl hd
      | active =>
          obtain ⟨d, hcommit, hd, hz, hmin⟩ := commit_eq io.nextCount huncommit hwith
          refine ⟨_, .active, [], ?_, hx.commit hz hmin, rfl, nofun, .inl ?_, nofun⟩
          · unfold read
            dsimp only
            rw [hsaved, hcommit]
            rfl
          · exact Prod.ext rfl hd

end Member

/-! ## The invariant -/

/-- The copy is sent, and the handler has not ended. -/
def HandlerState.copied : HandlerState → Bool
  | .connected | .closed => false
  | _ => true

theorem HandlerState.copied_of_ne {state : HandlerState} (hconnected : state ≠ .connected)
    (hclosed : state ≠ .closed) : state.copied = true := by
  cases state with
  | connected => exact absurd rfl hconnected
  | closed => exact absurd rfl hclosed
  | synced | forwarding | waiting | processing => rfl

namespace Cluster

open Member

/-- The drafts of a leader have ids of its own, in order, above its last one. -/
structure DraftsSound (zxId : Int64) (lead : Lead n) : Prop where
  given : ∀ d ∈ lead.uncommit, lead.Given d.zxId
  ascending : lead.uncommit.Pairwise fun a b => a.zxId < b.zxId
  above : ∀ d ∈ lead.uncommit, zxId < d.zxId
  next : ∀ k, IsDraftId k → lead.nextId ≤ k → zxId < zxIdOf lead.peerEpoch k

section Parts

variable (members : Fin n → Member n σ)

/-- Server `p` has logged what leader `i` had logged when it sent the bill of an id. -/
def Acked (i p : Fin n) (zxId : Int64) : Prop :=
  ∃ l, l <+: (members i).log ∧ l <+: (members p).log ∧ l.getLast?.map Bill.zxId = some zxId

/-- The first draft of a leader is the uncommitted bill of its data set.  Whoever voted for it
has asked for it or has logged it. -/
structure QueueSound (i : Fin n) (lead : Lead n) : Prop where
  drafts : DraftsSound (members i).data.zxId lead
  first : (members i).data.uncommit =
    (lead.uncommit.head?.map fun d => (⟨d.zxId, d.data⟩ : Bill)).toList
  votes : ∀ d ∈ lead.uncommit.head?, ∀ p ∈ d.vote,
    p = d.id ∨ (p ≠ i ∧ (members i).log <+: (members p).log)
  tail : ∀ d ∈ lead.uncommit.tail, d.vote = {d.id}

/-- A follower that reads: the frames on their way lead to what was sent. -/
structure ReaderSound (k : Nat) (c : Connection n) : Prop where
  following : (members c.id).following = some k
  run : DownFrame.run c.down (members c.id).copy = some c.sent
  connected : c.handler = .connected → c.down = [] ∧ c.reader = .opening
  lastZxId : c.reader = .opening → c.lastZxId = (members c.id).data.zxId
  opening : c.reader = .opening → c.handler.copied = true → c.down ≠ []
  /-- Only the first frame is an opening, and it has not been read. -/
  frames : ∀ frame ∈ c.down.tail, frame.isOpening = false
  head : ∀ frame ∈ c.down.head?, c.reader = .opening ↔ frame.isOpening = true
  snap : ∀ zxId data applied, .snap zxId data applied ∈ c.down →
    zxId = lastOf applied ∧ (members c.id).applied <+: applied

/-- A handler that has not ended. -/
structure HandlerSound (c : Connection n) : Prop where
  leading : (members c.lead).leading.isSome = true
  distinct : c.id ≠ c.lead
  sent : c.handler.copied = true → c.sent.1 ++ c.sent.2 <+: (members c.lead).log
  acks : ∀ zxId, .ackPropose zxId ∈ c.up → Acked members c.lead c.id zxId

end Parts

section

variable (s : Cluster n σ)

/-- The forwarding table: its connections lead to what the leader has. -/
def TableSound (i : Fin n) (forwarding : Fin n → Option Nat) : Prop :=
  ∀ p k, forwarding p = some k → ∃ c, s.connections k = some c ∧ c.lead = i ∧ c.id = p ∧
    c.handler.copied = true ∧ c.sent = (s.members i).copy

/-- The servers have applied parts of `common`, and a majority has logged all of it. -/
structure Inv (common : List Bill) : Prop where
  agreed : Agreed (fun i => (s.members i).applied) (fun i => (s.members i).log) common
  ascending : common.Pairwise fun a b => a.zxId < b.zxId
  positive : ∀ bill ∈ common, 0 < bill.zxId
  sound : ∀ i, (s.members i).Sound
  fresh : ∀ k, s.count ≤ k → s.connections k = none
  sent : ∀ k c, s.connections k = some c → c.sent.1 <+: common
  queues : ∀ i l, (s.members i).leading = some l → QueueSound s.members i l.lead
  tables : ∀ i l, (s.members i).leading = some l → s.TableSound i l.forwarding
  readers : ∀ k c, s.connections k = some c → c.reader ≠ .closed → ReaderSound s.members k c
  handlers : ∀ k c, s.connections k = some c → c.handler ≠ .closed → HandlerSound s.members c
  following : ∀ p k, (s.members p).following = some k → (s.members p).leading = none ∧
    ∃ c, s.connections k = some c ∧ c.id = p

end

/-! ## Servers that change -/

section Members

variable {members members' : Fin n → Member n σ} {i p : Fin n} {x : Member n σ}

/-- No log loses a bill. -/
def Grows (members members' : Fin n → Member n σ) : Prop :=
  ∀ i, (members i).log <+: (members' i).log

theorem grows_update (h : (members i).log <+: x.log) :
    Grows members (Function.update members i x) := by
  intro j
  rcases eq_or_ne j i with rfl | hne
  · rw [Function.update_self]
    exact h
  · rw [Function.update_of_ne hne]

theorem Acked.grow (h : Grows members members') {zxId : Int64} (ha : Acked members i p zxId) :
    Acked members' i p zxId := by
  obtain ⟨l, hi, hp, hlast⟩ := ha
  exact ⟨l, hi.trans (h i), hp.trans (h p), hlast⟩

theorem QueueSound.grow (h : Grows members members') (hi : (members i).Same (members' i))
    {lead : Lead n} (hq : QueueSound members i lead) : QueueSound members' i lead where
  drafts := by
    rw [hi.1]
    exact hq.drafts
  first := (congrArg DataSet.uncommit hi.1).trans hq.first
  votes d hd p hp := by
    rw [hi.log]
    exact (hq.votes d hd p hp).imp id fun ⟨hne, hle⟩ => ⟨hne, hle.trans (h p)⟩
  tail := hq.tail

theorem QueueSound.of_nil {lead : Lead n} (hdrafts : DraftsSound (members i).data.zxId lead)
    (hq : lead.uncommit = []) (huncommit : (members i).data.uncommit = []) :
    QueueSound members i lead := by
  refine ⟨hdrafts, ?_, fun d hd => ?_, fun d hd => ?_⟩
  · rw [huncommit, hq]
    rfl
  · rw [hq] at hd
    cases hd
  · rw [hq] at hd
    cases hd

theorem ReaderSound.same {k : Nat} {c : Connection n} (hi : (members c.id).Same (members' c.id))
    (hfollowing : (members' c.id).following = some k) (hc : ReaderSound members k c) :
    ReaderSound members' k c where
  following := hfollowing
  run := by
    rw [hi.copy]
    exact hc.run
  connected := hc.connected
  lastZxId := by
    rw [hi.1]
    exact hc.lastZxId
  opening := hc.opening
  frames := hc.frames
  head := hc.head
  snap := by
    rw [hi.2]
    exact hc.snap

theorem HandlerSound.grow (h : Grows members members') {c : Connection n}
    (hleading : (members' c.lead).leading.isSome = true) (hc : HandlerSound members c) :
    HandlerSound members' c where
  leading := hleading
  distinct := hc.distinct
  sent hcopied := (hc.sent hcopied).trans (h c.lead)
  acks zxId hz := (hc.acks zxId hz).grow h

end Members

variable {s : Cluster n σ} {common : List Bill}

/-- A server changes. -/
theorem Inv.setMember (h : s.Inv common) {i : Fin n} {x : Member n σ}
    (hlog : (s.members i).log <+: x.log) (happlied : x.applied <+: common) (hx : x.Sound)
    (hqueue : ∀ l, x.leading = some l → QueueSound (s.setMember i x).members i l.lead)
    (htable : ∀ l, x.leading = some l → (s.setMember i x).TableSound i l.forwarding)
    (hreader : ∀ k c, s.connections k = some c → c.reader ≠ .closed → c.id = i →
      ReaderSound (s.setMember i x).members k c)
    (hhandler : x.leading = none → ∀ k c, s.connections k = some c → c.lead = i →
      c.handler = .closed)
    (hfollowing : ∀ k, x.following = some k → x.leading = none ∧
      ∃ c, s.connections k = some c ∧ c.id = i) : (s.setMember i x).Inv common := by
  have hself : (s.setMember i x).members i = x := Function.update_self ..
  have hother : ∀ j, j ≠ i → (s.setMember i x).members j = s.members j :=
    fun j hne => Function.update_of_ne hne ..
  have hgrows : Grows s.members (s.setMember i x).members := grows_update hlog
  have hsame : ∀ j, j ≠ i → (s.members j).Same ((s.setMember i x).members j) := by
    intro j hne
    rw [hother j hne]
    exact ⟨rfl, rfl⟩
  refine { h with
    agreed := ?_, sound := ?_, queues := ?_, tables := ?_, readers := ?_, handlers := ?_
    following := ?_ }
  · refine h.agreed.mono hgrows fun j => ?_
    rcases eq_or_ne j i with rfl | hne
    · rw [hself]
      exact happlied
    · rw [hother j hne]
      exact h.agreed.applied_le j
  · intro j
    rcases eq_or_ne j i with rfl | hne
    · rw [hself]
      exact hx
    · rw [hother j hne]
      exact h.sound j
  · intro j l hl
    rcases eq_or_ne j i with rfl | hne
    · rw [hself] at hl
      exact hqueue l hl
    · rw [hother j hne] at hl
      exact (h.queues j l hl).grow hgrows (hsame j hne)
  · intro j l hl
    rcases eq_or_ne j i with rfl | hne
    · rw [hself] at hl
      exact htable l hl
    · intro p k hp
      rw [hother j hne] at hl ⊢
      exact h.tables j l hl p k hp
  · intro k c hc hopen
    rcases eq_or_ne c.id i with hid | hne
    · exact hreader k c hc hopen hid
    · refine (h.readers k c hc hopen).same (hsame _ hne) ?_
      rw [hother _ hne]
      exact (h.readers k c hc hopen).following
  · intro k c hc hopen
    refine (h.handlers k c hc hopen).grow hgrows ?_
    rcases eq_or_ne c.lead i with hlead | hne
    · rw [hlead, hself, Option.isSome_iff_ne_none]
      exact fun hnone => hopen (hhandler hnone k c hc hlead)
    · rw [hother _ hne]
      exact (h.handlers k c hc hopen).leading
  · intro p k hp
    rcases eq_or_ne p i with rfl | hne
    · rw [hself] at hp ⊢
      exact hfollowing k hp
    · rw [hother p hne] at hp ⊢
      exact h.following p k hp

theorem setMember_self (i : Fin n) (x : Member n σ) : (s.setMember i x).members i = x :=
  Function.update_self ..

/-- A server takes or leaves a role. -/
theorem Inv.setRole (h : s.Inv common) {i : Fin n} {x : Member n σ} (hx : (s.members i).Same x)
    (hqueue : ∀ l, x.leading = some l → QueueSound s.members i l.lead)
    (htable : ∀ l, x.leading = some l → s.TableSound i l.forwarding)
    (hreader : ∀ k c, s.connections k = some c → c.reader ≠ .closed → c.id = i →
      x.following = some k)
    (hhandler : x.leading = none → ∀ k c, s.connections k = some c → c.lead = i →
      c.handler = .closed)
    (hfollowing : ∀ k, x.following = some k → x.leading = none ∧
      ∃ c, s.connections k = some c ∧ c.id = i) : (s.setMember i x).Inv common := by
  have hlog : (s.members i).log <+: x.log := by rw [hx.log]
  have hsame : (s.members i).Same ((s.setMember i x).members i) := by
    rw [setMember_self]
    exact hx
  refine h.setMember hlog ?_ (hx.sound (h.sound i)) ?_ ?_ ?_ hhandler hfollowing
  · rw [hx.2]
    exact h.agreed.applied_le i
  · exact fun l hl => (hqueue l hl).grow (grows_update hlog) hsame
  · intro l hl p k hp
    rw [hsame.copy]
    exact htable l hl p k hp
  · rintro k c hc hopen rfl
    refine (h.readers k c hc hopen).same hsame ?_
    rw [setMember_self]
    exact hreader k c hc hopen rfl

/-- A server begins to lead, or what it keeps as a leader changes. -/
theorem Inv.setLeading (h : s.Inv common) {i : Fin n} (hidle : (s.members i).following = none)
    (l : Leadership n) (hqueue : QueueSound s.members i l.lead)
    (htable : s.TableSound i l.forwarding) : (s.setLeading i (some l)).Inv common := by
  refine h.setRole ⟨rfl, rfl⟩ ?_ ?_ ?_ ?_ ?_
  · intro l' hl'
    cases hl'
    exact hqueue
  · intro l' hl'
    cases hl'
    exact htable
  · rintro k c hc hopen rfl
    exact (h.readers k c hc hopen).following
  · intro hnone
    cases hnone
  · intro k hk
    cases hidle.symm.trans hk

/-- A leader steps down. -/
theorem Inv.stepDown (h : s.Inv common) {i : Fin n}
    (hended : ∀ k c, s.connections k = some c → c.lead = i → c.handler = .closed) :
    (s.setLeading i none).Inv common := by
  refine h.setRole ⟨rfl, rfl⟩ ?_ ?_ ?_ (fun _ => hended) ?_
  · intro l hl
    cases hl
  · intro l hl
    cases hl
  · rintro k c hc hopen rfl
    exact (h.readers k c hc hopen).following
  · intro k hk
    exact ⟨rfl, (h.following i k hk).2⟩

/-- A leader does not follow. -/
theorem Inv.idle (h : s.Inv common) {i : Fin n} {l : Leadership n}
    (hl : (s.members i).leading = some l) : (s.members i).following = none := by
  cases hfollowing : (s.members i).following with
  | none => rfl
  | some k => cases hl.symm.trans (h.following i k hfollowing).1

/-- The handlers of a server that does not lead have ended. -/
theorem Inv.ended (h : s.Inv common) {k : Nat} {c : Connection n} (hc : s.connections k = some c)
    (hleading : (s.members c.lead).leading = none) : c.handler = .closed := by
  by_contra hopen
  have hsome := (h.handlers k c hc hopen).leading
  rw [hleading] at hsome
  cases hsome

/-- A leader keeps its drafts, and gives up some of its table. -/
theorem Inv.keepDrafts (h : s.Inv common) {i : Fin n} {l : Leadership n}
    (hl : (s.members i).leading = some l) (l' : Leadership n) (hlead : l'.lead = l.lead)
    (hforwarding : ∀ p k, l'.forwarding p = some k → l.forwarding p = some k) :
    (s.setLeading i (some l')).Inv common := by
  refine h.setLeading (h.idle hl) l' ?_ fun p k hk => ?_
  · rw [hlead]
    exact h.queues i l hl
  · exact h.tables i l hl p k (hforwarding p k hk)

/-! ## Connections that change -/

/-- Connections change, each on its own. -/
theorem Inv.map (h : s.Inv common) (f : Nat → Connection n → Connection n)
    (hends : ∀ k c, s.connections k = some c → (f k c).lead = c.lead ∧ (f k c).id = c.id)
    (hsent : ∀ k c, s.connections k = some c → (f k c).sent.1 <+: common)
    (hreader : ∀ k c, s.connections k = some c → (f k c).reader ≠ .closed →
      ReaderSound s.members k (f k c))
    (hhandler : ∀ k c, s.connections k = some c → (f k c).handler ≠ .closed →
      HandlerSound s.members (f k c))
    (htable : ∀ l k c, s.connections k = some c → (s.members c.lead).leading = some l →
      l.forwarding c.id = some k →
      (f k c).handler.copied = true ∧ (f k c).sent = (s.members c.lead).copy) :
    { s with connections := fun k => (s.connections k).map (f k) }.Inv common := by
  refine { h with
    fresh := ?_, sent := ?_, tables := ?_, readers := ?_, handlers := ?_, following := ?_ }
  · intro k hk
    change (s.connections k).map (f k) = none
    rw [h.fresh k hk]
    rfl
  · intro k c' hc'
    obtain ⟨c, hc, rfl⟩ := Option.map_eq_some_iff.mp hc'
    exact hsent k c hc
  · intro i l hl p k hp
    obtain ⟨c, hc, rfl, rfl, -, -⟩ := h.tables i l hl p k hp
    obtain ⟨hcopied, hcopy⟩ := htable l k c hc hl hp
    obtain ⟨hlead, hid⟩ := hends k c hc
    exact ⟨f k c, Option.map_eq_some_iff.mpr ⟨c, hc, rfl⟩, hlead, hid, hcopied, hcopy⟩
  · intro k c' hc'
    obtain ⟨c, hc, rfl⟩ := Option.map_eq_some_iff.mp hc'
    exact hreader k c hc
  · intro k c' hc'
    obtain ⟨c, hc, rfl⟩ := Option.map_eq_some_iff.mp hc'
    exact hhandler k c hc
  · intro p k hp
    obtain ⟨hleading, c, hc, rfl⟩ := h.following p k hp
    exact ⟨hleading, f k c, Option.map_eq_some_iff.mpr ⟨c, hc, rfl⟩, (hends k c hc).2⟩

theorem setConnection_self (s : Cluster n σ) (k : Nat) (c : Connection n) :
    (s.setConnection k c).connections k = some c := Function.update_self ..

/-- A connection changes. -/
theorem Inv.setConnection (h : s.Inv common) {k : Nat} {c : Connection n}
    (hc : s.connections k = some c) (c' : Connection n) (hlead : c'.lead = c.lead)
    (hid : c'.id = c.id) (hsent : c'.sent.1 <+: common)
    (hreader : c'.reader ≠ .closed → ReaderSound s.members k c')
    (hhandler : c'.handler ≠ .closed → HandlerSound s.members c')
    (htable : ∀ l, (s.members c.lead).leading = some l → l.forwarding c.id = some k →
      c'.handler.copied = true ∧ c'.sent = (s.members c.lead).copy) :
    (s.setConnection k c').Inv common := by
  have heq : s.setConnection k c' =
      { s with
        connections := fun k' => (s.connections k').map fun c => if k' = k then c' else c } := by
    rw [Cluster.setConnection]
    congr 1
    funext k'
    rcases eq_or_ne k' k with rfl | hne
    · rw [Function.update_self, hc, Option.map_some, if_pos rfl]
    · rw [Function.update_of_ne hne]
      simp only [if_neg hne, Option.map_id']
  rw [heq]
  refine h.map (fun k' c => if k' = k then c' else c) ?_ ?_ ?_ ?_ ?_
  · intro k' c'' hc''
    rcases eq_or_ne k' k with rfl | hne
    · cases hc.symm.trans hc''
      rw [if_pos rfl]
      exact ⟨hlead, hid⟩
    · rw [if_neg hne]
      exact ⟨rfl, rfl⟩
  · intro k' c'' hc''
    rcases eq_or_ne k' k with rfl | hne
    · rw [if_pos rfl]
      exact hsent
    · rw [if_neg hne]
      exact h.sent k' c'' hc''
  · intro k' c'' hc''
    rcases eq_or_ne k' k with rfl | hne
    · rw [if_pos rfl]
      exact hreader
    · rw [if_neg hne]
      exact h.readers k' c'' hc''
  · intro k' c'' hc''
    rcases eq_or_ne k' k with rfl | hne
    · rw [if_pos rfl]
      exact hhandler
    · rw [if_neg hne]
      exact h.handlers k' c'' hc''
  · intro l k' c'' hc'' hl hp
    rcases eq_or_ne k' k with rfl | hne
    · cases hc.symm.trans hc''
      rw [if_pos rfl]
      exact htable l hl hp
    · rw [if_neg hne]
      obtain ⟨c₀, hc₀, -, -, hcopied, hcopy⟩ := h.tables c''.lead l hl c''.id k' hp
      cases hc''.symm.trans hc₀
      exact ⟨hcopied, hcopy⟩

/-- A connection that has ended on both sides. -/
theorem Inv.add (h : s.Inv common) {c : Connection n} (hreader : c.reader = .closed)
    (hhandler : c.handler = .closed) (hsent : c.sent.1 <+: common) :
    { s.setConnection s.count c with count := s.count + 1 }.Inv common := by
  have hnone : s.connections s.count = none := h.fresh s.count le_rfl
  have hother : ∀ k, k ≠ s.count → (s.setConnection s.count c).connections k = s.connections k :=
    fun k hne => Function.update_of_ne hne ..
  have hold : ∀ {k c'}, s.connections k = some c' →
      (s.setConnection s.count c).connections k = some c' := by
    intro k c' hc'
    rw [hother k]
    · exact hc'
    · rintro rfl
      cases hnone.symm.trans hc'
  have hcases : ∀ {k c'}, (s.setConnection s.count c).connections k = some c' →
      c' = c ∨ s.connections k = some c' := by
    intro k c' hc'
    rcases eq_or_ne k s.count with rfl | hne
    · exact .inl (Option.some.inj ((setConnection_self s s.count c).symm.trans hc')).symm
    · exact .inr ((hother k hne).symm.trans hc')
  refine { h with
    fresh := ?_, sent := ?_, tables := ?_, readers := ?_, handlers := ?_, following := ?_ }
  · intro k hk
    exact (hother k (Nat.ne_of_gt hk)).trans (h.fresh k (Nat.le_of_succ_le hk))
  · intro k c' hc'
    rcases hcases hc' with rfl | hc'
    · exact hsent
    · exact h.sent k c' hc'
  · intro i l hl p k hp
    obtain ⟨c', hc', hc''⟩ := h.tables i l hl p k hp
    exact ⟨c', hold hc', hc''⟩
  · intro k c' hc' hopen
    rcases hcases hc' with rfl | hc'
    · exact absurd hreader hopen
    · exact h.readers k c' hc' hopen
  · intro k c' hc' hopen
    rcases hcases hc' with rfl | hc'
    · exact absurd hhandler hopen
    · exact h.handlers k c' hc' hopen
  · intro p k hp
    obtain ⟨hleading, c', hc', hid⟩ := h.following p k hp
    exact ⟨hleading, c', hold hc', hid⟩

end Cluster

end Paxos
