import Zookeeper.Majority
import Zookeeper.Transition
import Zookeeper.Paxos.Lead

/-!
# Commits need a majority

The calls one leader gets in a term: proposals from any server, and
acknowledgements from the followers.  A follower acknowledges a draft in the
queue only after it has saved it, and saves only what the leader has launched.
Acknowledgements of drafts that are gone, or not there yet, are allowed.

The vote of a draft does not say who has saved it: the server that asked for the
draft votes at once, and the leader, which has saved every draft it launched,
does not vote for those of others.  `Votes` says what a vote does mean.  From it
`commit_needs_majority` counts the servers that have saved a committed draft, by
exchanging the asking server for the leader.
-/

namespace Paxos

open Majority

variable {n : Nat}

/-- A leader, the drafts each server has saved, and the ids committed so far. -/
structure Term (n : Nat) where
  lead : Lead n
  log : Fin n → List Int64 := fun _ => []
  committed : List Int64 := []

/-- The calls of a term, `save` being the results of `DataSet::Propose` on the
leader. -/
inductive TermAct (n : Nat) where
  | propose (id : Fin n) (requestId : Int64) (data : Bytes) (save : Int64 → Bool)
  /-- `DataSet::Propose` returns true on a follower. -/
  | save (id : Fin n) (zxId : Int64)
  | ack (id : Fin n) (zxId : Int64) (save : Int64 → Bool)

namespace Term

/-- The logs after a launch, which saves at most one draft on the leader. -/
def saveLaunch (s : Term n) (launch : Option (Launch n)) (i : Fin n) : List Int64 :=
  if i = s.lead.id then s.log i ++ ((launch.bind Launch.saved).map Draft.zxId).toList
  else s.log i

def next (s : Term n) : TermAct n → Term n
  | .propose id requestId data save =>
      let (lead, launch) := s.lead.propose id requestId data save
      { s with lead := lead, log := s.saveLaunch launch }
  | .save id zxId => { s with log := Function.update s.log id (s.log id ++ [zxId]) }
  | .ack id zxId save =>
      let (lead, draft, launch) := s.lead.ackPropose id zxId save
      { lead := lead
        log := s.saveLaunch launch
        committed := s.committed ++ (draft.map Draft.zxId).toList }

/-- A leader at the start of its term. -/
def Fresh (s : Term n) : Prop :=
  ∃ id epoch, s = { lead := { id := id, peerEpoch := epoch } }

/-- Less than `2 ^ 32` drafts, no acknowledgement by the leader itself, and none
of a queued draft that is not saved. -/
def Allowed (s : Term n) : TermAct n → Prop
  | .propose _ _ _ _ => s.lead.nextId < 0x100000000
  | .save id zxId => id ≠ s.lead.id ∧ zxId ∈ s.log s.lead.id
  | .ack id zxId _ =>
      id ≠ s.lead.id ∧ (zxId ∈ s.lead.uncommit.map Draft.zxId → zxId ∈ s.log id)

instance (s : Term n) : ∀ a, Decidable (s.Allowed a)
  | .propose _ _ _ _ => inferInstanceAs (Decidable (_ < _))
  | .save _ _ => inferInstanceAs (Decidable (_ ∧ _))
  | .ack _ _ _ => inferInstanceAs (Decidable (_ ∧ (_ → _)))

/-- The servers that have saved a draft. -/
def savers (s : Term n) (zxId : Int64) : Finset (Fin n) :=
  Finset.univ.filter fun i => zxId ∈ s.log i

end Term

/-- The runs of a term. -/
def term (n : Nat) : Transition.System (Term n) (TermAct n) :=
  Transition.ofStep Term.Fresh fun s a => some (s.next a)

/-! ## The invariant -/

/-- What a vote for a draft means. -/
def Draft.Votes (d : Draft n) (leader : Fin n) (log : Fin n → List Int64) : Prop :=
  ∀ i ∈ d.vote, i = d.id ∨ (i ≠ leader ∧ d.zxId ∈ log i)

structure Term.Inv (s : Term n) : Prop where
  positive : 0 < s.lead.nextId.toInt
  bounded : s.lead.nextId.toInt ≤ 2 ^ 32
  sorted : s.lead.uncommit.Pairwise fun a b => a.zxId < b.zxId
  queued : ∀ d ∈ s.lead.uncommit, s.lead.Given d.zxId
  done : ∀ z ∈ s.committed, s.lead.Given z
  ahead : ∀ z ∈ s.committed, ∀ d ∈ s.lead.uncommit, z < d.zxId
  votes : ∀ d ∈ s.lead.uncommit, d.Votes s.lead.id s.log
  saved : ∀ i z, z ∈ s.log i → z ∈ s.log s.lead.id

/-! ## One call -/

namespace Term.Inv

variable {s : Term n}

theorem of_fresh (h : s.Fresh) : s.Inv := by
  obtain ⟨id, epoch, rfl⟩ := h
  have hone : (1 : Int64).toInt = 1 := rfl
  exact ⟨by simp [hone], by simp [hone], .nil, by simp, by simp, by simp, by simp, by simp⟩

/-- Drafts may be dropped from the queue, and the leader may save more. -/
theorem shrink (h : s.Inv) {ds : List (Draft n)} {log : Fin n → List Int64}
    (hds : ds.Sublist s.lead.uncommit) (hlog : ∀ i z, z ∈ s.log i → z ∈ log i)
    (hleader : ∀ i, i ≠ s.lead.id → ∀ z, z ∈ log i → z ∈ s.log i) :
    Inv { s with lead := { s.lead with uncommit := ds }, log := log } where
  positive := h.positive
  bounded := h.bounded
  sorted := h.sorted.sublist hds
  queued d hd := h.queued d (hds.subset hd)
  done := h.done
  ahead z hz d hd := h.ahead z hz d (hds.subset hd)
  votes d hd i hi := (h.votes d (hds.subset hd) i hi).imp id fun hi => ⟨hi.1, hlog i _ hi.2⟩
  saved i z hz := by
    by_cases hi : i = s.lead.id
    · exact hi ▸ hz
    · exact hlog _ _ (h.saved i z (hleader i hi z hz))

theorem saveLaunch_mono (s : Term n) (launch : Option (Launch n)) (i : Fin n) (z : Int64)
    (hz : z ∈ s.log i) : z ∈ s.saveLaunch launch i := by
  rw [Term.saveLaunch]
  split
  · exact List.mem_append_left _ hz
  · exact hz

theorem saveLaunch_other (s : Term n) (launch : Option (Launch n)) (i : Fin n)
    (hi : i ≠ s.lead.id) (z : Int64) (hz : z ∈ s.saveLaunch launch i) : z ∈ s.log i := by
  rw [Term.saveLaunch] at hz
  rwa [if_neg hi] at hz

/-- A new draft goes to the end of the queue, with the vote of the asking server. -/
theorem enqueue (h : s.Inv) (hn : s.lead.nextId < 0x100000000) (id : Fin n) (requestId : Int64)
    (data : Bytes) : Inv { s with lead := s.lead.enqueue id requestId data } := by
  have hlt : s.lead.nextId.toInt < 2 ^ 32 := Int64.lt_iff_toInt_lt.mp hn
  have hnext : IsDraftId s.lead.nextId := ⟨Int.le_of_lt h.positive, hlt⟩
  have hsucc := hnext.toInt_add_one
  have hgrow : s.lead.nextId < s.lead.nextId + 1 := by
    rw [Int64.lt_iff_toInt_lt, hsucc]
    omega
  have hgiven : ∀ z, s.lead.Given z → (s.lead.enqueue id requestId data).Given z := by
    rintro z ⟨k, hk, hkn, rfl⟩
    exact ⟨k, hk, Std.lt_trans hkn hgrow, rfl⟩
  have hqueue : (s.lead.enqueue id requestId data).uncommit = s.lead.uncommit ++
      [{ id, requestId, zxId := zxIdOf s.lead.peerEpoch s.lead.nextId, data, vote := {id} }] :=
    insertDraft_last fun x hx => (h.queued x hx).lt hnext
  refine ⟨?_, ?_, ?_, ?_, fun z hz => hgiven z (h.done z hz), ?_, ?_, h.saved⟩
  · change 0 < (s.lead.nextId + 1).toInt
    have := h.positive
    omega
  · change (s.lead.nextId + 1).toInt ≤ 2 ^ 32
    omega
  · rw [hqueue, List.pairwise_append]
    refine ⟨h.sorted, List.pairwise_singleton _ _, fun x hx y hy => ?_⟩
    rw [List.mem_singleton] at hy
    exact hy ▸ (h.queued x hx).lt hnext
  · intro d hd
    rw [hqueue, List.mem_append, List.mem_singleton] at hd
    rcases hd with hd | rfl
    · exact hgiven _ (h.queued d hd)
    · exact ⟨s.lead.nextId, hnext, hgrow, rfl⟩
  · intro z hz d hd
    rw [hqueue, List.mem_append, List.mem_singleton] at hd
    rcases hd with hd | rfl
    · exact h.ahead z hz d hd
    · exact (h.done z hz).lt hnext
  · intro d hd i hi
    rw [hqueue, List.mem_append, List.mem_singleton] at hd
    rcases hd with hd | rfl
    · exact h.votes d hd i hi
    · exact .inl (Finset.mem_singleton.mp hi)

theorem propose (h : s.Inv) {id : Fin n} {requestId : Int64} {data : Bytes} {save : Int64 → Bool}
    (ha : s.Allowed (.propose id requestId data save)) :
    (s.next (.propose id requestId data save)).Inv := by
  have henq := h.enqueue ha id requestId data
  obtain ⟨ds, hds, hlead⟩ := s.lead.propose_eq id requestId data save
  have hshrink := henq.shrink hds.sublist
    (saveLaunch_mono s (s.lead.propose id requestId data save).2)
    (saveLaunch_other s (s.lead.propose id requestId data save).2)
  simp only [Term.next, hlead]
  exact hshrink

/-- A follower saves what the leader has launched. -/
theorem save (h : s.Inv) {id : Fin n} {zxId : Int64} (ha : s.Allowed (.save id zxId)) :
    (s.next (.save id zxId)).Inv := by
  obtain ⟨hne, hz⟩ := ha
  have hmem : ∀ i z, z ∈ Function.update s.log id (s.log id ++ [zxId]) i ↔
      z ∈ s.log i ∨ (i = id ∧ z = zxId) := by
    intro i z
    by_cases hi : i = id
    · subst hi
      simp
    · simp [hi]
  refine ⟨h.positive, h.bounded, h.sorted, h.queued, h.done, h.ahead, ?_, ?_⟩
  · intro d hd i hi
    rcases h.votes d hd i hi with hi | hi
    · exact .inl hi
    · exact .inr ⟨hi.1, (hmem _ _).mpr (.inl hi.2)⟩
  · intro i z hi
    refine (hmem _ _).mpr (.inl ?_)
    rcases (hmem i z).mp hi with hi | ⟨_, rfl⟩
    · exact h.saved i z hi
    · exact hz

/-- A follower votes for the first draft. -/
theorem vote (h : s.Inv) {id : Fin n} {zxId : Int64} {save : Int64 → Bool}
    (ha : s.Allowed (.ack id zxId save)) : Inv { s with lead := (s.lead.vote id zxId).1 } := by
  rcases s.lead.vote_cases id zxId with heq | ⟨d, ds, hq, hz, heq⟩
  · rw [heq]
    exact h
  rw [heq]
  have hd : d ∈ s.lead.uncommit := by
    rw [hq]
    exact .head _
  have hsub : ∀ x ∈ ds, x ∈ s.lead.uncommit := by
    intro x hx
    rw [hq]
    exact .tail _ hx
  have hsorted := h.sorted
  rw [hq, List.pairwise_cons] at hsorted
  refine ⟨h.positive, h.bounded, List.pairwise_cons.mpr hsorted, ?_, h.done, ?_, ?_, h.saved⟩
  · intro x hx
    rcases List.mem_cons.mp hx with rfl | hx
    · exact h.queued d hd
    · exact h.queued x (hsub x hx)
  · intro z hzc x hx
    rcases List.mem_cons.mp hx with rfl | hx
    · exact h.ahead z hzc d hd
    · exact h.ahead z hzc x (hsub x hx)
  · intro x hx i hi
    rcases List.mem_cons.mp hx with rfl | hx
    · rcases Finset.mem_insert.mp hi with rfl | hi
      · refine .inr ⟨ha.1, ?_⟩
        rw [hz]
        exact ha.2 (List.mem_map.mpr ⟨d, hd, hz⟩)
      · exact h.votes d hd i hi
    · exact h.votes x (hsub x hx) i hi

/-- The first draft is committed. -/
theorem commit (h : s.Inv) {d : Draft n} {ds : List (Draft n)} (hq : s.lead.uncommit = d :: ds) :
    Inv { s with
      lead := { s.lead with uncommit := s.lead.uncommit.filter fun x => x.zxId ≠ d.zxId }
      committed := s.committed ++ [d.zxId] } := by
  have hshrink := h.shrink (List.filter_sublist (p := fun x : Draft n => x.zxId ≠ d.zxId))
    (fun _ _ hz => hz) (fun _ _ _ hz => hz)
  refine { hshrink with done := ?_, ahead := ?_ }
  · intro z hz
    rcases List.mem_append.mp hz with hz | hz
    · exact h.done z hz
    · rw [List.mem_singleton] at hz
      exact hz ▸ h.queued d (by rw [hq]; exact .head _)
  · intro z hz x hx
    obtain ⟨hx, hne⟩ := List.mem_filter.mp hx
    rcases List.mem_append.mp hz with hz | hz
    · exact h.ahead z hz x hx
    · have hsorted := h.sorted
      rw [hq, List.pairwise_cons] at hsorted
      rw [List.mem_singleton] at hz
      rw [hq] at hx
      rcases List.mem_cons.mp hx with rfl | hx
      · simp at hne
      · exact hz ▸ hsorted.1 x hx

theorem ack (h : s.Inv) {id : Fin n} {zxId : Int64} {save : Int64 → Bool}
    (ha : s.Allowed (.ack id zxId save)) : (s.next (.ack id zxId save)).Inv := by
  have hvote := h.vote ha
  rcases s.lead.ackPropose_cases id zxId save with heq | ⟨d, launch, hd, heq⟩
  · have hshrink := hvote.shrink (List.Sublist.refl _) (saveLaunch_mono s none)
      (fun i hi => saveLaunch_other s none i (by simpa using hi))
    simpa only [Term.next, heq, Option.map_none, Option.toList_none, List.append_nil] using hshrink
  · obtain ⟨rfl, _, ds, hq⟩ := Lead.vote_some hd
    have hcommit := hvote.commit (congrArg Lead.uncommit hq)
    obtain ⟨rest, hrest, hafter⟩ := Lead.afterCommit_eq (s.lead.vote id d.zxId).1 d.zxId save
    have hshrink := hcommit.shrink hrest.sublist (saveLaunch_mono s launch) fun i hi =>
      saveLaunch_other s launch i (by simpa using hi)
    simpa only [Term.next, heq, hafter, Option.map_some, Option.toList_some] using hshrink

theorem next {a : TermAct n} (h : s.Inv) (ha : s.Allowed a) : (s.next a).Inv := by
  cases a with
  | propose id requestId data save => exact h.propose ha
  | save id zxId => exact h.save ha
  | ack id zxId save => exact h.ack ha

/-- The servers that have saved the first draft, when its votes are enough. -/
theorem majority (h : s.Inv) {id : Fin n} {zxId : Int64} {save : Int64 → Bool} {d : Draft n}
    (ha : s.Allowed (.ack id zxId save)) (hd : (s.lead.vote id zxId).2 = some d) :
    s.lead.id ∈ s.savers zxId ∧ IsMajority (s.savers zxId) := by
  have hvote := h.vote ha
  obtain ⟨hz, hcard, ds, hq⟩ := Lead.vote_some hd
  have hmem : d ∈ (s.lead.vote id zxId).1.uncommit := by
    rw [hq]
    exact .head _
  have hvotes := hvote.votes d hmem
  have hmaj : IsMajority d.vote := by
    rw [IsMajority]
    rwa [Fintype.card_fin]
  -- the follower that acknowledges has saved the draft, so the leader has
  have hqueued : zxId ∈ s.lead.uncommit.map Draft.zxId := by
    rcases s.lead.vote_cases id zxId with heq | ⟨d', ds', hq', hz', _⟩
    · rw [heq] at hd
      cases hd
    · rw [hq']
      exact List.mem_map.mpr ⟨d', .head _, hz'⟩
  have hleader : zxId ∈ s.log s.lead.id := h.saved id zxId (ha.2 hqueued)
  have hsaver : ∀ i ∈ d.vote, i ≠ d.id → i ∈ s.savers zxId := by
    intro i hi hne
    refine Finset.mem_filter.mpr ⟨Finset.mem_univ i, ?_⟩
    rcases hvotes i hi with rfl | ⟨_, hlog⟩
    · exact absurd rfl hne
    · rwa [hz] at hlog
  have hlead : s.lead.id ∈ s.savers zxId := Finset.mem_filter.mpr ⟨Finset.mem_univ _, hleader⟩
  refine ⟨hlead, ?_⟩
  by_cases hown : s.lead.id ∈ d.vote
  · -- the leader's vote is the asking server's
    have hid : s.lead.id = d.id := by
      rcases hvotes _ hown with hid | ⟨hne, _⟩
      · exact hid
      · simp at hne
    refine hmaj.mono fun i hi => ?_
    by_cases hi' : i = d.id
    · rw [hi', ← hid]
      exact hlead
    · exact hsaver i hi hi'
  · refine (hmaj.exchange (r := d.id) hown).mono fun i hi => ?_
    rcases Finset.mem_insert.mp hi with rfl | hi
    · exact hlead
    · exact hsaver i (Finset.mem_of_mem_erase hi) (Finset.ne_of_mem_erase hi)

end Term.Inv

/-! ## Runs -/

/-- Whenever a draft is committed, the leader and a majority of the servers
have saved it, and its id is above all committed before. -/
theorem commit_needs_majority {s : Term n} (hr : (term n).Run Term.Allowed s) {id : Fin n}
    {zxId : Int64} {save : Int64 → Bool} (ha : s.Allowed (.ack id zxId save)) {d : Draft n}
    (hd : (s.lead.ackPropose id zxId save).2.1 = some d) :
    d.zxId = zxId ∧ s.lead.id ∈ s.savers zxId ∧ n / 2 + 1 ≤ (s.savers zxId).card ∧
      (∀ z ∈ s.committed, z < zxId) ∧ zxId ∉ s.committed := by
  have hinv : s.Inv := Transition.System.Run.invariant (I := Term.Inv)
    (fun _ h => Term.Inv.of_fresh h) (fun _ _ _ h ha hs => by cases hs; exact h.next ha) hr
  rcases s.lead.ackPropose_cases id zxId save with heq | ⟨d', launch, hd', heq⟩
  · rw [heq] at hd
    cases hd
  · rw [heq] at hd
    cases hd
    obtain ⟨hz, _, ds, hq⟩ := Lead.vote_some hd'
    obtain ⟨hlead, hmaj⟩ := hinv.majority ha hd'
    have habove : ∀ z ∈ s.committed, z < zxId := by
      intro z hzc
      have hmem : d ∈ (s.lead.vote id zxId).1.uncommit := by
        rw [hq]
        exact .head _
      exact hz ▸ (hinv.vote ha).ahead z hzc d hmem
    refine ⟨hz, hlead, ?_, habove, fun hmem => Std.lt_irrefl (habove zxId hmem)⟩
    have := hmaj
    rw [IsMajority] at this
    rwa [Fintype.card_fin] at this

/-- Server 1 asks for a draft of leader 0, saves and acknowledges it, and server
2 saves it. -/
def askedByFollower [NeZero n] : List (TermAct n) :=
  [.propose 1 1 [7] fun _ => true, .save 1 (zxIdOf 1 1), .ack 1 (zxIdOf 1 1) fun _ => true,
    .save 2 (zxIdOf 1 1)]

/-- The acknowledgement of server 2 commits the draft, which all three have. -/
theorem commit_needs_majority_three :
    ∃ s : Term 3, ∃ d, (s.lead.ackPropose 2 (zxIdOf 1 1) fun _ => true).2.1 = some d ∧
      d.vote = {1, 2} ∧ 3 / 2 + 1 ≤ (s.savers (zxIdOf 1 1)).card ∧ zxIdOf 1 1 ∉ s.committed := by
  let start : Term 3 := { lead := { id := 0, peerEpoch := 1 } }
  have hguard : Transition.Guarded (fun s a => some (Term.next s a)) Term.Allowed start
      askedByFollower := by
    decide +kernel
  obtain ⟨s, hs⟩ : ∃ s, Transition.exec (fun s a => some (Term.next s a)) start
      askedByFollower = some s := ⟨_, rfl⟩
  have hlast : s.Allowed (.ack 2 (zxIdOf 1 1) fun _ => true) ∧
      ((s.lead.ackPropose 2 (zxIdOf 1 1) fun _ => true).2.1.map Draft.vote) = some {1, 2} := by
    cases hs
    decide +kernel
  obtain ⟨d, hd, hvote⟩ := Option.map_eq_some_iff.mp hlast.2
  have hmajority := commit_needs_majority
    (Transition.exec_run (.start ⟨0, 1, rfl⟩) hguard hs) hlast.1 hd
  exact ⟨s, d, hd, hvote, hmajority.2.2.1, hmajority.2.2.2.2⟩

end Paxos
