import Mathlib.Order.Bounds.Basic
import Zookeeper.KeyedList
import Zookeeper.Paxos.Decision
import Zookeeper.Paxos.VoteOrder

/-!
# The proposal and the server's own vote

`LookForLeader` keeps its proposal in two places, in the local `proposal` and in its own
entry of the table `votes`.  The two branches of `case LOOKING` that change the one also
change the other, except that the branch of a later epoch first clears the table.

`proposal_greatest` says what the proposal is at every iteration: the best of what the
server started with and of the votes that `case LOOKING` has taken in.
`own_vote_counted` says exactly which votes leave the server without its own entry, or
with a wrong one, when the table is tested.
-/

namespace Paxos

/-! ## What a step does to the locals -/

namespace Elector

variable {x y : Elector} {vote : Vote} {count : Nat}

/-- The locals are as they were, but for the channel, the queue and what is returned. -/
structure SameLocals (x y : Elector) : Prop where
  id : y.id = x.id
  logicCount : y.logicCount = x.logicCount
  proposal : y.proposal = x.proposal
  votes : y.votes = x.votes
  begun : y.phase ≠ .idle ↔ x.phase ≠ .idle

theorem SameLocals.refl (x : Elector) : x.SameLocals x := ⟨rfl, rfl, rfl, rfl, Iff.rfl⟩

/-- The locals when `IsVoteOk` is evaluated on `votes`, where a turn comes to that. -/
def evaluated (x : Elector) (vote : Vote) : Option Elector :=
  match vote.state with
  | .looking => (x.hearLooking vote).map Prod.fst
  | .following | .leading =>
      if vote.electionEpoch = x.logicCount then
        some { x with votes := x.votes.put vote.idx vote }
      else none
  | .other => none

/-- A vote that `case LOOKING` takes in. -/
def TakesIn (x : Elector) (vote : Vote) : Prop :=
  vote.state = .looking ∧ x.logicCount ≤ vote.electionEpoch

instance (x : Elector) (vote : Vote) : Decidable (x.TakesIn vote) :=
  inferInstanceAs (Decidable (_ ∧ _))

theorem evaluated_takesIn (h : x.TakesIn vote) : x.evaluated vote = some (x.heard vote) := by
  obtain ⟨brocast, hsome⟩ := hearLooking_eq h.2
  simp only [evaluated, h.1, hsome, Option.map_some]

/-- Where the table is tested, the vote was taken in, or put into the table. -/
theorem evaluated_cases (h : x.evaluated vote = some y) :
    (x.TakesIn vote ∧ y = x.heard vote) ∨
      (vote.state ≠ .looking ∧ vote.electionEpoch = x.logicCount ∧
        y = { x with votes := x.votes.put vote.idx vote }) := by
  cases hstate : vote.state with
  | looking =>
      rcases Int32.lt_or_le vote.electionEpoch x.logicCount with hlt | hle
      · simp only [evaluated, hstate, hearLooking_none hlt, Option.map_none] at h
        cases h
      · rw [evaluated_takesIn ⟨hstate, hle⟩] at h
        cases h
        exact .inl ⟨⟨hstate, hle⟩, rfl⟩
  | following =>
      simp only [evaluated, hstate, Option.ite_none_right_eq_some, Option.some.injEq] at h
      exact .inr ⟨by decide, h.1, h.2.symm⟩
  | leading =>
      simp only [evaluated, hstate, Option.ite_none_right_eq_some, Option.some.injEq] at h
      exact .inr ⟨by decide, h.1, h.2.symm⟩
  | other =>
      simp only [evaluated, hstate] at h
      cases h

theorem evaluated_settled (hstate : vote.state = .following ∨ vote.state = .leading) :
    x.evaluated vote =
      if vote.electionEpoch = x.logicCount then
        some { x with votes := x.votes.put vote.idx vote }
      else none := by
  rcases hstate with hstate | hstate
  · simp only [evaluated, hstate]
  · simp only [evaluated, hstate]

theorem finish_sameLocals (h : x.SameLocals y) (hx : x.phase ≠ .idle) (vote : Vote) :
    x.SameLocals (y.finish vote) where
  id := h.id
  logicCount := h.logicCount
  proposal := h.proposal
  votes := h.votes
  begun := iff_of_true (fun h => by cases h) hx

/-- `case LEADING` goes on with the locals that were tested. -/
theorem hearSettled_sameLocals (hx : x.phase ≠ .idle) (count : Nat)
    (hstate : vote.state = .following ∨ vote.state = .leading) :
    SameLocals ((x.evaluated vote).getD x) (x.hearSettled count vote).1 := by
  have hput : SameLocals ((x.evaluated vote).getD x) { x with votes := x.votesWith vote } := by
    rw [evaluated_settled hstate, votesWith]
    split
    next => exact .refl _
    next => exact .refl x
  have hsettling : SameLocals ((x.evaluated vote).getD x) (x.settling vote) :=
    ⟨hput.id, hput.logicCount, hput.proposal, hput.votes, hput.begun⟩
  have hbegun : ((x.evaluated vote).getD x).phase ≠ .idle := hput.begun.mp hx
  rw [hearSettled_eq]
  split
  next => exact finish_sameLocals hput hbegun vote
  next =>
    split
    next => exact finish_sameLocals hsettling hbegun vote
    next => exact hsettling

/-- A turn goes on with the locals that were tested. -/
theorem hear_sameLocals (hx : x.phase ≠ .idle) (count : Nat) (vote : Vote) :
    SameLocals ((x.evaluated vote).getD x) (x.hear count vote).elector := by
  cases hstate : vote.state with
  | looking =>
      have hlooking : x.evaluated vote = (x.hearLooking vote).map Prod.fst := by
        simp only [evaluated, hstate]
      simp only [hear, hstate]
      rcases Int32.lt_or_le vote.electionEpoch x.logicCount with hlt | hle
      · rw [hlooking, hearLooking_none hlt]
        exact .refl x
      · obtain ⟨brocast, hsome⟩ := hearLooking_eq hle
        rw [hlooking, hsome]
        have hbegun : (x.heard vote).phase ≠ .idle := by
          rw [(heard_kept x vote).2.1]
          exact hx
        simp only [Option.map_some, Option.getD_some]
        split
        next => exact ⟨rfl, rfl, rfl, rfl, iff_of_true (fun h => by cases h) hbegun⟩
        next => exact .refl _
  | following =>
      simp only [hear, hstate]
      exact hearSettled_sameLocals hx count (.inl hstate)
  | leading =>
      simp only [hear, hstate]
      exact hearSettled_sameLocals hx count (.inr hstate)
  | other =>
      simp only [hear, evaluated, hstate]
      exact .refl x

theorem take_sameLocals (h : x.take = some (vote, y)) : x.SameLocals y := by
  simp only [Elector.take] at h
  split at h
  next => cases h; exact ⟨rfl, rfl, rfl, rfl, Iff.rfl⟩
  next => cases h; exact ⟨rfl, rfl, rfl, rfl, Iff.rfl⟩
  next => cases h

end Elector
namespace Listener

variable {s s' : Listener} {count : Nat} {a : ListenerAct}

/-- A step starts a call, takes a turn of its main loop, or leaves the locals alone. -/
theorem step_locals (h : s.step count a = some s') :
    (∃ zxId, a = .start zxId ∧ s'.elector = s.elector.start zxId) ∨
      (∃ vote x, a = .hear ∧ s.elector.phase = .searching ∧
        s.elector.take = some (vote, x) ∧ s'.elector = (x.hear count vote).elector) ∨
      (a ≠ .hear ∧ (∀ zxId, a ≠ .start zxId) ∧ s.elector.SameLocals s'.elector) := by
  cases a with
  | start zxId =>
      simp only [Listener.step] at h
      split at h
      next => cases h; exact .inl ⟨zxId, rfl, rfl⟩
      next => cases h; exact .inl ⟨zxId, rfl, rfl⟩
      next => cases h
  | arrive vote =>
      cases h
      exact .inr (.inr ⟨by simp, by simp, rfl, rfl, rfl, rfl, Iff.rfl⟩)
  | hear =>
      simp only [Listener.step] at h
      split at h
      next hphase =>
        obtain ⟨⟨vote, x⟩, htake, rfl⟩ := Option.map_eq_some_iff.mp h
        refine .inr (.inl ⟨vote, x, rfl, hphase, htake, ?_⟩)
        simp only [Listener.hear]
        split
        next => rfl
        next => rfl
      next => cases h
  | confirmPop n =>
      simp only [Listener.step] at h
      split at h
      next hphase =>
        obtain ⟨x, hpop, rfl⟩ := Option.map_eq_some_iff.mp h
        refine .inr (.inr ⟨by simp, by simp, ?_⟩)
        simp only [Elector.confirmPop] at hpop
        split at hpop
        next => cases hpop
        next =>
          cases hpop
          have hbegun : s.elector.phase ≠ .idle := fun h => by rw [hphase] at h; cases h
          split
          next => exact ⟨rfl, rfl, rfl, rfl, iff_of_true (fun h => by cases h) hbegun⟩
          next => exact ⟨rfl, rfl, rfl, rfl, Iff.rfl⟩
      next => cases h
  | expire =>
      simp only [Listener.step] at h
      split at h
      next hphase =>
        cases h
        have hbegun : s.elector.phase ≠ .idle := fun h => by rw [hphase] at h; cases h
        refine .inr (.inr ⟨by simp, by simp, ?_⟩)
        simp only [Listener.apply, Elector.expire]
        split
        next => exact Elector.finish_sameLocals (.refl _) hbegun _
        next => exact ⟨rfl, rfl, rfl, rfl, iff_of_true (fun h => by cases h) hbegun⟩
      next => cases h
  | echo =>
      simp only [Listener.step] at h
      split at h
      next => cases h; exact .inr (.inr ⟨by simp, by simp, rfl, rfl, rfl, rfl, Iff.rfl⟩)
      next => cases h

end Listener

/-! ## The proposal -/

/-- A server in a call of `LookForLeader`, with what the call was given and what
`case LOOKING` has taken in since. -/
structure Campaign where
  listener : Listener
  zxId : Int64 := 0
  taken : List Vote := []

namespace Campaign

/-- The server's own `(zxId, id)`, and those of the votes that were taken in. -/
def ranks (s : Campaign) : List (ℤ ×ₗ ℤ) :=
  toLex (s.zxId.toInt, s.listener.elector.id.toInt) :: s.taken.map Vote.rank

/-- What a step adds to the record, made in a state. -/
def note (s : Campaign) (a : ListenerAct) (next : Listener) : Campaign :=
  match a with
  | .start zxId => { listener := next, zxId := zxId }
  | .hear =>
      { s with
        listener := next
        taken :=
          (s.listener.elector.take.toList.filterMap fun (vote, x) =>
            if x.TakesIn vote then some vote else none) ++ s.taken }
  | _ => { s with listener := next }

def step (count : Nat) (s : Campaign) (a : ListenerAct) : Option Campaign :=
  (s.listener.step count a).map (s.note a)

/-- The server has not looked for a leader yet. -/
def Fresh (s : Campaign) : Prop :=
  ∃ listener : Listener, listener.Fresh ∧ s = { listener := listener }

end Campaign

/-- `listener`, with a record of what each call has taken in. -/
def campaign (count : Nat) : Transition.System Campaign ListenerAct :=
  Transition.ofStep Campaign.Fresh (Campaign.step count)

namespace Elector

variable {x y : Elector} {vote : Vote}

/-- The proposal is in the epoch of the server, and the best of the ranks. -/
structure Proposes (x : Elector) (ranks : List (ℤ ×ₗ ℤ)) : Prop where
  inEpoch : x.InEpoch
  greatest : IsGreatest {r | r ∈ ranks} x.proposal.rank

theorem Proposes.of_same {ranks : List (ℤ ×ₗ ℤ)} (hx : x.Proposes ranks) (h : x.SameLocals y) :
    y.Proposes ranks where
  inEpoch := by
    rw [InEpoch, h.proposal, h.logicCount]
    exact hx.inEpoch
  greatest := by
    rw [h.proposal]
    exact hx.greatest

theorem proposes_start (x : Elector) (zxId : Int64) :
    (x.start zxId).Proposes [toLex (zxId.toInt, x.id.toInt)] where
  inEpoch := start_inEpoch x zxId
  greatest := by
    simp only [List.mem_singleton, Set.ofPred_eq_eq_singleton]
    exact isGreatest_singleton

/-- A vote that is taken in makes the proposal the better of the two, in its epoch. -/
theorem heard_best (hx : x.InEpoch) (hle : x.logicCount ≤ vote.electionEpoch) :
    (x.heard vote).InEpoch ∧ (x.heard vote).logicCount.toInt = vote.electionEpoch.toInt ∧
      (x.heard vote).proposal.rank = max x.proposal.rank vote.rank := by
  obtain ⟨hy, hstanding⟩ := heard_standing hx hle
  rw [standing, Epochs.Standing.mk.injEq] at hstanding
  exact ⟨hy, hstanding⟩

/-- A vote that is taken in goes to the ranks. -/
theorem Proposes.heard {ranks : List (ℤ ×ₗ ℤ)} (hx : x.Proposes ranks)
    (hle : x.logicCount ≤ vote.electionEpoch) :
    (x.heard vote).InEpoch ∧
      IsGreatest {r | r = vote.rank ∨ r ∈ ranks} (x.heard vote).proposal.rank := by
  obtain ⟨hy, _, hrank⟩ := heard_best hx.inEpoch hle
  refine ⟨hy, ?_⟩
  rw [hrank, max_comm]
  exact hx.greatest.insert vote.rank

/-- No vote that is taken in makes the proposal less. -/
theorem heard_not_lt (hx : x.InEpoch) (hle : x.logicCount ≤ vote.electionEpoch) :
    (x.heard vote).proposal.lt x.proposal = false := by
  obtain ⟨hy, hlogic, hrank⟩ := heard_best hx hle
  have hepoch : x.proposal.electionEpoch ≤ (x.heard vote).proposal.electionEpoch := by
    rw [hx, hy, Int32.le_iff_toInt_le, hlogic]
    exact Int32.le_iff_toInt_le.mp hle
  rw [Bool.eq_false_iff]
  intro hlt
  by_cases hsame : (x.heard vote).proposal.electionEpoch = x.proposal.electionEpoch
  · have hless := (Vote.lt_iff hsame).mp hlt
    rw [hrank] at hless
    exact absurd (le_max_left _ _) (not_le.mpr hless)
  · rw [Vote.lt, if_neg hsame, decide_eq_true_eq] at hlt
    exact absurd hepoch (Int32.not_le.mpr hlt)

end Elector

namespace Campaign

variable {s s' : Campaign} {count : Nat} {a : ListenerAct}

/-- What holds at every iteration. -/
def Inv (s : Campaign) : Prop :=
  s.listener.elector.phase ≠ .idle → s.listener.elector.Proposes s.ranks

theorem Inv.of_fresh (h : s.Fresh) : s.Inv := by
  obtain ⟨listener, ⟨id, logicCount, rfl⟩, rfl⟩ := h
  exact fun hbegun => absurd rfl hbegun

/-- What is recorded when a vote is taken up. -/
theorem note_hear {vote : Vote} {x : Elector} (htake : s.listener.elector.take = some (vote, x))
    (next : Listener) :
    s.note .hear next =
      if x.TakesIn vote then { s with listener := next, taken := vote :: s.taken }
      else { s with listener := next } := by
  simp only [note, htake, Option.toList_some, List.filterMap_cons, List.filterMap_nil]
  split
  next h =>
    rw [if_neg (by simpa using h)]
    rfl
  next v h =>
    simp only [Option.ite_none_right_eq_some, Option.some.injEq] at h
    rw [if_pos h.1, ← h.2]
    rfl

/-- What holds stays where the proposal, the epoch and the id do. -/
theorem proposes_kept {next : Listener} (h : s.listener.elector.Proposes s.ranks)
    (hproposal : next.elector.proposal = s.listener.elector.proposal)
    (hlogic : next.elector.logicCount = s.listener.elector.logicCount)
    (hid : next.elector.id = s.listener.elector.id) :
    next.elector.Proposes ({ s with listener := next } : Campaign).ranks ∧
      next.elector.proposal.lt s.listener.elector.proposal = false := by
  refine ⟨⟨?_, ?_⟩, ?_⟩
  · rw [Elector.InEpoch, hproposal, hlogic]
    exact h.inEpoch
  · simp only [ranks, hproposal, hid]
    exact h.greatest
  · rw [hproposal]
    simp [Vote.lt]

/-- A vote that is taken in goes to the ranks. -/
theorem proposes_takesIn {next : Listener} {x : Elector} {vote : Vote}
    (h : s.listener.elector.Proposes s.ranks) (htaken : s.listener.elector.SameLocals x)
    (hin : x.TakesIn vote) (hlocals : (x.heard vote).SameLocals next.elector) :
    next.elector.Proposes
        ({ s with listener := next, taken := vote :: s.taken } : Campaign).ranks ∧
      next.elector.proposal.lt s.listener.elector.proposal = false := by
  have hx : x.Proposes s.ranks := h.of_same htaken
  obtain ⟨hepoch, hgreatest⟩ := hx.heard hin.2
  have hid : next.elector.id = s.listener.elector.id :=
    (hlocals.id.trans (Elector.heard_kept x vote).2.2.1).trans htaken.id
  refine ⟨.of_same ⟨hepoch, ?_⟩ hlocals, ?_⟩
  · simp only [ranks, hid, List.map_cons, List.mem_cons]
    simp only [ranks, List.mem_cons] at hgreatest
    simpa only [or_left_comm] using hgreatest
  · rw [hlocals.proposal, ← htaken.proposal]
    exact Elector.heard_not_lt hx.inEpoch hin.2

/-- A vote that is not taken in changes nothing of this. -/
theorem kept_of_not_takesIn {next : Listener} {x : Elector} {vote : Vote}
    (hout : ¬ x.TakesIn vote) (hlocals : ((x.evaluated vote).getD x).SameLocals next.elector) :
    next.elector.proposal = x.proposal ∧ next.elector.logicCount = x.logicCount ∧
      next.elector.id = x.id := by
  cases hy : x.evaluated vote with
  | none =>
      rw [hy] at hlocals
      exact ⟨hlocals.proposal, hlocals.logicCount, hlocals.id⟩
  | some y =>
      rw [hy] at hlocals
      rcases Elector.evaluated_cases hy with ⟨hin, _⟩ | ⟨_, _, rfl⟩
      · exact absurd hin hout
      · exact ⟨hlocals.proposal, hlocals.logicCount, hlocals.id⟩

/-- A step keeps the proposal greatest, and does not make it less within a call. -/
theorem Inv.step (h : s.Inv) (hs : s.step count a = some s') :
    s'.Inv ∧ ((∀ zxId, a ≠ .start zxId) → s.listener.elector.phase ≠ .idle →
      s'.listener.elector.proposal.lt s.listener.elector.proposal = false) := by
  obtain ⟨next, hnext, rfl⟩ := Option.map_eq_some_iff.mp hs
  rcases Listener.step_locals hnext with ⟨zxId, rfl, hstart⟩ |
    ⟨vote, x, rfl, hphase, htake, hhear⟩ | ⟨hhear, hstart, hsame⟩
  · refine ⟨fun _ => ?_, fun hno => absurd rfl (hno zxId)⟩
    have hproposes := Elector.proposes_start s.listener.elector zxId
    simp only [ranks, note, List.map_nil, hstart]
    exact hproposes
  · have hbegun : s.listener.elector.phase ≠ .idle := fun h => by rw [hphase] at h; cases h
    have htaken := Elector.take_sameLocals htake
    have hlocals := Elector.hear_sameLocals (htaken.begun.mpr hbegun) count vote
    rw [← hhear] at hlocals
    rw [note_hear htake]
    by_cases hin : x.TakesIn vote
    · rw [Elector.evaluated_takesIn hin, Option.getD_some] at hlocals
      rw [if_pos hin]
      obtain ⟨hproposes, hless⟩ := proposes_takesIn (h hbegun) htaken hin hlocals
      exact ⟨fun _ => hproposes, fun _ _ => hless⟩
    · rw [if_neg hin]
      obtain ⟨hproposal, hlogic, hid⟩ := kept_of_not_takesIn hin hlocals
      obtain ⟨hproposes, hless⟩ := proposes_kept (h hbegun) (hproposal.trans htaken.proposal)
        (hlogic.trans htaken.logicCount) (hid.trans htaken.id)
      exact ⟨fun _ => hproposes, fun _ _ => hless⟩
  · have hnote : s.note a next = { s with listener := next } := by
      cases a with
      | start zxId => exact absurd rfl (hstart zxId)
      | hear => exact absurd rfl hhear
      | arrive vote => rfl
      | confirmPop n => rfl
      | expire => rfl
      | echo => rfl
    rw [hnote]
    have hkept := fun hbegun =>
      proposes_kept (h hbegun) hsame.proposal hsame.logicCount hsame.id
    exact ⟨fun hbegun => (hkept (hsame.begun.mp hbegun)).1, fun _ hbegun => (hkept hbegun).2⟩

theorem reachable_inv (h : (campaign count).Reachable s) : s.Inv :=
  h.invariant (I := Inv) (fun _ hf => .of_fresh hf) fun _ _ _ hi hs => (hi.step hs).1

end Campaign

/-- At every iteration the proposal has the epoch of the server, and names the greatest of
the server's own pair and of those of the votes that were taken in.  So it never becomes
less within a call. -/
theorem proposal_greatest {count : Nat} {s : Campaign} (h : (campaign count).Reachable s)
    (hphase : s.listener.elector.phase ≠ .idle) :
    s.listener.elector.proposal.electionEpoch = s.listener.elector.logicCount ∧
      IsGreatest {r | r ∈ s.ranks} s.listener.elector.proposal.rank ∧
      ∀ a s', (∀ zxId, a ≠ .start zxId) → s.step count a = some s' →
        s'.listener.elector.proposal.lt s.listener.elector.proposal = false := by
  have hinv := Campaign.reachable_inv h
  have hproposes := hinv hphase
  refine ⟨hproposes.inEpoch, hproposes.greatest, fun a s' ha hs => ?_⟩
  exact (hinv.step hs).2 ha hphase

/-- Server 1 takes over a vote, and later comes to an epoch in which it hears a worse one. -/
def laterEpoch : List ListenerAct :=
  [.start 5, .arrive ⟨2, .looking, 1, 2, 7⟩, .hear, .arrive ⟨3, .looking, 3, 3, 1⟩, .hear]

theorem proposal_greatest_laterEpoch :
    ∃ s : Campaign, Transition.exec (Campaign.step 5) { listener := { elector := { id := 1 } } }
        laterEpoch = some s ∧
      s.listener.elector.proposal.electionEpoch = s.listener.elector.logicCount ∧
      IsGreatest {r | r ∈ s.ranks} s.listener.elector.proposal.rank := by
  have hrun : (Transition.exec (Campaign.step 5) { listener := { elector := { id := 1 } } }
      laterEpoch).map (fun s => decide (s.listener.elector.phase ≠ .idle)) = some true := by
    decide +kernel
  obtain ⟨s, hs, hphase⟩ := Option.map_eq_some_iff.mp hrun
  have hfresh : ({ listener := { elector := { id := 1 } } } : Campaign).Fresh :=
    ⟨_, ⟨1, 0, rfl⟩, rfl⟩
  have hreach := Transition.exec_reachable hfresh hs
  have hgreatest := proposal_greatest hreach (of_decide_eq_true hphase)
  exact ⟨s, hs, hgreatest.1, hgreatest.2.1⟩

/-! ## The server's own vote -/

/-- Two votes name the same leader. -/
def Vote.SameLeader (v w : Vote) : Prop := v.voteId = w.voteId ∧ v.voteZxId = w.voteZxId

instance (v w : Vote) : Decidable (v.SameLeader w) := inferInstanceAs (Decidable (_ ∧ _))

namespace Elector

variable {x y : Elector} {vote : Vote} {count : Nat}

/-- The table has the proposal as the server's own vote. -/
def CountsOwn (x : Elector) : Prop :=
  ∃ own ∈ x.votes.lookup x.id,
    own.electionEpoch = x.proposal.electionEpoch ∧ own.SameLeader x.proposal

instance (x : Elector) : Decidable x.CountsOwn :=
  inferInstanceAs (Decidable (∃ own ∈ x.votes.lookup x.id, _))

/-- A vote leaves the server its own entry.  The branch of a later epoch does so if the
vote beats the proposal, and any branch if the vote is not put in as the server's own, or
says the same. -/
def LeavesOwn (x : Elector) (vote : Vote) : Prop :=
  match vote.state with
  | .looking =>
      x.logicCount ≤ vote.electionEpoch →
        { x.proposal with electionEpoch := vote.electionEpoch }.lt vote = true ∨
          if vote.idx = x.id then vote.SameLeader x.proposal
          else vote.electionEpoch = x.logicCount
  | .following | .leading =>
      vote.electionEpoch = x.logicCount → vote.idx = x.id → vote.SameLeader x.proposal
  | .other => True

instance (x : Elector) : ∀ vote, Decidable (x.LeavesOwn vote)
  | ⟨_, .looking, _, _, _⟩ => inferInstanceAs (Decidable (_ → _ ∨ ite _ _ _))
  | ⟨_, .following, _, _, _⟩ => inferInstanceAs (Decidable (_ → _ → _))
  | ⟨_, .leading, _, _, _⟩ => inferInstanceAs (Decidable (_ → _ → _))
  | ⟨_, .other, _, _, _⟩ => inferInstanceAs (Decidable True)

end Elector

theorem Votes.lookup_put (votes : Votes) (idx id : Int32) (vote : Vote) :
    (votes.put idx vote).lookup id = if id = idx then some vote else votes.lookup id :=
  KeyedList.lookup_put votes idx id vote

namespace Elector

variable {x y : Elector} {vote : Vote} {count : Nat}

theorem countsOwn_start (x : Elector) (zxId : Int64) : (x.start zxId).CountsOwn := by
  refine ⟨(x.start zxId).proposal, ?_, rfl, rfl, rfl⟩
  exact List.lookup_cons_self

theorem CountsOwn.of_same (hx : x.CountsOwn) (h : x.SameLocals y) : y.CountsOwn := by
  rw [CountsOwn, h.votes, h.id, h.proposal]
  exact hx

/-- The proposal that is taken over is put in. -/
theorem countsOwn_adopt (x : Elector) (vote : Vote) : (x.adopt vote).CountsOwn := by
  refine ⟨(x.adopt vote).proposal, ?_, rfl, rfl, rfl⟩
  exact List.lookup_cons_self

/-- A vote is put in beside the server's own, or in its place. -/
theorem countsOwn_put (hx : x.CountsOwn) (hepoch : vote.electionEpoch = x.proposal.electionEpoch) :
    CountsOwn { x with votes := x.votes.put vote.idx vote } ↔
      (vote.idx = x.id → vote.SameLeader x.proposal) := by
  simp only [CountsOwn, Votes.lookup_put]
  by_cases hidx : x.id = vote.idx
  · simp [hidx, hepoch]
  · have hne : ¬ vote.idx = x.id := fun h => hidx h.symm
    simp only [if_neg hidx, hne, false_implies, iff_true]
    exact hx

/-- Only a vote that leaves the server its own entry is tested with that entry. -/
theorem evaluated_countsOwn (hepoch : x.InEpoch) (hx : x.CountsOwn)
    (h : x.evaluated vote = some y) : y.CountsOwn ↔ x.LeavesOwn vote := by
  rcases evaluated_cases h with ⟨⟨hstate, hle⟩, rfl⟩ | ⟨hstate, hsame, rfl⟩
  · simp only [LeavesOwn, hstate, hle, true_implies]
    have hlt : (x.hearing vote).proposal.lt vote =
        { x.proposal with electionEpoch := vote.electionEpoch }.lt vote := by
      obtain ⟨_, hvote, hid, hzx⟩ := hearing_inEpoch hepoch hle
      simp only [Vote.lt, hvote, hid, hzx]
    rw [heard, hlt]
    split
    next hbeats => exact iff_of_true (countsOwn_adopt _ vote) (.inl hbeats)
    next hbeats =>
      simp only [hbeats, Bool.false_eq_true, false_or]
      rw [hearing]
      split
      next hlater =>
        have hne : ¬ vote.electionEpoch = x.logicCount := (Int32.ne_of_lt hlater).symm
        simp only [CountsOwn, Votes.lookup_put]
        by_cases hidx : x.id = vote.idx
        · simp [hidx, Vote.SameLeader]
        · have hidx' : ¬ vote.idx = x.id := fun h => hidx h.symm
          simp [hidx, hidx', hne]
      next hlater =>
        have heq : vote.electionEpoch = x.logicCount :=
          Int32.le_antisymm (Int32.not_lt.mp hlater) hle
        rw [countsOwn_put hx (heq.trans hepoch.symm)]
        simp [heq]
  · have hleaves : x.LeavesOwn vote ↔ (vote.idx = x.id → vote.SameLeader x.proposal) ∨
        vote.state = .other := by
      cases hvote : vote.state with
      | looking => exact absurd hvote hstate
      | following => simp [LeavesOwn, hvote, hsame]
      | leading => simp [LeavesOwn, hvote, hsame]
      | other => simp [LeavesOwn, hvote]
    have hsettled : vote.state ≠ .other := by
      intro hother
      simp only [evaluated, hother] at h
      cases h
    rw [countsOwn_put hx (hsame.trans hepoch.symm), hleaves, or_iff_left hsettled]

/-- A turn tests the table with the server's own vote exactly if the vote leaves it. -/
theorem leavesOwn_iff (hepoch : x.InEpoch) (hx : x.CountsOwn) (vote : Vote) :
    (∀ y ∈ x.evaluated vote, y.CountsOwn) ↔ x.LeavesOwn vote := by
  cases heval : x.evaluated vote with
  | some y => simpa using evaluated_countsOwn hepoch hx heval
  | none =>
      refine iff_of_true (fun y hy => by cases hy) ?_
      cases hstate : vote.state with
      | looking =>
          simp only [LeavesOwn, hstate]
          intro hle
          rw [evaluated_takesIn ⟨hstate, hle⟩] at heval
          cases heval
      | following =>
          simp only [LeavesOwn, hstate]
          intro hsame
          rw [evaluated_settled (.inl hstate), if_pos hsame] at heval
          cases heval
      | leading =>
          simp only [LeavesOwn, hstate]
          intro hsame
          rw [evaluated_settled (.inr hstate), if_pos hsame] at heval
          cases heval
      | other => simp only [LeavesOwn, hstate]

/-- The server counts its own vote, and goes on doing so. -/
structure Counting (x : Elector) : Prop where
  inEpoch : x.InEpoch
  own : x.CountsOwn

theorem Counting.of_same (hx : x.Counting) (h : x.SameLocals y) : y.Counting where
  inEpoch := by
    rw [InEpoch, h.proposal, h.logicCount]
    exact hx.inEpoch
  own := hx.own.of_same h

/-- A vote that leaves the server its own entry. -/
theorem Counting.evaluated (hx : x.Counting) (hvote : x.LeavesOwn vote) :
    ((x.evaluated vote).getD x).Counting := by
  cases heval : x.evaluated vote with
  | none => exact hx
  | some y =>
      refine ⟨?_, (evaluated_countsOwn hx.inEpoch hx.own heval).mpr hvote⟩
      rcases evaluated_cases heval with ⟨hin, rfl⟩ | ⟨_, _, rfl⟩
      · exact (heard_standing hx.inEpoch hin.2).1
      · exact hx.inEpoch

end Elector

/-- Wherever the table is tested in a turn, it has the server's own vote. -/
def CountsOwnAt (s : Listener) : ListenerAct → Prop
  | .hear =>
      s.elector.phase = .searching → ∀ p ∈ s.elector.take, ∀ x ∈ p.2.evaluated p.1, x.CountsOwn
  | _ => True

/-- Every vote that is taken up leaves the server its own entry. -/
def LeavesOwnAt (s : Listener) : ListenerAct → Prop
  | .hear => s.elector.phase = .searching → ∀ p ∈ s.elector.take, p.2.LeavesOwn p.1
  | _ => True

/-- The votes come from other servers, and so does what `n` holds. -/
def FromOthers (s : Listener) : ListenerAct → Prop
  | .arrive vote => vote.idx ≠ s.elector.id
  | .confirmPop n => n.idx ≠ s.elector.id
  | _ => True

instance (s : Listener) : ∀ a, Decidable (CountsOwnAt s a)
  | .hear => inferInstanceAs (Decidable (_ → ∀ p ∈ s.elector.take, ∀ x ∈ p.2.evaluated p.1, _))
  | .start _ => inferInstanceAs (Decidable True)
  | .arrive _ => inferInstanceAs (Decidable True)
  | .confirmPop _ => inferInstanceAs (Decidable True)
  | .expire => inferInstanceAs (Decidable True)
  | .echo => inferInstanceAs (Decidable True)

instance (s : Listener) : ∀ a, Decidable (LeavesOwnAt s a)
  | .hear => inferInstanceAs (Decidable (_ → ∀ p ∈ s.elector.take, _))
  | .start _ => inferInstanceAs (Decidable True)
  | .arrive _ => inferInstanceAs (Decidable True)
  | .confirmPop _ => inferInstanceAs (Decidable True)
  | .expire => inferInstanceAs (Decidable True)
  | .echo => inferInstanceAs (Decidable True)

instance (s : Listener) : ∀ a, Decidable (FromOthers s a)
  | .arrive _ => inferInstanceAs (Decidable (_ ≠ _))
  | .confirmPop _ => inferInstanceAs (Decidable (_ ≠ _))
  | .hear => inferInstanceAs (Decidable True)
  | .start _ => inferInstanceAs (Decidable True)
  | .expire => inferInstanceAs (Decidable True)
  | .echo => inferInstanceAs (Decidable True)

namespace Listener

variable {s s' : Listener} {count : Nat} {a : ListenerAct}

/-- In a call the server counts its own vote. -/
def Counts (s : Listener) : Prop := s.elector.phase ≠ .idle → s.elector.Counting

theorem Counts.at_iff (h : s.Counts) (a : ListenerAct) : CountsOwnAt s a ↔ LeavesOwnAt s a := by
  cases a with
  | hear =>
      refine forall_congr' fun hphase => forall₂_congr fun p hp => ?_
      have hbegun : s.elector.phase ≠ .idle := fun h => by rw [hphase] at h; cases h
      have hx := (h hbegun).of_same (Elector.take_sameLocals hp)
      exact Elector.leavesOwn_iff hx.inEpoch hx.own p.1
  | start zxId => exact Iff.rfl
  | arrive vote => exact Iff.rfl
  | confirmPop n => exact Iff.rfl
  | expire => exact Iff.rfl
  | echo => exact Iff.rfl

theorem Counts.step (h : s.Counts) (hvote : LeavesOwnAt s a) (hs : s.step count a = some s') :
    s'.Counts := by
  rcases step_locals hs with ⟨zxId, rfl, hstart⟩ | ⟨vote, x, rfl, hphase, htake, hhear⟩ |
    ⟨_, _, hsame⟩
  · intro _
    rw [hstart]
    exact ⟨Elector.start_inEpoch _ zxId, Elector.countsOwn_start _ zxId⟩
  · intro _
    have hbegun : s.elector.phase ≠ .idle := fun h => by rw [hphase] at h; cases h
    have htaken := Elector.take_sameLocals htake
    have hleaves : x.LeavesOwn vote := hvote hphase (vote, x) htake
    have hx := ((h hbegun).of_same htaken).evaluated hleaves
    rw [hhear]
    exact hx.of_same (Elector.hear_sameLocals (htaken.begun.mpr hbegun) count vote)
  · exact fun hbegun => (h (hsame.begun.mp hbegun)).of_same hsame

end Listener

/-- In a run the server counts its own vote whenever it tests the table, exactly if every
vote that is taken up leaves it its own entry. -/
theorem own_vote_counted (count : Nat) {s : Listener} (h : s.Fresh) (as : List ListenerAct) :
    Transition.Guarded (Listener.step count) CountsOwnAt s as ↔
      Transition.Guarded (Listener.step count) LeavesOwnAt s as := by
  have hcounts : s.Counts := by
    obtain ⟨id, logicCount, rfl⟩ := h
    exact fun hbegun => absurd rfl hbegun
  clear h
  induction as generalizing s with
  | nil => exact Iff.rfl
  | cons a as ih =>
      have hat := hcounts.at_iff a
      constructor
      · rintro ⟨hown, hrest⟩
        have hvote := hat.mp hown
        exact ⟨hvote, fun s' hs => (ih (hcounts.step hvote hs)).mp (hrest s' hs)⟩
      · rintro ⟨hvote, hrest⟩
        exact ⟨hat.mpr hvote, fun s' hs => (ih (hcounts.step hvote hs)).mpr (hrest s' hs)⟩

/-- Server 1 has logged more than server 2, from which it hears of a later epoch. -/
def worseLaterVote : List ListenerAct := [.start 5, .arrive ⟨2, .looking, 2, 2, 0⟩, .hear]

/-- Server 1 tests a table in which only server 2 has voted. -/
theorem own_vote_missing :
    ¬ ∀ (count : Nat) (s : Listener) (as : List ListenerAct), s.Fresh →
      Transition.Guarded (Listener.step count) FromOthers s as →
      Transition.Guarded (Listener.step count) CountsOwnAt s as := by
  intro h
  have hmissing := h 3 { elector := { id := 1 } } worseLaterVote ⟨1, 0, rfl⟩ (by decide +kernel)
  exact absurd hmissing (by decide +kernel)

/-- Server 1 counts itself where the vote of the later epoch beats its own. -/
theorem own_vote_counted_better :
    Transition.Guarded (Listener.step 3) CountsOwnAt { elector := { id := 1 } }
      [.start 5, .arrive ⟨2, .looking, 2, 2, 7⟩, .hear] :=
  (own_vote_counted 3 ⟨1, 0, rfl⟩ _).mpr (by decide +kernel)

end Paxos
