import Mathlib.Logic.Function.Basic
import Zookeeper.Paxos.Election
import Zookeeper.Transition

/-!
# The executor between terms

`DoTransaction` hands a call to `_executor`, if there is one and it is active
(`paxos/PaxosImpl.cpp`).  That is the `Lead` or the `Follow` of the term which has last
got past its handshake.  `Lead::Leading` takes itself out again when `Process` returns,
which cannot throw (`paxos/paxos/lead.cpp`).  `Follow::Following` does it behind
`ProcossPropose`, whose loop only ends with an exception, and the handler of the exception
does not (`paxos/paxos/follow.cpp`).

`executor_cleared_iff` says that between terms a call is refused exactly if the last term
past its handshake was not a `Follow`.
-/

namespace Paxos

/-- Where `Leading` or `Following` is. -/
inductive TermStage where
  /-- Before `SetExecutor(this)`. -/
  | handshake
  /-- In `Process` or `ProcossPropose`. -/
  | serving
  /-- Behind it, until the function returns. -/
  | closing
deriving DecidableEq, Repr

/-- `PaxosImpl` with its terms, which are counted.  The flag of a term that is gone is
what its memory held last. -/
structure TermLoop where
  id : Int32
  state : ElectionState := .looking
  /-- The `Lead` or `Follow` that is running. -/
  running : Option (Nat × TermStage) := none
  terms : Nat := 0
  /-- `_active` of each term. -/
  active : Nat → Bool := fun _ => false
  /-- `_executor`. -/
  executor : Option Nat := none
  /-- What the terms were that got past their handshake, the last one first. -/
  passed : List ElectionState := []

inductive TermLoopAct where
  /-- `Elect`, with the vote that `LookForLeader` returns. -/
  | elect (vote : Vote)
  /-- `Leading` or `Following` is called. -/
  | enter
  /-- It returns, or an exception ends it, before the handshake is over. -/
  | fail
  /-- The handshake is over. -/
  | pass
  /-- `Process` of a `Lead` returns; `Flush` may throw then. -/
  | expire
  /-- `ProcossPropose` of a `Follow` throws: a lost connection, a proposal that could not
  be saved, or a commit. -/
  | lose
  /-- The function returns. -/
  | leave

namespace TermLoop

def step (s : TermLoop) : TermLoopAct → Option TermLoop
  | .elect vote =>
      if s.state = .looking ∧ s.running = none then
        some { s with state := if vote.voteId = s.id then .leading else .following }
      else none
  | .enter =>
      if s.state ≠ .looking ∧ s.running = none then
        some { s with running := some (s.terms, .handshake), terms := s.terms + 1 }
      else none
  | .fail =>
      match s.running with
      | some (_, .handshake) => some { s with running := none }
      | _ => none
  | .pass =>
      match s.running with
      | some (k, .handshake) =>
          some { s with
            running := some (k, .serving)
            active := Function.update s.active k true
            executor := some k
            passed := s.state :: s.passed }
      | _ => none
  | .expire =>
      match s.running with
      | some (k, .serving) =>
          if s.state = .leading then
            some { s with
              running := some (k, .closing)
              active := Function.update s.active k false
              executor := none }
          else none
      | _ => none
  | .lose =>
      match s.running with
      | some (k, .serving) =>
          if s.state = .following then some { s with running := some (k, .closing) } else none
      | _ => none
  | .leave =>
      match s.running with
      | some (_, .closing) => some { s with running := none }
      | _ => none

/-- `PaxosImpl::Start` has forked the loop. -/
def Fresh (s : TermLoop) : Prop := ∃ id, s = { id := id }

/-- The executor that `DoTransaction` hands a call to. -/
def doTransaction (s : TermLoop) : Option Nat := s.executor.filter fun k => s.active k

/-- A term is past its handshake. -/
def PastHandshake (s : TermLoop) : Prop :=
  ∃ k stage, s.running = some (k, stage) ∧ stage ≠ .handshake

end TermLoop

/-- The terms of one server. -/
def termLoop : Transition.System TermLoop TermLoopAct :=
  Transition.ofStep TermLoop.Fresh TermLoop.step

namespace TermLoop

variable {s s' : TermLoop} {a : TermLoopAct}

/-- A call is taken while a term serves, and behind the terms of a `Follow`. -/
structure Inv (s : TermLoop) : Prop where
  serving : ∀ k, s.running = some (k, .serving) →
    s.executor = some k ∧ s.active k = true ∧ s.passed.head? = some s.state
  elsewhere : (∀ k, s.running ≠ some (k, .serving)) →
    (s.doTransaction = none ↔ s.passed.head? ≠ some .following)

/-- A term that is over, or has not begun, leaves the executor as it is. -/
theorem Inv.quiet (h : s.Inv) (hs : ∀ k, s.running ≠ some (k, .serving))
    {running : Option (Nat × TermStage)} (hrunning : ∀ k, running ≠ some (k, .serving))
    (state : ElectionState) (terms : Nat) :
    ({ s with state := state, running := running, terms := terms } : TermLoop).Inv :=
  ⟨fun k hk => absurd hk (hrunning k), fun _ => h.elsewhere hs⟩

theorem Inv.step (h : s.Inv) (hs : s.step a = some s') : s'.Inv := by
  cases a with
  | elect vote =>
      rw [TermLoop.step] at hs
      split at hs
      next hidle =>
        cases hs
        exact h.quiet (by simp [hidle.2]) (by simp [hidle.2]) _ _
      next => cases hs
  | enter =>
      rw [TermLoop.step] at hs
      split at hs
      next hidle =>
        cases hs
        exact h.quiet (by simp [hidle.2]) (by simp) _ _
      next => cases hs
  | fail =>
      rw [TermLoop.step] at hs
      split at hs
      next hrunning =>
        cases hs
        exact h.quiet (by simp [hrunning]) (by simp) _ _
      next => cases hs
  | pass =>
      rw [TermLoop.step] at hs
      split at hs
      next k hrunning =>
        cases hs
        refine ⟨fun k' hk => ?_, fun hother => absurd rfl (hother k)⟩
        cases hk
        exact ⟨rfl, Function.update_self _ _ _, rfl⟩
      next => cases hs
  | expire =>
      rw [TermLoop.step] at hs
      split at hs
      next k hrunning =>
        split at hs
        next hleading =>
          cases hs
          refine ⟨fun k' hk => absurd hk (by simp), fun _ => iff_of_true rfl ?_⟩
          have hhead := (h.serving k hrunning).2.2
          dsimp only
          rw [hhead, hleading]
          decide
        next => cases hs
      next => cases hs
  | lose =>
      rw [TermLoop.step] at hs
      split at hs
      next k hrunning =>
        split at hs
        next hfollowing =>
          cases hs
          obtain ⟨hexecutor, hactive, hhead⟩ := h.serving k hrunning
          refine ⟨fun k' hk => absurd hk (by simp), fun _ => iff_of_false ?_ ?_⟩
          · simp [doTransaction, hexecutor, hactive, Option.filter]
          · simp [hhead, hfollowing]
        next => cases hs
      next => cases hs
  | leave =>
      rw [TermLoop.step] at hs
      split at hs
      next hrunning =>
        cases hs
        exact h.quiet (by simp [hrunning]) (by simp) _ _
      next => cases hs

end TermLoop

/-- While no term is past its handshake, `DoTransaction` refuses a call exactly if the last
term that got there was not a `Follow`. -/
theorem executor_cleared_iff {s : TermLoop} (h : termLoop.Reachable s)
    (hbetween : ¬ s.PastHandshake) :
    s.doTransaction = none ↔ s.passed.head? ≠ some .following := by
  have hinv : s.Inv := by
    refine Transition.System.Reachable.invariant (I := TermLoop.Inv) ?_
      (fun _ _ _ hi hs => hi.step hs) h
    rintro s ⟨id, rfl⟩
    exact ⟨fun k hk => absurd hk (by simp), fun _ => iff_of_true rfl (by simp)⟩
  exact hinv.elsewhere fun k hk => hbetween ⟨k, .serving, hk, by decide⟩

/-- Server 1 leads a term. -/
def ledTerm : List TermLoopAct :=
  [.elect ⟨1, .looking, 1, 1, 0⟩, .enter, .pass, .expire, .leave]

/-- Server 1 follows server 2, and the connection is lost. -/
def lostTerm : List TermLoopAct :=
  [.elect ⟨2, .leading, 1, 2, 0⟩, .enter, .pass, .lose, .leave]

theorem executor_cleared_ledTerm :
    ∃ s, Transition.exec TermLoop.step { id := 1 } ledTerm = some s ∧
      s.passed = [.leading] ∧ (s.doTransaction = none ↔ s.passed.head? ≠ some .following) := by
  have hrun : (Transition.exec TermLoop.step { id := 1 } ledTerm).map
      (fun s => (s.passed, s.running)) = some ([.leading], none) := by
    decide
  obtain ⟨s, hs, hview⟩ := Option.map_eq_some_iff.mp hrun
  obtain ⟨hpassed, hrunning⟩ := Prod.mk.inj hview
  refine ⟨s, hs, hpassed, executor_cleared_iff (Transition.exec_reachable ⟨1, rfl⟩ hs) ?_⟩
  rintro ⟨k, stage, hsome, -⟩
  exact absurd (hrunning.symm.trans hsome) (by simp)

/-- The `Follow` is gone, and takes calls. -/
theorem lost_follow_takes_calls :
    ¬ ∀ s, termLoop.Reachable s → ¬ s.PastHandshake → s.doTransaction = none := by
  intro h
  have hrun : (Transition.exec TermLoop.step { id := 1 } lostTerm).map
      (fun s => (s.doTransaction, s.running)) = some (some 0, none) := by
    decide
  obtain ⟨s, hs, hview⟩ := Option.map_eq_some_iff.mp hrun
  obtain ⟨hcall, hrunning⟩ := Prod.mk.inj hview
  have hnone := h s (Transition.exec_reachable ⟨1, rfl⟩ hs)
    (by simp [TermLoop.PastHandshake, hrunning])
  exact absurd (hcall.symm.trans hnone) (by simp)

end Paxos
