import Zookeeper.Transition
import Mathlib.Logic.Function.Basic

/-!
# Loops around a compare-and-exchange

A word is shared by any number of callers, and each of them loads it, computes what to put
in its place, and exchanges it.  The exchange fails where the word is no longer the value
that was loaded, and may fail without a cause.  A caller that fails begins again.

The load may give an older value of the word, since nothing orders it.  `increasing` is
the rule for such loops: where every value proposed is above the one it was computed from,
each exchange is above all the earlier ones.
-/

namespace CompareExchange

universe u v

/-- What callers do with the word: the value it starts with, and what a caller that has
loaded a value, and was given an input, tries to put in its place. -/
structure Loop (α : Type u) (ι : Type v) where
  initial : α
  propose : α → ι → Option α

/-- Where a caller is. -/
inductive Phase (α : Type u) where
  /-- Outside of the loop, or at its top. -/
  | top
  | loaded (seen : α)
  | exchanging (seen new : α)

/-- The word, the callers, and what was put into the word, the newest first. -/
structure Shared (α : Type u) where
  word : α
  callers : Nat → Phase α := fun _ => .top
  exchanged : List α := []

/-- What callers do. -/
inductive Act (α : Type u) (ι : Type v) where
  /-- Load the word, or an older value of it. -/
  | load (caller : Nat) (seen : α)
  | compute (caller : Nat) (input : ι)
  | exchange (caller : Nat) (spurious : Bool)

variable {α : Type u} {ι : Type v}

/-- A caller that goes on. -/
def Shared.go (s : Shared α) (caller : Nat) (phase : Phase α) : Shared α :=
  { s with callers := Function.update s.callers caller phase }

/-- The exchange of a caller succeeds. -/
def Shared.put (s : Shared α) (caller : Nat) (new : α) : Shared α :=
  { word := new, callers := Function.update s.callers caller .top,
    exchanged := new :: s.exchanged }

/-- What an input asks for holds of the inputs that are given. -/
def Act.Given (ok : ι → Prop) : Act α ι → Prop
  | .compute _ input => ok input
  | _ => True

instance {ok : ι → Prop} [DecidablePred ok] : DecidablePred (@Act.Given α ι ok)
  | .compute _ input => inferInstanceAs (Decidable (ok input))
  | .load .. => inferInstanceAs (Decidable True)
  | .exchange .. => inferInstanceAs (Decidable True)

theorem Act.given_true (a : Act α ι) : a.Given fun _ => True := by
  cases a <;> trivial

namespace Loop

section Runs

variable [DecidableEq α] (l : Loop α ι)

/-- One step of a caller. -/
def step (s : Shared α) : Act α ι → Option (Shared α)
  | .load caller seen =>
      match s.callers caller with
      | .top =>
          if seen ∈ s.exchanged ++ [l.initial] then some (s.go caller (.loaded seen)) else none
      | _ => none
  | .compute caller input =>
      match s.callers caller with
      | .loaded seen =>
          match l.propose seen input with
          | some new => some (s.go caller (.exchanging seen new))
          | none => some (s.go caller .top)
      | _ => none
  | .exchange caller spurious =>
      match s.callers caller with
      | .exchanging seen new =>
          if s.word = seen ∧ spurious = false then some (s.put caller new)
          else some (s.go caller .top)
      | _ => none

/-- The runs of the callers. -/
def system : Transition.System (Shared α) (Act α ι) :=
  Transition.ofStep (fun s => s = { word := l.initial }) l.step

variable {l}

/-- A caller goes on to a phase that it may be in, or its exchange succeeds. -/
theorem step_cases {s s' : Shared α} {a : Act α ι} (h : l.step s a = some s') :
    (∃ caller, s' = s.go caller .top) ∨
    (∃ caller seen, s' = s.go caller (.loaded seen)) ∨
    (∃ caller seen input new, a = .compute caller input ∧ l.propose seen input = some new ∧
      s' = s.go caller (.exchanging seen new)) ∨
    ∃ caller new, s.callers caller = .exchanging s.word new ∧ s' = s.put caller new := by
  cases a with
  | load caller seen =>
      cases hc : s.callers caller with
      | top =>
          simp only [step, hc, Option.ite_none_right_eq_some, Option.some.injEq] at h
          exact .inr (.inl ⟨caller, seen, h.2.symm⟩)
      | loaded | exchanging => simp [step, hc] at h
  | compute caller input =>
      cases hc : s.callers caller with
      | loaded seen =>
          cases hp : l.propose seen input with
          | none =>
              simp only [step, hc, hp, Option.some.injEq] at h
              exact .inl ⟨caller, h.symm⟩
          | some new =>
              simp only [step, hc, hp, Option.some.injEq] at h
              exact .inr (.inr (.inl ⟨caller, seen, input, new, rfl, hp, h.symm⟩))
      | top | exchanging => simp [step, hc] at h
  | exchange caller spurious =>
      cases hc : s.callers caller with
      | exchanging seen new =>
          simp only [step, hc] at h
          split at h
          next hword =>
              obtain rfl := hword.1
              exact .inr (.inr (.inr ⟨caller, new, hc, (Option.some.inj h).symm⟩))
          next => exact .inl ⟨caller, (Option.some.inj h).symm⟩
      | top | loaded => simp [step, hc] at h

end Runs

/-! ## Values that grow -/

variable {l : Loop α ι}

/-- The word is the last value put into it, what was put into it goes up, and so does what
callers are about to put into it. -/
structure Growing (l : Loop α ι) (I : α → Prop) (r : α → α → Prop) (s : Shared α) : Prop where
  word : s.word = s.exchanged.headD l.initial
  good : I s.word
  up : (s.exchanged ++ [l.initial]).Pairwise fun later earlier => r earlier later
  pending : ∀ caller seen new, s.callers caller = .exchanging seen new → I seen →
    I new ∧ r seen new

variable {I : α → Prop} {r : α → α → Prop}

/-- Callers that do not touch the word keep that, if what they propose is above. -/
theorem Growing.go {s : Shared α} (h : Growing l I r s) {caller : Nat} {phase : Phase α}
    (hphase : ∀ seen new, phase = .exchanging seen new → I seen → I new ∧ r seen new) :
    Growing l I r (s.go caller phase) where
  word := h.word
  good := h.good
  up := h.up
  pending c seen new hc := by
    simp only [Shared.go, Function.update_apply] at hc
    split at hc
    next => exact hphase seen new hc
    next => exact h.pending c seen new hc

/-- What is above the word is above all that was put into it. -/
theorem Growing.above (trans : ∀ a b c, r a b → r b c → r a c) {s : Shared α}
    (h : Growing l I r s) {new : α} (hnew : r s.word new) :
    ∀ old ∈ s.exchanged ++ [l.initial], r old new := by
  have hup := h.up
  rw [h.word] at hnew
  cases hlist : s.exchanged with
  | nil =>
      rw [hlist, List.headD_nil] at hnew
      intro old hold
      rw [List.nil_append, List.mem_singleton] at hold
      exact hold ▸ hnew
  | cons last rest =>
      rw [hlist, List.headD_cons] at hnew
      rw [hlist] at hup
      intro old hold
      rcases List.mem_cons.1 hold with rfl | hrest
      · exact hnew
      · exact trans _ _ _ ((List.pairwise_cons.1 hup).1 old hrest) hnew

theorem Growing.put (trans : ∀ a b c, r a b → r b c → r a c) {s : Shared α}
    (h : Growing l I r s) {caller : Nat} {new : α}
    (hc : s.callers caller = .exchanging s.word new) : Growing l I r (s.put caller new) := by
  obtain ⟨hgood, hnew⟩ := h.pending caller s.word new hc h.good
  exact {
    word := rfl
    good := hgood
    up := List.pairwise_cons.2 ⟨h.above trans hnew, h.up⟩
    pending := fun c seen new' hc' => by
      simp only [Shared.put, Function.update_apply] at hc'
      split at hc'
      next => cases hc'
      next => exact h.pending c seen new' hc' }

/-- Each value put into the word is above all earlier ones, and above the first, if each
proposal is above the value it was computed from. -/
theorem increasing [DecidableEq α] {ok : ι → Prop} (trans : ∀ a b c, r a b → r b c → r a c)
    (start : I l.initial)
    (up : ∀ seen input new, I seen → ok input → l.propose seen input = some new →
      I new ∧ r seen new) {s : Shared α}
    (hr : l.system.Run (fun _ a => a.Given ok) s) : Growing l I r s := by
  refine hr.invariant ?_ ?_
  · rintro s rfl
    exact {
      word := rfl
      good := start
      up := List.pairwise_singleton _ _
      pending := fun caller seen new hc => by cases hc }
  · intro s a s' h hok hs
    rcases step_cases hs with ⟨caller, rfl⟩ | ⟨caller, seen, rfl⟩ |
      ⟨caller, seen, input, new, rfl, hp, rfl⟩ | ⟨caller, new, hc, rfl⟩
    · exact h.go fun _ _ hphase => by cases hphase
    · exact h.go fun _ _ hphase => by cases hphase
    · refine h.go fun seen' new' hphase hseen => ?_
      obtain ⟨rfl, rfl⟩ := Phase.exchanging.inj hphase
      exact up _ input _ hseen hok hp
    · exact h.put trans hc

/-- What every proposal has, all that is put into the word has. -/
theorem exchanged_of_propose [DecidableEq α] {P : α → Prop}
    (proposed : ∀ seen input new, l.propose seen input = some new → P new) {s : Shared α}
    (hr : l.system.Reachable s) : ∀ new ∈ s.exchanged, P new := by
  have hrun : l.system.Run (fun _ a => a.Given fun _ => True) s := hr.mono fun _ a _ => a.given_true
  have hgrow : Growing l (fun _ => True) (fun _ later => P later) s :=
    increasing (fun _ _ _ _ hlater => hlater) trivial
      (fun seen input new _ _ hnew => ⟨trivial, proposed seen input new hnew⟩) hrun
  intro new hnew
  exact (List.pairwise_append.1 hgrow.up).2.2 new hnew l.initial (List.mem_singleton_self _)

end Loop

end CompareExchange
