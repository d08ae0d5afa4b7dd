import Mathlib.Data.List.Basic

/-!
# What a call does under a guard

A *guard* is the handle of one call on a lock: `std::unique_lock`.  It can be given up
and taken again, and giving it up when it is not owned throws.  The trace of a call has
these two, each use of what the lock protects, and marks of the caller's own.

A trace is `Disciplined` if the lock is owned wherever it is given up or what it protects
is used.  `disciplined_append` takes a trace apart at any point.
-/

/-- What a call does with its guard. -/
inductive GuardEvent (ε : Type*) where
  | lock
  | unlock
  /-- What the lock protects is read or changed. -/
  | access
  | mark (e : ε)
deriving DecidableEq, Repr

namespace GuardEvent

variable {ε : Type*}

/-- Whether the guard is owned behind the events. -/
def owned : Bool → List (GuardEvent ε) → Bool
  | o, [] => o
  | _, .lock :: es => owned true es
  | _, .unlock :: es => owned false es
  | o, .access :: es => owned o es
  | o, .mark _ :: es => owned o es

/-- The lock is given up somewhere without being owned. -/
def throws : Bool → List (GuardEvent ε) → Bool
  | _, [] => false
  | _, .lock :: es => throws true es
  | o, .unlock :: es => !o || throws false es
  | o, .access :: es => throws o es
  | o, .mark _ :: es => throws o es

/-- The lock is owned wherever it has to be. -/
def Disciplined : Bool → List (GuardEvent ε) → Prop
  | _, [] => True
  | o, .lock :: es => o = false ∧ Disciplined true es
  | o, .unlock :: es => o = true ∧ Disciplined false es
  | o, .access :: es => o = true ∧ Disciplined o es
  | o, .mark _ :: es => Disciplined o es

theorem disciplined_append (o : Bool) (es fs : List (GuardEvent ε)) :
    Disciplined o (es ++ fs) ↔ Disciplined o es ∧ Disciplined (owned o es) fs := by
  induction es generalizing o with
  | nil => exact ⟨fun h => ⟨trivial, h⟩, fun h => h.2⟩
  | cons e es ih =>
      rw [List.cons_append]
      cases e with
      | lock => rw [Disciplined, ih, Disciplined, owned, and_assoc]
      | unlock => rw [Disciplined, ih, Disciplined, owned, and_assoc]
      | access => rw [Disciplined, ih, Disciplined, owned, and_assoc]
      | mark => rw [Disciplined, ih, Disciplined, owned]

/-- A disciplined call is not ended by its guard. -/
theorem Disciplined.not_throws {o : Bool} {es : List (GuardEvent ε)} (h : Disciplined o es) :
    throws o es = false := by
  induction es generalizing o with
  | nil => rfl
  | cons e es ih =>
      cases e with
      | lock =>
          rw [throws]
          exact ih h.2
      | unlock =>
          rw [throws, h.1]
          exact ih h.2
      | access =>
          rw [throws]
          exact ih h.2
      | mark =>
          rw [throws]
          exact ih h

end GuardEvent
