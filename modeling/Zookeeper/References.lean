import Mathlib.Data.List.Perm.Basic
import Mathlib.Logic.Function.Basic

/-!
# Objects that count their references

Objects with a machine integer that what refers to them adds to and takes from.  `Counted`
says that every count is the number of references, in the arithmetic of the integer, so a
count may wrap on the way.  It is kept by what comes with a reference (`Counted.acquire`)
and goes with one (`Counted.release`), and an object without references has the count zero.
-/

namespace References

variable {π : Type*} [DecidableEq π] {count : π → Int32} {refs refs' : List π} {p : π}

/-- The counts are the numbers of the references. -/
def Counted (count : π → Int32) (refs : List π) : Prop :=
  ∀ p, count p = Int32.ofNat (refs.count p)

namespace Counted

theorem perm (h : Counted count refs) (same : refs.Perm refs') : Counted count refs' :=
  fun p => (h p).trans (by rw [same.count_eq])

/-- Nothing refers to an object, so it is not counted. -/
theorem zero (h : Counted count refs) (unused : p ∉ refs) : count p = 0 := by
  rw [h p, List.count_eq_zero_of_not_mem unused]
  rfl

theorem acquire (h : Counted count refs) (p : π) :
    Counted (Function.update count p (count p + 1)) (p :: refs) := by
  intro q
  rcases eq_or_ne q p with rfl | hne
  · rw [Function.update_self, List.count_cons_self, Int32.ofNat_add, ← h q]
    rfl
  · rw [Function.update_of_ne hne, List.count_cons_of_ne hne.symm, h q]

/-- The first reference to an object that is new. -/
theorem fresh (h : Counted count refs) (unused : p ∉ refs) :
    Counted (Function.update count p 1) (p :: refs) := by
  have hfirst := h.acquire p
  rw [h.zero unused] at hfirst
  exact hfirst

theorem release (h : Counted count (p :: refs)) :
    Counted (Function.update count p (count p - 1)) refs := by
  intro q
  rcases eq_or_ne q p with rfl | hne
  · rw [Function.update_self, h q, List.count_cons_self, Int32.ofNat_add]
    exact Int32.add_sub_cancel _ _
  · rw [Function.update_of_ne hne, h q, List.count_cons_of_ne hne.symm]

end Counted

end References
