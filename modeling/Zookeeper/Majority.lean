import Mathlib.Data.Finset.Card
import Mathlib.Data.Fintype.Card

/-!
# Majorities of a finite set of parties

A majority is a set of at least `n / 2 + 1` of the `n` parties.  Two majorities
share a party (`Majority.inter`), a larger set is a majority (`Majority.mono`),
and a majority stays one when a party is exchanged for an absent one
(`Majority.exchange`).
-/

namespace Majority

variable {ι : Type*} [Fintype ι]

/-- At least `n / 2 + 1` of the `n` parties. -/
def IsMajority (Q : Finset ι) : Prop := Fintype.card ι / 2 + 1 ≤ Q.card

instance (Q : Finset ι) : Decidable (IsMajority Q) :=
  inferInstanceAs (Decidable (_ ≤ _))

theorem IsMajority.mono {Q R : Finset ι} (h : IsMajority Q) (hQR : Q ⊆ R) : IsMajority R :=
  le_trans h (Finset.card_le_card hQR)

/-- Two majorities share a party. -/
theorem IsMajority.inter [DecidableEq ι] {Q R : Finset ι} (hQ : IsMajority Q)
    (hR : IsMajority R) : ∃ i, i ∈ Q ∧ i ∈ R := by
  by_contra hno
  have hdisj : Disjoint Q R := by
    rw [Finset.disjoint_left]
    intro i hi hi'
    exact hno ⟨i, hi, hi'⟩
  have hcard : (Q ∪ R).card = Q.card + R.card := Finset.card_union_of_disjoint hdisj
  have hle : (Q ∪ R).card ≤ Fintype.card ι := Finset.card_le_univ _
  rw [IsMajority] at hQ hR
  omega

/-- Exchanging a party for an absent one keeps a majority. -/
theorem IsMajority.exchange [DecidableEq ι] {Q : Finset ι} {p r : ι} (h : IsMajority Q)
    (hp : p ∉ Q) : IsMajority (insert p (Q.erase r)) := by
  have hp' : p ∉ Q.erase r := fun hmem => hp (Finset.mem_of_mem_erase hmem)
  have hcard : (insert p (Q.erase r)).card = (Q.erase r).card + 1 :=
    Finset.card_insert_of_notMem hp'
  have hle : Q.card ≤ (Q.erase r).card + 1 := by
    have := Finset.pred_card_le_card_erase (a := r) (s := Q)
    omega
  unfold IsMajority at h ⊢
  omega

end Majority
