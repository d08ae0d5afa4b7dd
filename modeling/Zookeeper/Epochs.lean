import Mathlib.Data.Finset.Max
import Mathlib.Data.List.Perm.Basic
import Mathlib.Order.MinMax

/-!
# The best item of the last epoch

Items have an *epoch* and a *rank*.  A `Standing` is the last epoch that was heard of
and the best rank so far.  An item of an earlier epoch is ignored, any other item is
taken in, and its epoch becomes the last one.

The best rank is kept when the epoch changes, so an item of an earlier epoch counts if
it came in time.  `fold_order_independent` says exactly when the order of the items
makes no difference.
-/

namespace Epochs

variable {E K : Type*} [LinearOrder E] [LinearOrder K]

/-- The last epoch, and the best rank that was taken in. -/
@[ext]
structure Standing (E K : Type*) where
  epoch : E
  best : K

/-- An item is ignored if its epoch is over, and taken in otherwise. -/
def Standing.hear (s : Standing E K) (p : E × K) : Standing E K :=
  if p.1 < s.epoch then s else ⟨p.1, max s.best p.2⟩

namespace Standing

variable {s : Standing E K} {p q : E × K} {ps l : List (E × K)}

theorem hear_of_lt (h : p.1 < s.epoch) : s.hear p = s := by
  rw [hear, if_pos h]

theorem hear_of_le (h : s.epoch ≤ p.1) : s.hear p = ⟨p.1, max s.best p.2⟩ := by
  rw [hear, if_neg (not_lt.mpr h)]

/-- An item moves neither the epoch nor the best rank down. -/
theorem le_hear (s : Standing E K) (p : E × K) :
    s.epoch ≤ (s.hear p).epoch ∧ s.best ≤ (s.hear p).best := by
  rcases lt_or_ge p.1 s.epoch with h | h
  · rw [hear_of_lt h]
    exact ⟨le_refl _, le_refl _⟩
  · rw [hear_of_le h]
    exact ⟨h, le_max_left _ _⟩

theorem le_foldl (l : List (E × K)) : ∀ s : Standing E K,
    s.epoch ≤ (l.foldl hear s).epoch ∧ s.best ≤ (l.foldl hear s).best := by
  induction l with
  | nil => exact fun s => ⟨le_refl _, le_refl _⟩
  | cons p l ih =>
      intro s
      have hp := le_hear s p
      have hl := ih (s.hear p)
      rw [List.foldl_cons]
      exact ⟨hp.1.trans hl.1, hp.2.trans hl.2⟩

/-- The epoch of every item has come. -/
theorem epoch_le_foldl (h : p ∈ l) (s : Standing E K) : p.1 ≤ (l.foldl hear s).epoch := by
  induction l generalizing s with
  | nil => cases h
  | cons q l ih =>
      rw [List.foldl_cons]
      rcases List.mem_cons.mp h with rfl | h
      · refine le_trans ?_ (le_foldl l (s.hear p)).1
        rcases lt_or_ge p.1 s.epoch with hlt | hge
        · exact hlt.le.trans (le_hear s p).1
        · rw [hear_of_le hge]
      · exact ih h (s.hear q)

/-- The epoch is that of the start or of an item. -/
theorem foldl_epoch (l : List (E × K)) : ∀ s : Standing E K,
    (l.foldl hear s).epoch = s.epoch ∨ ∃ p ∈ l, (l.foldl hear s).epoch = p.1 := by
  induction l with
  | nil => exact fun s => .inl rfl
  | cons q l ih =>
      intro s
      rw [List.foldl_cons]
      rcases ih (s.hear q) with h | ⟨p, hp, h⟩
      · rcases lt_or_ge q.1 s.epoch with hlt | hge
        · rw [h, hear_of_lt hlt]
          exact .inl rfl
        · rw [h, hear_of_le hge]
          exact .inr ⟨q, List.mem_cons_self, rfl⟩
      · exact .inr ⟨p, List.mem_cons_of_mem q hp, h⟩

/-- The best rank is that of the start or of an item whose epoch was not over then. -/
theorem foldl_best (l : List (E × K)) : ∀ s : Standing E K,
    (l.foldl hear s).best = s.best ∨ ∃ p ∈ l, s.epoch ≤ p.1 ∧ (l.foldl hear s).best = p.2 := by
  induction l with
  | nil => exact fun s => .inl rfl
  | cons q l ih =>
      intro s
      rw [List.foldl_cons]
      rcases ih (s.hear q) with h | ⟨p, hp, hepoch, h⟩
      · rcases lt_or_ge q.1 s.epoch with hlt | hge
        · rw [h, hear_of_lt hlt]
          exact .inl rfl
        · rw [h, hear_of_le hge]
          rcases max_choice s.best q.2 with hmax | hmax
          · exact .inl hmax
          · exact .inr ⟨q, List.mem_cons_self, hge, hmax⟩
      · exact .inr ⟨p, List.mem_cons_of_mem q hp, (le_hear s q).1.trans hepoch, h⟩

/-- An item that no other item overtakes counts. -/
theorem le_best (h : p ∈ l) (hs : s.epoch ≤ p.1) (hlast : ∀ q ∈ l, q.1 ≤ p.1) :
    p.2 ≤ (l.foldl hear s).best := by
  induction l generalizing s with
  | nil => cases h
  | cons q l ih =>
      rw [List.foldl_cons]
      rcases List.mem_cons.mp h with rfl | h
      · refine le_trans ?_ (le_foldl l (s.hear p)).2
        rw [hear_of_le hs]
        exact le_max_right _ _
      · refine ih h ?_ fun r hr => hlast r (List.mem_cons_of_mem q hr)
        rcases lt_or_ge q.1 s.epoch with hlt | hge
        · rw [hear_of_lt hlt]
          exact hs
        · rw [hear_of_le hge]
          exact hlast q List.mem_cons_self

end Standing

open Standing

/-- No item that a later epoch overtakes beats the start and all items of the last epoch. -/
def LateBest (s : Standing E K) (ps : List (E × K)) : Prop :=
  ∀ p ∈ ps, s.epoch ≤ p.1 → (∃ r ∈ ps, p.1 < r.1) →
    p.2 ≤ s.best ∨ ∃ q ∈ ps, (∀ r ∈ ps, r.1 ≤ q.1) ∧ p.2 ≤ q.2

section Order

variable {s : Standing E K} {ps l l₁ l₂ : List (E × K)}

theorem foldl_epoch_le (h₁ : l₁.Perm ps) (h₂ : l₂.Perm ps) :
    (l₁.foldl hear s).epoch ≤ (l₂.foldl hear s).epoch := by
  rcases foldl_epoch l₁ s with h | ⟨p, hp, h⟩
  · rw [h]
    exact (le_foldl l₂ s).1
  · rw [h]
    exact epoch_le_foldl (h₂.mem_iff.mpr (h₁.mem_iff.mp hp)) s

theorem foldl_best_le (hlate : LateBest s ps) (h₁ : l₁.Perm ps) (h₂ : l₂.Perm ps) :
    (l₁.foldl hear s).best ≤ (l₂.foldl hear s).best := by
  have htop : ∀ p ∈ ps, s.epoch ≤ p.1 → (∀ r ∈ ps, r.1 ≤ p.1) →
      p.2 ≤ (l₂.foldl hear s).best := fun p hp hs hlast =>
    le_best (h₂.mem_iff.mpr hp) hs fun r hr => hlast r (h₂.mem_iff.mp hr)
  rcases foldl_best l₁ s with h | ⟨p, hp, hs, h⟩
  · rw [h]
    exact (le_foldl l₂ s).2
  · have hps := h₁.mem_iff.mp hp
    rw [h]
    by_cases hover : ∃ r ∈ ps, p.1 < r.1
    · rcases hlate p hps hs hover with hbest | ⟨q, hq, hlast, hle⟩
      · exact hbest.trans (le_foldl l₂ s).2
      · exact hle.trans (htop q hq (hs.trans (hlast p hps)) hlast)
    · refine htop p hps hs fun r hr => ?_
      exact not_lt.mp fun hlt => hover ⟨r, hr, hlt⟩

/-- Where the order makes no difference, no overtaken item is better than what is left:
it counts where it comes first, and it is ignored where the last epoch comes first. -/
theorem lateBest_of_order
    (horder : ∀ l₁ l₂ : List (E × K), l₁.Perm ps → l₂.Perm ps →
      l₁.foldl hear s = l₂.foldl hear s) : LateBest s ps := by
  classical
  intro p hp hs hover
  by_contra hno
  obtain ⟨hbest, hlost⟩ := not_or.mp hno
  obtain ⟨q, hq, hlast⟩ := ps.toFinset.exists_max_image Prod.fst ⟨p, List.mem_toFinset.mpr hp⟩
  simp only [List.mem_toFinset] at hq hlast
  have hqs : s.epoch ≤ q.1 := hs.trans (hlast p hp)
  -- `p` comes first.
  have hfirst : p.2 ≤ ((p :: ps.erase p).foldl hear s).best := by
    rw [List.foldl_cons, hear_of_le hs]
    exact (le_max_right s.best p.2).trans (le_foldl (ps.erase p) ⟨p.1, max s.best p.2⟩).2
  -- `q` comes first, and `p` is ignored.
  have hignored : ((q :: ps.erase q).foldl hear s).best < p.2 := by
    have hsmall : ∀ r ∈ ps, q.1 ≤ r.1 → r.2 < p.2 := fun r hr hle =>
      not_le.mp fun hpr => hlost ⟨r, hr, fun t ht => (hlast t ht).trans hle, hpr⟩
    rw [List.foldl_cons, hear_of_le hqs]
    rcases foldl_best (ps.erase q) ⟨q.1, max s.best q.2⟩ with h | ⟨r, hr, hle, h⟩
    · rw [h]
      exact max_lt (not_le.mp hbest) (hsmall q hq (le_refl _))
    · rw [h]
      exact hsmall r (List.mem_of_mem_erase hr) hle
  have heq := horder _ _ (List.perm_cons_erase hp).symm (List.perm_cons_erase hq).symm
  exact absurd (heq ▸ hfirst) (not_le.mpr hignored)

/-- The order of the items makes no difference exactly if no item that a later epoch
overtakes beats the start and the items of the last epoch. -/
theorem fold_order_independent :
    (∀ l₁ l₂ : List (E × K), l₁.Perm ps → l₂.Perm ps → l₁.foldl hear s = l₂.foldl hear s) ↔
      LateBest s ps := by
  constructor
  · exact lateBest_of_order
  · intro hlate l₁ l₂ h₁ h₂
    ext
    · exact le_antisymm (foldl_epoch_le h₁ h₂) (foldl_epoch_le h₂ h₁)
    · exact le_antisymm (foldl_best_le hlate h₁ h₂) (foldl_best_le hlate h₂ h₁)

/-- The same for anything that has an epoch and a rank. -/
theorem map_order_independent {α : Type*} (f : α → E × K) {as : List α} :
    (∀ l₁ l₂ : List α, l₁.Perm as → l₂.Perm as →
      (l₁.map f).foldl hear s = (l₂.map f).foldl hear s) ↔ LateBest s (as.map f) := by
  rw [← fold_order_independent]
  constructor
  · intro horder l₁ l₂ h₁ h₂
    have hmap : ∀ l : List (E × K), l.Perm (as.map f) → ∃ k : List α, l = k.map f ∧ k.Perm as := by
      intro l hl
      have hcomp := congrFun (congrFun (List.eq_map_comp_perm f) l) as
      exact hcomp.mpr hl
    obtain ⟨k₁, rfl, hk₁⟩ := hmap l₁ h₁
    obtain ⟨k₂, rfl, hk₂⟩ := hmap l₂ h₂
    exact horder k₁ k₂ hk₁ hk₂
  · intro horder l₁ l₂ h₁ h₂
    exact horder _ _ (h₁.map f) (h₂.map f)

end Order

end Epochs
