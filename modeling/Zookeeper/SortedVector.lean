import Mathlib.Data.List.InsertIdx
import Mathlib.Data.List.Pairwise

/-!
# Sorted vectors

A vector that is kept sorted by keys, and searched with `std::lower_bound`.  The search
halves the range that is left.  Where the vector is partitioned into entries that are below
and others, it ends between the two (`lowerBound_append`).  Elsewhere it ends somewhere.

`find` looks at the entry there, and `insert` puts a new one there.  In a vector whose keys go
up, `find` finds exactly the entry with a key (`Sorted.find_eq_some_iff`), and it stays one
when an entry is inserted whose key is not there yet (`Sorted.insert`).
-/

namespace SortedVector

universe u v

variable {α : Type u} {κ : Type v}

/-! ## The search -/

/-- The loop of `std::lower_bound`, which has the range of `len` entries from `first` on left. -/
def loop (below : α → Bool) (xs : List α) : Nat → Nat → Nat → Nat
  | 0, first, _ => first
  | fuel + 1, first, len =>
      if len = 0 then first
      else
        match xs[first + len / 2]? with
        | none => first
        | some x =>
            if below x then loop below xs fuel (first + len / 2 + 1) (len - len / 2 - 1)
            else loop below xs fuel first (len / 2)

/-- `std::lower_bound`. -/
def lowerBound (below : α → Bool) (xs : List α) : Nat := loop below xs xs.length 0 xs.length

section Partitioned

variable {below : α → Bool} {before after : List α}

theorem below_iff (hbefore : ∀ x ∈ before, below x = true) (hafter : ∀ x ∈ after, below x = false)
    {i : Nat} {x : α} (hx : (before ++ after)[i]? = some x) :
    below x = true ↔ i < before.length := by
  rcases Nat.lt_or_ge i before.length with hlt | hge
  · rw [List.getElem?_append_left hlt] at hx
    simp [hlt, hbefore x (List.mem_of_getElem? hx)]
  · rw [List.getElem?_append_right hge] at hx
    simp [Nat.not_lt.2 hge, hafter x (List.mem_of_getElem? hx)]

/-- The border of the two parts stays in the range. -/
theorem loop_append (hbefore : ∀ x ∈ before, below x = true)
    (hafter : ∀ x ∈ after, below x = false) {fuel first len : Nat} (hfuel : len ≤ fuel)
    (hrange : first + len ≤ (before ++ after).length) (hfirst : first ≤ before.length)
    (hlast : before.length ≤ first + len) :
    loop below (before ++ after) fuel first len = before.length := by
  induction fuel generalizing first len with
  | zero =>
      rw [loop]
      omega
  | succ fuel ih =>
      rw [loop]
      split
      next hlen => omega
      next hlen =>
          have hx : (before ++ after)[first + len / 2]? = some (before ++ after)[first + len / 2] :=
            List.getElem?_eq_getElem (by omega)
          have hborder := below_iff hbefore hafter hx
          simp only [hx]
          split
          next hbelow =>
              have hmid := hborder.1 hbelow
              exact ih (by omega) (by omega) (by omega) (by omega)
          next hbelow =>
              have hmid := mt hborder.2 hbelow
              exact ih (by omega) (by omega) hfirst (by omega)

theorem lowerBound_append (hbefore : ∀ x ∈ before, below x = true)
    (hafter : ∀ x ∈ after, below x = false) :
    lowerBound below (before ++ after) = before.length :=
  loop_append hbefore hafter (Nat.le_refl _) (by omega) (Nat.zero_le _)
    (by rw [List.length_append]; omega)

theorem insertIdx_append (new : α) :
    (before ++ after).insertIdx before.length new = before ++ new :: after := by
  induction before with
  | nil => rfl
  | cons x xs ih => exact congrArg (x :: ·) ih

end Partitioned

/-! ## Keys -/

section Keyed

variable [LT κ] (key : α → κ) (id : κ)

/-- The keys go up. -/
def Sorted (xs : List α) : Prop := (xs.map key).Pairwise (· < ·)

variable [DecidableLT κ]

/-- Where the entry with a key stands, or belongs. -/
def position (xs : List α) : Nat := lowerBound (fun x => decide (key x < id)) xs

/-- The entry with a key, if it stands where the search ends. -/
def find [DecidableEq κ] (xs : List α) : Option α :=
  xs[position key id xs]?.filter fun x => key x = id

/-- A new entry where the search ends. -/
def insert (new : α) (xs : List α) : List α := xs.insertIdx (position key id xs) new

end Keyed

namespace Sorted

variable [LT κ] {key key' : α → κ} {xs : List α}

theorem congr (h : Sorted key xs) (agree : ∀ x ∈ xs, key' x = key x) : Sorted key' xs := by
  rw [Sorted, List.map_congr_left agree]
  exact h

variable [LE κ] [Std.IsLinearOrder κ] [Std.LawfulOrderLT κ] [DecidableLT κ]

/-- The search splits a sorted vector into lesser keys and others. -/
theorem split (h : Sorted key xs) (id : κ) : ∃ before after, xs = before ++ after ∧
    (∀ x ∈ before, key x < id) ∧ (∀ x ∈ after, ¬key x < id) ∧
    position key id xs = before.length := by
  suffices hparts : ∃ before after, xs = before ++ after ∧
      (∀ x ∈ before, key x < id) ∧ ∀ x ∈ after, ¬key x < id by
    obtain ⟨before, after, rfl, hbefore, hafter⟩ := hparts
    exact ⟨before, after, rfl, hbefore, hafter, lowerBound_append
      (fun x hx => decide_eq_true (hbefore x hx)) fun x hx => decide_eq_false (hafter x hx)⟩
  induction xs with
  | nil => exact ⟨[], [], rfl, by simp, by simp⟩
  | cons y ys ih =>
      rw [Sorted, List.map_cons, List.pairwise_cons] at h
      obtain ⟨hy, hys⟩ := h
      by_cases hlt : key y < id
      · obtain ⟨before, after, rfl, hbefore, hafter⟩ := ih hys
        exact ⟨y :: before, after, rfl, List.forall_mem_cons.2 ⟨hlt, hbefore⟩, hafter⟩
      · refine ⟨[], y :: ys, rfl, by simp, List.forall_mem_cons.2 ⟨hlt, fun x hx hx' => ?_⟩⟩
        exact hlt (Std.lt_trans (hy _ (List.mem_map_of_mem hx)) hx')

theorem find_eq_some_iff [DecidableEq κ] (h : Sorted key xs) {id : κ} {x : α} :
    find key id xs = some x ↔ x ∈ xs ∧ key x = id := by
  obtain ⟨before, after, rfl, hbefore, hafter, hposition⟩ := h.split id
  rw [find, hposition, List.getElem?_append_right (Nat.le_refl _), Nat.sub_self,
    Option.filter_eq_some_iff, decide_eq_true_eq]
  refine and_congr_left fun hx => ?_
  constructor
  · intro hhead
    exact List.mem_append_right _ (List.mem_of_getElem? hhead)
  · intro hmem
    rcases List.mem_append.1 hmem with hmem | hmem
    · exact absurd (hx ▸ hbefore x hmem) Std.lt_irrefl
    · cases after with
      | nil => cases hmem
      | cons y ys =>
          rcases List.mem_cons.1 hmem with rfl | hmem
          · rfl
          · -- the first of the others would be less
            rw [Sorted, List.map_append, List.pairwise_append, List.map_cons,
              List.pairwise_cons] at h
            have hlt := h.2.1.1 _ (List.mem_map_of_mem hmem)
            exact absurd (hx ▸ hlt) (hafter y List.mem_cons_self)

theorem find_eq_none_iff [DecidableEq κ] (h : Sorted key xs) {id : κ} :
    find key id xs = none ↔ ∀ x ∈ xs, key x ≠ id := by
  simp only [Option.eq_none_iff_forall_ne_some, ne_eq, h.find_eq_some_iff, not_and]

theorem mem_insert (h : Sorted key xs) {id : κ} {new x : α} :
    x ∈ SortedVector.insert key id new xs ↔ x = new ∨ x ∈ xs := by
  obtain ⟨before, after, rfl, hbefore, hafter, hposition⟩ := h.split id
  refine List.mem_insertIdx ?_
  rw [hposition, List.length_append]
  omega

/-- A vector stays sorted. -/
theorem insert (h : Sorted key xs) {id : κ} (absent : ∀ x ∈ xs, key x ≠ id) {new : α}
    (agree : ∀ x ∈ xs, key' x = key x) (hnew : key' new = id) :
    Sorted key' (SortedVector.insert key id new xs) := by
  have hkeys := h.congr agree
  obtain ⟨before, after, rfl, hbefore, hafter, hposition⟩ := h.split id
  rw [SortedVector.insert, hposition, insertIdx_append]
  rw [Sorted, List.map_append, List.pairwise_append] at hkeys ⊢
  obtain ⟨hfirst, hlast, hcross⟩ := hkeys
  have hless : ∀ k ∈ before.map key', k < id := by
    intro k hk
    obtain ⟨x, hx, rfl⟩ := List.mem_map.1 hk
    rw [agree x (List.mem_append_left _ hx)]
    exact hbefore x hx
  have hmore : ∀ k ∈ after.map key', id < k := by
    intro k hk
    obtain ⟨x, hx, rfl⟩ := List.mem_map.1 hk
    have hmem := List.mem_append_right before hx
    rw [agree x hmem]
    exact Std.lt_of_le_of_ne (Std.not_lt.1 (hafter x hx)) (absent x hmem).symm
  rw [List.map_cons, hnew]
  refine ⟨hfirst, List.pairwise_cons.2 ⟨hmore, hlast⟩, fun k hk k' hk' => ?_⟩
  rcases List.mem_cons.1 hk' with rfl | hk'
  · exact hless k hk
  · exact hcross k hk k' hk'

end Sorted

end SortedVector
