import Mathlib.Data.List.Basic

/-!
# A list filled in pieces

A list is to be filled with a content, in pieces of one length that come in any order
and any number of times.  A flag for each piece says whether it has come.

`Filled` says that the list has the content where a flag is set.  It is kept while every
place stays or gets its content (`Filled.keep`), a flag may be set for a piece that is
there (`Filled.set`), and once every flag is set the list is the content
(`Filled.complete`).
-/

namespace Pieces

variable {α : Type*} {n : Nat} {content xs ys : List α} {flags : List Bool}

/-- The list has the right length, and the content where a flag is set. -/
structure Filled (n : Nat) (content : List α) (flags : List Bool) (xs : List α) : Prop where
  length_eq : xs.length = content.length
  place : ∀ j : Nat, flags[j / n]? = some true → xs[j]? = content[j]?

/-- Without a flag that is set, the content of the list does not matter. -/
theorem filled_replicate (count : Nat) (h : xs.length = content.length) :
    Filled n content (List.replicate count false) xs where
  length_eq := h
  place j hflag := by
    rw [List.getElem?_replicate] at hflag
    split at hflag <;> simp at hflag

namespace Filled

/-- Every place stays or gets its content. -/
theorem keep (h : Filled n content flags xs) (hlength : ys.length = xs.length)
    (hplace : ∀ j : Nat, ys[j]? = content[j]? ∨ ys[j]? = xs[j]?) : Filled n content flags ys where
  length_eq := hlength.trans h.length_eq
  place j hflag := by
    rcases hplace j with hnew | hold
    · exact hnew
    · rw [hold]
      exact h.place j hflag

/-- The flag of a piece that is there is set. -/
theorem set (h : Filled n content flags xs) {i : Nat}
    (hpiece : ∀ j : Nat, j / n = i → xs[j]? = content[j]?) :
    Filled n content (flags.set i true) xs where
  length_eq := h.length_eq
  place j hflag := by
    rcases Nat.decEq (j / n) i with hne | heq
    · rw [List.getElem?_set_ne (Ne.symm hne)] at hflag
      exact h.place j hflag
    · exact hpiece j heq

/-- With every flag set, the list is the content. -/
theorem complete (h : Filled n content flags xs) (hflags : flags.length = content.length / n)
    (hwhole : n ∣ content.length) (hall : false ∉ flags) : xs = content := by
  apply List.ext_getElem?
  intro j
  rcases Nat.lt_or_ge j content.length with hlt | hge
  · have hindex : j / n < flags.length := by
      rw [hflags]
      exact Nat.div_lt_div_of_lt_of_dvd hwhole hlt
    have hflag : flags[j / n] = true := by
      have hmem : flags[j / n] ∈ flags := List.getElem_mem hindex
      cases hvalue : flags[j / n] with
      | true => rfl
      | false => exact absurd (hvalue ▸ hmem) hall
    exact h.place j (by rw [List.getElem?_eq_getElem hindex, hflag])
  · rw [List.getElem?_eq_none hge, List.getElem?_eq_none (h.length_eq ▸ hge)]

end Filled

end Pieces
