import Mathlib.Logic.Nontrivial.Basic

/-!
# Patterns with stars

A pattern is a list in which one symbol, the *star*, stands for any list.  `Matches star p s`
says that the pattern `p` stands for `s`.

A pattern falls into pieces at its stars.  `InOrder pieces s` says that the pieces are found
in `s` one behind the other, with anything in between, in front and behind.  `inOrder_iff`
compares the two: the pieces of `p` are in order in what the pattern stands for between two
more stars.  `padded_iff` says for which patterns these stars make no difference.

To look for pieces in order it is enough to take the first place at which each of them is
found (`InOrder.skip`).
-/

namespace Glob

variable {α : Type*}

/-- A pattern stands for a list. -/
inductive Matches (star : α) : List α → List α → Prop where
  | nil : Matches star [] []
  | lit {c : α} {p s : List α} : c ≠ star → Matches star p s → Matches star (c :: p) (c :: s)
  | skip {p s : List α} : Matches star p s → Matches star (star :: p) s
  | more {c : α} {p s : List α} : Matches star (star :: p) s → Matches star (star :: p) (c :: s)

/-- Pieces are found one behind the other. -/
inductive InOrder : List (List α) → List α → Prop where
  | nil {s : List α} : InOrder [] s
  | cons {piece : List α} {pieces : List (List α)} {front back : List α} :
      InOrder pieces back → InOrder (piece :: pieces) (front ++ (piece ++ back))

variable {star c : α} {p q s t : List α} {piece : List α} {pieces : List (List α)}

/-! ## Patterns -/

theorem matches_nil : Matches star [] s ↔ s = [] := by
  constructor
  · intro h
    cases h
    rfl
  · rintro rfl
    exact .nil

/-- A star stands for anything in front of what follows. -/
theorem matches_star : Matches star (star :: p) s ↔ ∃ front back, s = front ++ back ∧
    Matches star p back := by
  constructor
  · intro h
    induction s with
    | nil =>
        cases h with
        | skip h => exact ⟨[], [], rfl, h⟩
    | cons c s ih =>
        cases h with
        | lit hne _ => exact absurd rfl hne
        | skip h => exact ⟨[], c :: s, rfl, h⟩
        | more h =>
            obtain ⟨front, back, rfl, hback⟩ := ih h
            exact ⟨c :: front, back, rfl, hback⟩
  · rintro ⟨front, back, rfl, h⟩
    induction front with
    | nil => exact .skip h
    | cons c front ih => exact .more ih

/-- Any other symbol stands for itself. -/
theorem matches_lit (hc : c ≠ star) :
    Matches star (c :: p) s ↔ ∃ t, s = c :: t ∧ Matches star p t := by
  constructor
  · intro h
    cases h with
    | lit _ h => exact ⟨_, rfl, h⟩
    | skip _ => exact absurd rfl hc
    | more _ => exact absurd rfl hc
  · rintro ⟨t, rfl, h⟩
    exact .lit hc h

theorem matches_append [DecidableEq α] :
    Matches star (p ++ q) s ↔ ∃ a b, s = a ++ b ∧ Matches star p a ∧ Matches star q b := by
  induction p generalizing s with
  | nil =>
      simp only [List.nil_append, matches_nil]
      constructor
      · intro h
        exact ⟨[], s, rfl, rfl, h⟩
      · rintro ⟨_, b, rfl, rfl, h⟩
        exact h
  | cons c p ih =>
      rw [List.cons_append]
      by_cases hc : c = star
      · subst hc
        rw [matches_star]
        constructor
        · rintro ⟨front, back, rfl, h⟩
          obtain ⟨a, b, rfl, ha, hb⟩ := ih.mp h
          exact ⟨front ++ a, b, (List.append_assoc _ _ _).symm,
            matches_star.mpr ⟨front, a, rfl, ha⟩, hb⟩
        · rintro ⟨a, b, rfl, ha, hb⟩
          obtain ⟨front, back, rfl, hback⟩ := matches_star.mp ha
          exact ⟨front, back ++ b, List.append_assoc _ _ _, ih.mpr ⟨back, b, rfl, hback, hb⟩⟩
      · rw [matches_lit hc]
        constructor
        · rintro ⟨t, rfl, h⟩
          obtain ⟨a, b, rfl, ha, hb⟩ := ih.mp h
          exact ⟨c :: a, b, rfl, .lit hc ha, hb⟩
        · rintro ⟨a, b, rfl, ha, hb⟩
          obtain ⟨t, rfl, ht⟩ := (matches_lit hc).mp ha
          exact ⟨t ++ b, rfl, ih.mpr ⟨t, b, rfl, ht, hb⟩⟩

theorem matches_singleton_star : Matches star [star] s :=
  matches_star.mpr ⟨s, [], (List.append_nil s).symm, .nil⟩

/-- What a pattern stands for ends as the pattern does, but for a star. -/
theorem getLast_of_matches [DecidableEq α] (hc : c ≠ star) (h : Matches star (p ++ [c]) s) :
    s.getLast? = some c := by
  obtain ⟨x, y, rfl, _, hy⟩ := matches_append.mp h
  obtain ⟨t, rfl, ht⟩ := (matches_lit hc).mp hy
  obtain rfl := matches_nil.mp ht
  exact List.getLast?_concat

/-- A pattern stands for itself without its stars. -/
theorem exists_matches [DecidableEq α] (star : α) (p : List α) : ∃ s, Matches star p s := by
  induction p with
  | nil => exact ⟨[], .nil⟩
  | cons c p ih =>
      obtain ⟨s, hs⟩ := ih
      by_cases hc : c = star
      · subst hc
        exact ⟨s, .skip hs⟩
      · exact ⟨c :: s, .lit hc hs⟩

/-! ## Pieces in order -/

/-- What is in front makes no difference. -/
theorem InOrder.append_left (h : InOrder pieces s) (t : List α) : InOrder pieces (t ++ s) := by
  cases h with
  | nil => exact .nil
  | cons h =>
      rw [← List.append_assoc]
      exact .cons h

/-- An empty piece is found anywhere. -/
theorem inOrder_nil_cons : InOrder ([] :: pieces) s ↔ InOrder pieces s := by
  constructor
  · intro h
    cases h with
    | cons h => exact (h.append_left []).append_left _
  · intro h
    rw [← List.nil_append s]
    exact .cons h

/-- Where a piece is first found, the other pieces are found behind it. -/
theorem InOrder.skip {front back : List α}
    (h : InOrder (piece :: pieces) (front ++ (piece ++ back)))
    (hfirst : ∀ front' back', front ++ (piece ++ back) = front' ++ (piece ++ back') →
      front.length ≤ front'.length) : InOrder pieces back := by
  generalize hs : front ++ (piece ++ back) = s at h
  generalize hall : piece :: pieces = all at h
  cases h with
  | nil => cases hall
  | @cons _ _ front' back' hrest =>
      cases hall
      have hle := hfirst front' back' hs
      have hlen := congrArg List.length hs
      simp only [List.length_append] at hlen
      have hback : back <:+ front ++ (piece ++ back) :=
        (List.suffix_append piece back).trans (List.suffix_append front _)
      have hback' : back' <:+ front ++ (piece ++ back) := by
        rw [hs]
        exact (List.suffix_append piece back').trans (List.suffix_append front' _)
      obtain ⟨between, hbetween⟩ := List.suffix_of_suffix_length_le hback' hback (by omega)
      rw [← hbetween]
      exact hrest.append_left between

/-- A list begins with the first piece, and has the others in order behind it. -/
def FromStart : List (List α) → List α → Prop
  | [], _ => True
  | piece :: pieces, s => ∃ back, s = piece ++ back ∧ InOrder pieces back

theorem inOrder_iff_fromStart :
    InOrder (piece :: pieces) s ↔
      ∃ front t, s = front ++ t ∧ FromStart (piece :: pieces) t := by
  constructor
  · intro h
    cases h with
    | cons h => exact ⟨_, _, rfl, _, rfl, h⟩
  · rintro ⟨front, _, rfl, back, rfl, h⟩
    exact .cons h

section Pieces

variable [DecidableEq α]

/-- The pieces of a pattern stand at the start of what begins with something that the
pattern stands for. -/
theorem fromStart_iff (star : α) (p s : List α) :
    FromStart (p.splitOn star) s ↔ ∃ a b, s = a ++ b ∧ Matches star p a := by
  induction p generalizing s with
  | nil =>
      rw [List.splitOn_nil]
      constructor
      · intro _
        exact ⟨[], s, rfl, .nil⟩
      · intro _
        exact ⟨s, rfl, .nil⟩
  | cons c p ih =>
      obtain ⟨piece, pieces, hsplit⟩ := List.exists_cons_of_ne_nil (List.splitOn_ne_nil star p)
      rw [hsplit] at ih
      rw [List.splitOn_cons_eq_if_modifyHead, hsplit]
      by_cases hc : c = star
      · subst hc
        rw [if_pos (beq_self_eq_true c)]
        constructor
        · rintro ⟨back, rfl, h⟩
          obtain ⟨front, t, rfl, ht⟩ := inOrder_iff_fromStart.mp h
          obtain ⟨a, b, rfl, ha⟩ := (ih t).mp ht
          exact ⟨front ++ a, b, (List.append_assoc _ _ _).symm,
            matches_star.mpr ⟨front, a, rfl, ha⟩⟩
        · rintro ⟨a, b, rfl, ha⟩
          obtain ⟨front, t, rfl, ht⟩ := matches_star.mp ha
          refine ⟨front ++ t ++ b, rfl, inOrder_iff_fromStart.mpr ?_⟩
          exact ⟨front, t ++ b, List.append_assoc _ _ _, (ih _).mpr ⟨t, b, rfl, ht⟩⟩
      · rw [if_neg (by rw [beq_iff_eq]; exact hc), List.modifyHead_cons]
        constructor
        · rintro ⟨back, rfl, h⟩
          obtain ⟨a, b, heq, ha⟩ := (ih _).mp ⟨back, rfl, h⟩
          exact ⟨c :: a, b, congrArg (List.cons c) heq, .lit hc ha⟩
        · rintro ⟨a, b, rfl, ha⟩
          obtain ⟨t, rfl, ht⟩ := (matches_lit hc).mp ha
          obtain ⟨back, heq, h⟩ := (ih (t ++ b)).mpr ⟨t, b, rfl, ht⟩
          exact ⟨back, congrArg (List.cons c) heq, h⟩

/-- A pattern between two more stars stands for what has its pieces in order. -/
theorem inOrder_iff (star : α) (p s : List α) :
    InOrder (p.splitOn star) s ↔ Matches star (star :: (p ++ [star])) s := by
  obtain ⟨piece, pieces, hsplit⟩ := List.exists_cons_of_ne_nil (List.splitOn_ne_nil star p)
  have hstart : ∀ t, FromStart (piece :: pieces) t ↔ Matches star (p ++ [star]) t := by
    intro t
    rw [← hsplit, fromStart_iff, matches_append]
    simp only [matches_singleton_star, and_true]
  rw [hsplit, inOrder_iff_fromStart, matches_star]
  simp only [hstart]

/-! ## Stars around a pattern -/

/-- What a pattern stands for, it stands for between two more stars. -/
theorem Matches.padded (h : Matches star p s) : Matches star (star :: (p ++ [star])) s := by
  refine .skip (matches_append.mpr ⟨s, [], (List.append_nil s).symm, h, matches_singleton_star⟩)

/-- Two more stars make no difference exactly if the pattern begins and ends with a star. -/
theorem padded_iff [Nontrivial α] (star : α) (p : List α) :
    (∀ s, Matches star (star :: (p ++ [star])) s → Matches star p s) ↔
      p.head? = some star ∧ p.getLast? = some star := by
  constructor
  · intro h
    obtain ⟨s, hs⟩ := exists_matches star p
    constructor
    · -- something else in front
      cases p with
      | nil =>
          obtain ⟨c, _⟩ := exists_ne star
          have hc := h [c] (matches_star.mpr ⟨[c], [], rfl, matches_singleton_star⟩)
          cases hc
      | cons a p =>
          obtain ⟨c, hne⟩ := exists_ne a
          have hc := h (c :: s) (.more hs.padded)
          by_cases ha : a = star
          · rw [ha]
            rfl
          · obtain ⟨t, heq, _⟩ := (matches_lit ha).mp hc
            exact absurd (List.cons.inj heq).1 hne
    · -- something else behind
      rcases List.eq_nil_or_concat p with rfl | ⟨q, a, rfl⟩
      · obtain ⟨c, _⟩ := exists_ne star
        have hc := h [c] (matches_star.mpr ⟨[c], [], rfl, matches_singleton_star⟩)
        cases hc
      · obtain ⟨c, hne⟩ := exists_ne a
        rw [List.concat_eq_append] at h hs ⊢
        have hc := h (s ++ [c]) (.skip (matches_append.mpr
          ⟨s, [c], rfl, hs, matches_singleton_star⟩))
        by_cases ha : a = star
        · rw [ha, List.getLast?_concat]
        · have hlast := getLast_of_matches ha hc
          rw [List.getLast?_concat, Option.some.injEq] at hlast
          exact absurd hlast hne
  · rintro ⟨hhead, hlast⟩ s h
    -- the star in front of the pattern goes to the star it begins with
    have hbehind : Matches star (p ++ [star]) s := by
      cases p with
      | nil => cases hhead
      | cons a q =>
          obtain rfl := Option.some.inj hhead
          obtain ⟨front, back, rfl, hback⟩ := matches_star.mp h
          obtain ⟨front', back', rfl, hback'⟩ := matches_star.mp hback
          exact matches_star.mpr ⟨front ++ front', back', (List.append_assoc _ _ _).symm, hback'⟩
    obtain ⟨a, b, rfl, ha, _⟩ := matches_append.mp hbehind
    rcases List.eq_nil_or_concat p with rfl | ⟨q, c, rfl⟩
    · cases hhead
    · rw [List.concat_eq_append, List.getLast?_concat, Option.some.injEq] at hlast
      obtain rfl := hlast
      rw [List.concat_eq_append] at ha ⊢
      obtain ⟨x, y, rfl, hx, _⟩ := matches_append.mp ha
      rw [List.append_assoc]
      exact matches_append.mpr ⟨x, y ++ b, rfl, hx, matches_singleton_star⟩

end Pieces

end Glob
