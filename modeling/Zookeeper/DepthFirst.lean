import Mathlib.Data.Finset.Card
import Mathlib.Data.Finset.Filter
import Mathlib.Logic.Relation

/-!
# Visiting depth first

`visit next fuel seen a` goes from `a` along `next` to everything that has not been seen.
The fuel bounds the depth, and there is no result where it does not suffice.

`Visited` says what a visit has seen in the end: no more than can be reached, and with
everything new also what is next to it.  `visit_some` says that a visit comes to an end
where no more than finitely much can be reached.
-/

namespace DepthFirst

variable {α : Type*} {next : α → List α} {seen mid seen' : List α} {a b : α} {places : List α}

/-- Places are reached along `next`. -/
abbrev Reach (next : α → List α) : α → α → Prop := Relation.ReflTransGen fun b c => c ∈ next b

/-- All places have been visited. -/
structure Visited (next : α → List α) (seen places seen' : List α) : Prop where
  grows : ∀ b ∈ seen, b ∈ seen'
  all : ∀ a ∈ places, a ∈ seen'
  closed : ∀ b ∈ seen', b ∉ seen → ∀ c ∈ next b, c ∈ seen'
  reached : ∀ b ∈ seen', b ∈ seen ∨ ∃ a ∈ places, Reach next a b
  nodup : seen.Nodup → seen'.Nodup

namespace Visited

theorem nil (seen : List α) : Visited next seen [] seen where
  grows _ h := h
  all _ h := by cases h
  closed _ h hnew := absurd h hnew
  reached _ h := .inl h
  nodup h := h

theorem cons (h : Visited next seen [a] mid) (h' : Visited next mid places seen') :
    Visited next seen (a :: places) seen' where
  grows b hb := h'.grows b (h.grows b hb)
  all b hb := by
    rcases List.mem_cons.mp hb with rfl | hb
    · exact h'.grows _ (h.all _ List.mem_cons_self)
    · exact h'.all b hb
  closed b hb hnew c hc := by
    by_cases hmid : b ∈ mid
    · exact h'.grows c (h.closed b hmid hnew c hc)
    · exact h'.closed b hb hmid c hc
  reached b hb := by
    rcases h'.reached b hb with hmid | ⟨d, hd, hreach⟩
    · rcases h.reached b hmid with hseen | ⟨d, hd, hreach⟩
      · exact .inl hseen
      · obtain rfl := List.mem_singleton.mp hd
        exact .inr ⟨d, List.mem_cons_self, hreach⟩
    · exact .inr ⟨d, List.mem_cons_of_mem a hd, hreach⟩
  nodup hseen := h'.nodup (h.nodup hseen)

/-- A place that has been seen is left alone. -/
theorem of_seen (h : a ∈ seen) : Visited next seen [a] seen where
  grows _ h := h
  all b hb := by rwa [List.mem_singleton.mp hb]
  closed _ h hnew := absurd h hnew
  reached _ h := .inl h
  nodup h := h

/-- A place that is new is seen, and then what is next to it. -/
theorem enter (hnew : a ∉ seen) (h : Visited next (seen ++ [a]) (next a) seen') :
    Visited next seen [a] seen' where
  grows b hb := h.grows b (List.mem_append_left [a] hb)
  all b hb := by
    rw [List.mem_singleton.mp hb]
    exact h.grows a (List.mem_append_right seen List.mem_cons_self)
  closed b hb hb' c hc := by
    by_cases hba : b = a
    · exact h.all c (hba ▸ hc)
    · refine h.closed b hb ?_ c hc
      rw [List.mem_append, List.mem_singleton, not_or]
      exact ⟨hb', hba⟩
  reached b hb := by
    rcases h.reached b hb with hmem | ⟨c, hc, hreach⟩
    · rcases List.mem_append.mp hmem with hmem | hmem
      · exact .inl hmem
      · rw [List.mem_singleton.mp hmem]
        exact .inr ⟨a, List.mem_cons_self, .refl⟩
    · exact .inr ⟨a, List.mem_cons_self, .head hc hreach⟩
  nodup hseen := h.nodup (List.nodup_append.mpr ⟨hseen, List.nodup_singleton a, by
    rintro b hb _ hc rfl
    rw [List.mem_singleton.mp hc] at hb
    exact hnew hb⟩)

end Visited

/-! ## The visit -/

variable [DecidableEq α] {fuel : Nat}

/-- Go from a place to all that has not been seen. -/
def visit (next : α → List α) : Nat → List α → α → Option (List α)
  | 0, _, _ => none
  | fuel + 1, seen, a =>
      if a ∈ seen then some seen else (next a).foldlM (visit next fuel) (seen ++ [a])

/-- What holds of each visit holds of visits one after the other. -/
theorem foldlM_visited (step : ∀ {seen seen' : List α} {a : α},
      visit next fuel seen a = some seen' → Visited next seen [a] seen')
    (h : places.foldlM (visit next fuel) seen = some seen') :
    Visited next seen places seen' := by
  induction places generalizing seen with
  | nil =>
      cases h
      exact .nil _
  | cons a places ih =>
      rw [List.foldlM_cons] at h
      obtain ⟨mid, hmid, hrest⟩ := Option.bind_eq_some_iff.mp h
      exact (step hmid).cons (ih hrest)

theorem visit_visited (h : visit next fuel seen a = some seen') : Visited next seen [a] seen' := by
  induction fuel generalizing seen seen' a with
  | zero => cases h
  | succ fuel ih =>
      rw [visit] at h
      split at h
      next hseen =>
        cases h
        exact .of_seen hseen
      next hnew => exact .enter hnew (foldlM_visited ih h)

/-- How many places of a set have not been seen. -/
def unseen (places : Finset α) (seen : List α) : Nat := (places.filter (· ∉ seen)).card

theorem unseen_anti (places : Finset α) (h : ∀ b ∈ seen, b ∈ seen') :
    unseen places seen' ≤ unseen places seen := by
  refine Finset.card_le_card fun b hb => ?_
  rw [Finset.mem_filter] at hb ⊢
  exact ⟨hb.1, fun hmem => hb.2 (h b hmem)⟩

theorem unseen_enter {places : Finset α} (h : a ∈ places) (hnew : a ∉ seen) :
    unseen places (seen ++ [a]) < unseen places seen := by
  refine Finset.card_lt_card (Finset.ssubset_iff_of_subset ?_ |>.mpr ⟨a, ?_, ?_⟩)
  · intro b hb
    rw [Finset.mem_filter] at hb ⊢
    exact ⟨hb.1, fun hmem => hb.2 (List.mem_append_left [a] hmem)⟩
  · exact Finset.mem_filter.mpr ⟨h, hnew⟩
  · rw [Finset.mem_filter, not_and_not_right]
    exact fun _ => List.mem_append_right seen List.mem_cons_self

/-- In a finite set that `next` does not leave, a visit comes to an end. -/
theorem visit_some {all : Finset α} (hclosed : ∀ b ∈ all, ∀ c ∈ next b, c ∈ all) (ha : a ∈ all)
    (hfuel : unseen all seen < fuel) : ∃ seen', visit next fuel seen a = some seen' := by
  induction fuel generalizing seen a with
  | zero => exact absurd hfuel (Nat.not_lt_zero _)
  | succ fuel ih =>
      rw [visit]
      split
      next => exact ⟨seen, rfl⟩
      next hnew =>
        have hless := unseen_enter ha hnew
        have hrest : ∀ (places mid : List α), (∀ b ∈ places, b ∈ all) → unseen all mid < fuel →
            ∃ seen', places.foldlM (visit next fuel) mid = some seen' := by
          intro places
          induction places with
          | nil => exact fun mid _ _ => ⟨mid, rfl⟩
          | cons b places ihplaces =>
              intro mid hplaces hmid
              obtain ⟨mid', hb⟩ := ih (hplaces b List.mem_cons_self) hmid
              have hgrows := (visit_visited hb).grows
              rw [List.foldlM_cons, hb]
              exact ihplaces mid' (fun c hc => hplaces c (List.mem_cons_of_mem b hc))
                (Nat.lt_of_le_of_lt (unseen_anti all hgrows) hmid)
        exact hrest (next a) (seen ++ [a]) (hclosed a ha) (by omega)

end DepthFirst
