import Mathlib.Data.List.Induction
import Mathlib.Data.List.Nodup

/-!
# Removing from a vector without shortening it

`std::remove_if` moves the elements it keeps to the front of a vector and returns the
new end.  The vector keeps its length: what lies behind the new end is erased by the
caller, or it stays.  `removeIf` is the vector a caller has who does not erase, for plain
elements, where to move is to copy.

`removeIf_eq` says what the loop leaves, `removeIf_eq_filter_iff` that it is the wanted
vector only where there was nothing to remove.  `nodup_removeIf_iff` is about vectors
whose elements have a key of their own: removing by key doubles the last element, unless
it is the one to remove.
-/

namespace RemoveIf

variable {α : Type*}

/-- The loop of `std::remove_if`: `todo` elements are still to be read, and `result` is
where the next one that stays is written.  Nothing below `result` is read again. -/
def loop (p : α → Bool) : Nat → Nat → List α → List α
  | 0, _, xs => xs
  | todo + 1, result, xs =>
      match xs[xs.length - (todo + 1)]? with
      | none => xs
      | some x =>
          if p x then loop p todo result xs
          else loop p todo (result + 1) (xs.set result x)

/-- The vector behind `std::remove_if(xs.begin(), xs.end(), p)`. -/
def removeIf (p : α → Bool) (xs : List α) : List α := loop p xs.length 0 xs

variable {p : α → Bool}

/-- What the loop has kept lies in front, and what it has passed over behind that. -/
theorem loop_eq (rest : List α) : ∀ kept passed : List α,
    loop p rest.length kept.length (kept ++ passed ++ rest) =
      kept ++ rest.filter (fun x => !p x) ++
        (passed ++ rest).drop (rest.countP fun x => !p x) := by
  induction rest with
  | nil =>
      intro kept passed
      simp [loop]
  | cons x rest ih =>
      intro kept passed
      have hpos : (kept ++ passed ++ x :: rest).length - (rest.length + 1) =
          (kept ++ passed).length := by
        rw [List.length_append, List.length_cons, Nat.add_sub_cancel]
      have hread : (kept ++ passed ++ x :: rest)[(kept ++ passed ++ x :: rest).length -
          (rest.length + 1)]? = some x := by
        rw [hpos, List.getElem?_append_right (Nat.le_refl _), Nat.sub_self,
          List.getElem?_cons_zero]
      rw [List.length_cons, loop, hread]
      dsimp only
      cases hx : p x with
      | true =>
          -- passed over: the element joins what lies behind the kept ones
          have := ih kept (passed ++ [x])
          simp only [List.append_assoc, List.singleton_append] at this
          simpa [hx] using this
      | false =>
          -- kept: it takes the place of the first element passed over
          obtain ⟨d, ds, hd⟩ : ∃ d ds, passed ++ [x] = d :: ds := by
            cases passed with
            | nil => exact ⟨x, [], rfl⟩
            | cons d ds => exact ⟨d, ds ++ [x], rfl⟩
          have hsplit : passed ++ x :: rest = d :: (ds ++ rest) := by
            rw [← List.singleton_append, ← List.append_assoc, hd, List.cons_append]
          have hset : (kept ++ passed ++ x :: rest).set kept.length x =
              (kept ++ [x]) ++ ds ++ rest := by
            rw [List.append_assoc, hsplit, List.set_append_right _ _ (Nat.le_refl _)]
            simp
          have := ih (kept ++ [x]) ds
          rw [List.length_append, List.length_singleton] at this
          rw [if_neg (by simp), hset, this, hsplit]
          simp [hx]

theorem removeIf_eq (p : α → Bool) (xs : List α) :
    removeIf p xs = xs.filter (fun x => !p x) ++ xs.drop (xs.countP fun x => !p x) := by
  have := loop_eq (p := p) xs [] []
  rwa [List.nil_append, List.nil_append, List.nil_append] at this

@[simp] theorem length_removeIf (p : α → Bool) (xs : List α) :
    (removeIf p xs).length = xs.length := by
  rw [removeIf_eq, List.length_append, ← List.countP_eq_length_filter, List.length_drop]
  have := List.countP_le_length (p := fun x => !p x) (l := xs)
  omega

/-- Where nothing is to be removed nothing moves. -/
theorem removeIf_of_none {xs : List α} (h : ∀ x ∈ xs, p x = false) : removeIf p xs = xs := by
  have hall : ∀ x ∈ xs, (!p x) = true := fun x hx => by rw [h x hx, Bool.not_false]
  rw [removeIf_eq, List.filter_eq_self.mpr hall, List.countP_eq_length.mpr hall,
    List.drop_length, List.append_nil]

/-- Without the erasure the vector is the wanted one only where nothing was to be removed. -/
theorem removeIf_eq_filter_iff (p : α → Bool) (xs : List α) :
    removeIf p xs = xs.filter (fun x => !p x) ↔ ∀ x ∈ xs, p x = false := by
  constructor
  · intro h x hx
    have hlen := congrArg List.length h
    rw [length_removeIf, eq_comm] at hlen
    have := List.length_filter_eq_length_iff.mp hlen x hx
    simpa using this
  · intro h
    rw [removeIf_of_none h]
    exact (List.filter_eq_self.mpr fun x hx => by rw [h x hx, Bool.not_false]).symm

/-! ## Removal by key -/

section Key

variable {κ : Type*} [DecidableEq κ] {f : α → κ} {k : κ}

theorem removeIf_of_not_mem {xs : List α} (h : k ∉ xs.map f) :
    removeIf (fun x => f x == k) xs = xs :=
  removeIf_of_none fun _ hx => beq_false_of_ne fun he => h (List.mem_map.mpr ⟨_, hx, he⟩)

/-- The vector behind the removal of the one element that has the key. -/
theorem removeIf_of_mem {as bs : List α} {x : α} (hx : f x = k)
    (ha : k ∉ as.map f) (hb : k ∉ bs.map f) :
    removeIf (fun x => f x == k) (as ++ x :: bs) = as ++ bs ++ (x :: bs).drop bs.length := by
  have hkeep : ∀ ys : List α, k ∉ ys.map f → ∀ y ∈ ys, (!(f y == k)) = true := by
    intro ys hys y hy
    rw [beq_false_of_ne fun he => hys (List.mem_map.mpr ⟨y, hy, he⟩), Bool.not_false]
  have hdrop : (!(f x == k)) = false := by rw [hx, beq_self_eq_true, Bool.not_true]
  rw [removeIf_eq, List.filter_append, List.filter_cons_of_neg (by simp [hdrop]),
    List.filter_eq_self.mpr (hkeep as ha), List.filter_eq_self.mpr (hkeep bs hb),
    List.countP_append, List.countP_cons_of_neg (by simp [hdrop]),
    List.countP_eq_length.mpr (hkeep as ha), List.countP_eq_length.mpr (hkeep bs hb),
    List.drop_length_add_append]

/-- Removal by key keeps the keys distinct just where the key is missing or is the last one:
otherwise the last element is there twice. -/
theorem nodup_removeIf_iff {xs : List α} (h : (xs.map f).Nodup) :
    ((removeIf (fun x => f x == k) xs).map f).Nodup ↔ k ∉ (xs.map f).dropLast := by
  by_cases hk : k ∈ xs.map f
  · obtain ⟨x, hx, hfx⟩ := List.mem_map.mp hk
    obtain ⟨as, bs, rfl⟩ := List.append_of_mem hx
    rw [List.map_append, List.map_cons, hfx] at h
    have ha : k ∉ as.map f := fun hka => List.disjoint_of_nodup_append h hka List.mem_cons_self
    have hb : k ∉ bs.map f := (List.nodup_cons.mp (List.nodup_append'.mp h).2.1).1
    have hkeys : (as ++ x :: bs).map f = as.map f ++ k :: bs.map f := by
      rw [List.map_append, List.map_cons, hfx]
    rw [removeIf_of_mem hfx ha hb, hkeys]
    cases bs using List.reverseRecOn with
    | nil =>
        have hlast : k ∉ (as.map f ++ [k]).dropLast := by rwa [List.dropLast_concat]
        simpa [hfx] using iff_of_true (by simpa using h) (by simpa using hlast)
    | append_singleton cs c =>
        -- the last element lies in the part that moved, and once more behind it
        have hdouble : (as ++ (cs ++ [c]) ++ (x :: (cs ++ [c])).drop (cs ++ [c]).length).map f =
            (as.map f ++ cs.map f ++ [f c]) ++ [f c] := by
          rw [List.length_append, List.length_singleton, List.drop_succ_cons, List.drop_left]
          simp
        have hmem : k ∈ (as.map f ++ k :: (cs ++ [c]).map f).dropLast := by
          rw [List.map_append, List.map_singleton, ← List.cons_append, ← List.append_assoc,
            List.dropLast_concat]
          simp
        rw [hdouble]
        refine iff_of_false (fun hn => ?_) (fun hn => hn hmem)
        exact List.disjoint_of_nodup_append hn (a := f c) (by simp) (by simp)
  · rw [removeIf_of_not_mem hk]
    exact iff_of_true h fun hd => hk (List.dropLast_subset _ hd)

end Key

end RemoveIf
