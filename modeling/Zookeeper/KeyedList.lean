import Mathlib.Data.List.Nodup

/-!
# Tables as lists of keys and values

A table from which values are looked up by their keys.  Where no key comes twice, looking
up is membership (`lookup_iff`).  Taking keys out, giving a key another value, and replacing
the value that a key has leave the other keys as they were (`lookup_filter`, `lookup_put`,
`lookup_replace`).  `addNew` adds an entry whose key is not there yet.  It adds all the entries
of a list as long as their keys differ (`addNew_foldl_perm`).
-/

namespace KeyedList

variable {κ : Type*} {ν : Type*} {table entries : List (κ × ν)}

/-- Where no key comes twice, a key finds its entry. -/
theorem lookup_iff [BEq κ] [LawfulBEq κ] (distinct : (table.map Prod.fst).Nodup) {k : κ} {v : ν} :
    table.lookup k = some v ↔ (k, v) ∈ table := by
  induction table with
  | nil => simp
  | cons e rest ih =>
      obtain ⟨key, value⟩ := e
      rw [List.map_cons, List.nodup_cons] at distinct
      rw [List.lookup_cons, List.mem_cons, Prod.mk.injEq]
      cases same : k == key with
      | true =>
          obtain rfl := eq_of_beq same
          have hrest : (k, v) ∉ rest := fun hmem => distinct.1 (List.mem_map.2 ⟨_, hmem, rfl⟩)
          simp [hrest, eq_comm]
      | false => simp only [ih distinct.2, ne_of_beq_false same, false_and, false_or]

variable [DecidableEq κ]

/-- An entry is added unless its key is there. -/
def addNew (table : List (κ × ν)) (e : κ × ν) : List (κ × ν) :=
  if e.1 ∈ table.map Prod.fst then table else e :: table

theorem addNew_of_not_mem {e : κ × ν} (h : e.1 ∉ table.map Prod.fst) :
    addNew table e = e :: table := if_neg h

theorem nodup_addNew (distinct : (table.map Prod.fst).Nodup) (e : κ × ν) :
    ((addNew table e).map Prod.fst).Nodup := by
  rw [addNew]
  split
  next => exact distinct
  next hnew => exact List.nodup_cons.2 ⟨hnew, distinct⟩

/-- Entries whose keys differ are all added. -/
theorem addNew_foldl_perm (distinct : ((entries ++ table).map Prod.fst).Nodup) :
    (entries.foldl addNew table).Perm (entries ++ table) := by
  induction entries generalizing table with
  | nil => exact .refl _
  | cons e entries ih =>
      have hmiddle : (entries ++ e :: table).Perm (e :: entries ++ table) := List.perm_middle
      have hnew : e.1 ∉ table.map Prod.fst := by
        rw [List.cons_append, List.map_cons, List.nodup_cons, List.map_append] at distinct
        exact fun hmem => distinct.1 (List.mem_append_right _ hmem)
      rw [List.foldl_cons, addNew_of_not_mem hnew]
      exact (ih ((hmiddle.map Prod.fst).nodup_iff.2 distinct)).trans hmiddle

/-- The keys that stay are found as before. -/
theorem lookup_filter (table : List (κ × ν)) (keep : κ → Bool) (k : κ) :
    (table.filter fun e => keep e.1).lookup k = if keep k then table.lookup k else none := by
  induction table with
  | nil => simp
  | cons e rest ih =>
      obtain ⟨key, value⟩ := e
      rw [List.filter_cons, List.lookup_cons]
      cases same : k == key with
      | true =>
          obtain rfl := eq_of_beq same
          cases hkeep : keep k <;> simp [hkeep, ih]
      | false => cases hkeep : keep key <;> simp [List.lookup_cons, same, ih]

/-- A value in the place of what its key had. -/
theorem lookup_put (table : List (κ × ν)) (k k' : κ) (v : ν) :
    ((k, v) :: table.filter fun e => e.1 ≠ k).lookup k' =
      if k' = k then some v else table.lookup k' := by
  rw [List.lookup_cons, lookup_filter table (fun key => decide (key ≠ k)) k']
  cases same : k' == k with
  | true => simp [eq_of_beq same]
  | false => simp [ne_of_beq_false same]

/-- A value in the place of what its key had, if it had one. -/
theorem lookup_replace (table : List (κ × ν)) (k k' : κ) (v : ν) :
    (table.map fun e => if e.1 = k then (k, v) else e).lookup k' =
      if k' = k then (table.lookup k).map fun _ => v else table.lookup k' := by
  induction table with
  | nil => simp
  | cons e rest ih =>
      obtain ⟨key, value⟩ := e
      rw [List.map_cons]
      cases same : k' == key with
      | true =>
          obtain rfl := eq_of_beq same
          rcases eq_or_ne k' k with rfl | hne
          · simp
          · simp [hne]
      | false =>
          rcases eq_or_ne key k with rfl | hne
          · simp [List.lookup_cons, same, ne_of_beq_false same, ih]
          · simp [List.lookup_cons, same, hne, beq_false_of_ne hne.symm, ih]

/-- From an empty table on. -/
theorem addNew_nil_perm (distinct : (entries.map Prod.fst).Nodup) :
    (entries.foldl addNew []).Perm entries := by
  rw [← List.append_nil entries] at distinct
  exact (addNew_foldl_perm distinct).trans (.of_eq (List.append_nil entries))

end KeyedList
