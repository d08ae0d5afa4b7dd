import Mathlib.Data.List.Infix

/-!
# Maps from paths

A `PathMap` has entries under paths.  Some entries are folders, and what is above an entry is
one.  A single entry can be altered, one can be added in a folder, and all that is at and
below some paths can be taken away (`alter`, `add`, `prune`).

An entry is reached where it and all that is above it, but for the root, are alive (`Live`).
-/

universe u v

/-- Entries under paths, each in a folder. -/
structure PathMap (κ : Type u) (ε : Type v) (folder : ε → Prop) where
  entry : List κ → Option ε
  root : ∃ e ∈ entry [], folder e
  above : ∀ {path : List κ} {k : κ} {e : ε}, entry (path ++ [k]) = some e →
    ∃ d ∈ entry path, folder d

namespace PathMap

variable {κ : Type u} {ε : Type v} {folder : ε → Prop} {m : PathMap κ ε folder}
  {path rest : List κ} {k : κ} {e : ε}

@[ext] theorem ext {m m' : PathMap κ ε folder} (h : ∀ path, m.entry path = m'.entry path) :
    m = m' := by
  cases m
  cases m'
  obtain rfl := funext h
  rfl

/-- A folder is everywhere above an entry. -/
theorem above_append (h : m.entry (path ++ rest) = some e) (hrest : rest ≠ []) :
    ∃ d ∈ m.entry path, folder d := by
  induction rest using List.reverseRecOn generalizing e with
  | nil => exact absurd rfl hrest
  | append_singleton rest k ih =>
      rw [← List.append_assoc] at h
      obtain ⟨d, hd, hfolder⟩ := m.above h
      cases rest with
      | nil => exact ⟨d, by simpa using hd, hfolder⟩
      | cons k' rest => exact ih hd (List.cons_ne_nil _ _)

/-! ## Changes -/

section

variable [DecidableEq κ]

/-- The entry under a path altered, if there is one. -/
def alter (m : PathMap κ ε folder) (path : List κ) (f : ε → ε)
    (keeps : ∀ e, folder e → folder (f e)) : PathMap κ ε folder where
  entry p := if p = path then (m.entry p).map f else m.entry p
  root := by
    obtain ⟨e, he, hfolder⟩ := m.root
    split
    next => exact ⟨f e, by simp [Option.mem_def.1 he], keeps e hfolder⟩
    next => exact ⟨e, he, hfolder⟩
  above {p k e} h := by
    have habove : ∃ d ∈ m.entry p, folder d := by
      split at h
      next =>
        obtain ⟨e', he', -⟩ := Option.map_eq_some_iff.1 h
        exact m.above he'
      next => exact m.above h
    obtain ⟨d, hd, hfolder⟩ := habove
    split
    next => exact ⟨f d, by simp [Option.mem_def.1 hd], keeps d hfolder⟩
    next => exact ⟨d, hd, hfolder⟩

theorem entry_alter {f : ε → ε} {keeps : ∀ e, folder e → folder (f e)} (p : List κ) :
    (m.alter path f keeps).entry p = if p = path then (m.entry p).map f else m.entry p := rfl

/-- An entry in a folder, where nothing is. -/
def add (m : PathMap κ ε folder) (path : List κ) (k : κ) (e : ε)
    (inside : ∃ d ∈ m.entry path, folder d) (free : m.entry (path ++ [k]) = none) :
    PathMap κ ε folder where
  entry p := if p = path ++ [k] then some e else m.entry p
  root := by
    rw [if_neg fun h => List.append_ne_nil_of_right_ne_nil _ (List.cons_ne_nil k []) h.symm]
    exact m.root
  above {p k' e'} h := by
    have habove : ∃ d ∈ m.entry p, folder d := by
      split at h
      next hp =>
        obtain ⟨rfl, -⟩ := List.append_inj' hp rfl
        exact inside
      next => exact m.above h
    obtain ⟨d, hd, hfolder⟩ := habove
    rw [if_neg fun hp => by rw [← hp, Option.mem_def.1 hd] at free; cases free]
    exact ⟨d, hd, hfolder⟩

theorem entry_add {inside : ∃ d ∈ m.entry path, folder d} {free : m.entry (path ++ [k]) = none}
    (p : List κ) :
    (m.add path k e inside free).entry p = if p = path ++ [k] then some e else m.entry p := rfl

end

/-- Some place below the root and not below the path is marked. -/
def Marked (gone : List κ → Prop) (path : List κ) : Prop :=
  ∃ p k, p ++ [k] <+: path ∧ gone (p ++ [k])

theorem Marked.append {gone : List κ → Prop} (h : Marked gone path) (rest : List κ) :
    Marked gone (path ++ rest) := by
  obtain ⟨p, k, hp, hgone⟩ := h
  exact ⟨p, k, hp.trans (List.prefix_append _ _), hgone⟩

theorem not_marked_nil {gone : List κ → Prop} : ¬ Marked gone [] := by
  rintro ⟨p, k, hp, -⟩
  simp at hp

theorem marked_congr {gone gone' : List κ → Prop}
    (h : ∀ p k, p ++ [k] <+: path → (gone (p ++ [k]) ↔ gone' (p ++ [k]))) :
    Marked gone path ↔ Marked gone' path := by
  constructor
  · rintro ⟨p, k, hp, hgone⟩
    exact ⟨p, k, hp, (h p k hp).1 hgone⟩
  · rintro ⟨p, k, hp, hgone⟩
    exact ⟨p, k, hp, (h p k hp).2 hgone⟩

theorem marked_concat {gone : List κ → Prop} :
    Marked gone (path ++ [k]) ↔ Marked gone path ∨ gone (path ++ [k]) := by
  constructor
  · rintro ⟨p, k', hp, hgone⟩
    rcases List.prefix_concat_iff.1 hp with heq | hp
    · exact .inr (heq ▸ hgone)
    · exact .inl ⟨p, k', hp, hgone⟩
  · rintro (h | h)
    · exact h.append _
    · exact ⟨path, k, List.prefix_rfl, h⟩

theorem marked_cons {gone : List κ → Prop} :
    Marked gone (k :: path) ↔ gone [k] ∨ Marked (fun p => gone (k :: p)) path := by
  constructor
  · rintro ⟨p, k', hp, hgone⟩
    cases p with
    | nil =>
        obtain ⟨rfl, -⟩ := List.cons_prefix_cons.1 hp
        exact .inl hgone
    | cons k'' p =>
        obtain ⟨rfl, hbelow⟩ := List.cons_prefix_cons.1 hp
        exact .inr ⟨p, k', hbelow, hgone⟩
  · rintro (h | ⟨p, k', hp, hgone⟩)
    · exact ⟨[], k, List.cons_prefix_cons.2 ⟨rfl, List.nil_prefix⟩, h⟩
    · exact ⟨k :: p, k', List.cons_prefix_cons.2 ⟨rfl, hp⟩, hgone⟩

theorem marked_append {gone : List κ → Prop} :
    Marked gone (path ++ rest) ↔ Marked gone path ∨ Marked (fun p => gone (path ++ p)) rest := by
  induction rest using List.reverseRecOn with
  | nil =>
      rw [List.append_nil]
      exact (or_iff_left not_marked_nil).symm
  | append_singleton rest k ih =>
      rw [← List.append_assoc, marked_concat, ih, marked_concat, or_assoc, List.append_assoc]

open Classical in
/-- All that is marked, and all below it, taken away.  The root stays. -/
noncomputable def prune (m : PathMap κ ε folder) (gone : List κ → Prop) : PathMap κ ε folder where
  entry p := if Marked gone p then none else m.entry p
  root := by
    rw [if_neg not_marked_nil]
    exact m.root
  above {p k e} h := by
    split at h
    next => cases h
    next hleft =>
      rw [if_neg fun hp => hleft (hp.append [k])]
      exact m.above h

open Classical in
theorem entry_prune {gone : List κ → Prop} (p : List κ) :
    (m.prune gone).entry p = if Marked gone p then none else m.entry p := rfl

/-! ## What is reached -/

/-- All on the way to a path are there and alive, the last one too.  The root is not asked. -/
def Live (alive : ε → Prop) (m : PathMap κ ε folder) (path : List κ) : Prop :=
  ¬ Marked (fun p => ∀ e ∈ m.entry p, ¬ alive e) path

variable {alive : ε → Prop}

theorem live_nil : m.Live alive [] := not_marked_nil

/-- Only what is below the root is asked. -/
theorem live_congr {m' : PathMap κ ε folder}
    (h : ∀ p k, p ++ [k] <+: path → m'.entry (p ++ [k]) = m.entry (p ++ [k])) :
    m'.Live alive path ↔ m.Live alive path :=
  not_congr (marked_congr fun p k hp => by rw [h p k hp])

theorem live_concat :
    m.Live alive (path ++ [k]) ↔ m.Live alive path ∧ ∃ e ∈ m.entry (path ++ [k]), alive e := by
  simp only [Live, marked_concat, not_or, not_forall, not_not, exists_prop]

theorem Live.of_append (h : m.Live alive (path ++ rest)) : m.Live alive path :=
  fun hmarked => h (hmarked.append rest)

/-- The last one, where there is one, is there and alive. -/
theorem Live.last (h : m.Live alive path) (hne : path ≠ []) : ∃ e ∈ m.entry path, alive e := by
  induction path using List.reverseRecOn with
  | nil => exact absurd rfl hne
  | append_singleton path k _ => exact (live_concat.1 h).2

end PathMap
