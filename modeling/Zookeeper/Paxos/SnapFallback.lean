import Zookeeper.KeyedList
import Zookeeper.Paxos.LogFile

/-!
# The search for a snapshot

`DataSet::Load` walks the snapshots from the newest to the oldest.  One that cannot be
loaded is removed, but the iterator stays where it is, so the loop tries the file it has
just removed (`paxos/transaction/dataset.cpp`).

`fallback` is the loop with an iterator that moves on.  `falls_back_iff` says when the
loop does the same: there is nothing to fall back from.
-/

namespace Paxos

variable {σ : Type}

/-! ## The loop -/

/-- `IStateData::LoadFromFile`, on the contents of a file, or on none if it is missing.
A load that fails may leave another state. -/
abbrev FileLoader (σ : Type) := σ → Option Bytes → σ × Bool

/-- How the search ends. -/
structure SnapEnd (σ : Type) where
  stateData : σ
  /-- What `_minZxId` is set to. -/
  loaded : Option Int64
  /-- The snapshots left in the directory. -/
  snap : List (Int64 × Bytes)

/-- The ids of the snapshots, newest first. -/
def snapers (snap : List (Int64 × Bytes)) : List Int64 :=
  (snap.map Prod.fst).mergeSort fun a b => b ≤ a

/-- The loop of `DataSet::Load` over the snapshots, as long as the fuel lasts. -/
def snapLoop (load : FileLoader σ) (ids : List Int64) :
    Nat → σ → List (Int64 × Bytes) → Option (SnapEnd σ)
  | 0, _, _ => none
  | fuel + 1, s, snap =>
      match ids with
      | [] => some ⟨s, none, snap⟩
      | id :: _ =>
          match load s (snap.lookup id) with
          | (s, true) => some ⟨s, some id, snap⟩
          -- the iterator is not moved
          | (s, false) => snapLoop load ids fuel s (snap.filter fun file => file.1 ≠ id)

/-- The loop with an iterator that moves on: the newest snapshot that can be loaded, and
the newer ones removed. -/
def fallback (load : FileLoader σ) : List Int64 → σ → List (Int64 × Bytes) → SnapEnd σ
  | [], s, snap => ⟨s, none, snap⟩
  | id :: ids, s, snap =>
      match load s (snap.lookup id) with
      | (s, true) => ⟨s, some id, snap⟩
      | (s, false) => fallback load ids s (snap.filter fun file => file.1 ≠ id)

/-- The loop ends, with the newest snapshot that can be loaded. -/
def FallsBack (load : FileLoader σ) (s : σ) (snap : List (Int64 × Bytes)) : Prop :=
  ∃ fuel, snapLoop load (snapers snap) fuel s snap = some (fallback load (snapers snap) s snap)

/-! ## What it loads -/

variable {load : FileLoader σ} {s : σ} {snap : List (Int64 × Bytes)} {id : Int64}
  {ids : List Int64}

/-- What is fallen back to is one of the snapshots, and only newer ones are removed. -/
theorem fallback_split (load : FileLoader σ) (ids : List Int64) (s : σ)
    (snap : List (Int64 × Bytes)) :
    ∃ newer rest, ids = newer ++ rest ∧ (fallback load ids s snap).loaded = rest.head? ∧
      (fallback load ids s snap).snap = snap.filter fun file => file.1 ∉ newer := by
  induction ids generalizing s snap with
  | nil => exact ⟨[], [], rfl, rfl, (List.filter_eq_self.mpr fun _ _ => rfl).symm⟩
  | cons id ids ih =>
      rw [fallback]
      split
      next => exact ⟨[], id :: ids, rfl, rfl, (List.filter_eq_self.mpr fun _ _ => rfl).symm⟩
      next s' _ =>
        obtain ⟨newer, rest, hids, hloaded, hsnap⟩ := ih s' (snap.filter fun file => file.1 ≠ id)
        refine ⟨id :: newer, rest, congrArg (id :: ·) hids, hloaded, ?_⟩
        rw [hsnap, List.filter_filter]
        refine List.filter_congr fun file _ => ?_
        simp [Bool.and_comm]

/-- The loop never gets to another file than the newest. -/
theorem snapLoop_loaded {fuel : Nat} {e : SnapEnd σ}
    (h : snapLoop load (id :: ids) fuel s snap = some e) : e.loaded = some id := by
  induction fuel generalizing s snap with
  | zero => cases h
  | succ fuel ih =>
      rw [snapLoop] at h
      split at h
      next =>
        cases h
        rfl
      next => exact ih h

/-- Where missing files are not loaded, the loop does not end behind a failure. -/
theorem snapLoop_diverges (hmissing : ∀ s, (load s none).2 = false)
    (hfail : (load s (snap.lookup id)).2 = false) (fuel : Nat) :
    snapLoop load (id :: ids) fuel s snap = none := by
  induction fuel generalizing s snap with
  | zero => rfl
  | succ fuel ih =>
      rw [snapLoop]
      split
      next hload =>
        rw [hload] at hfail
        cases hfail
      next s' _ =>
        have hgone : (snap.filter fun file => file.1 ≠ id).lookup id = none := by
          rw [List.lookup_eq_none_iff]
          intro file hfile
          have hne := of_decide_eq_true (List.mem_filter.mp hfile).2
          exact bne_iff_ne.mpr (Ne.symm hne)
        exact ih (by rw [hgone]; exact hmissing s')

/-- The loop falls back if and only if the newest snapshot, if there is one, is loaded at once. -/
theorem falls_back_iff (load : FileLoader σ) (s : σ) (snap : List (Int64 × Bytes))
    (hnodup : (snap.map Prod.fst).Nodup) :
    FallsBack load s snap ↔
      ∀ newest, (snapers snap).head? = some newest → (load s (snap.lookup newest)).2 = true := by
  have hids : (snapers snap).Nodup := (List.mergeSort_perm _ _).nodup_iff.mpr hnodup
  rw [FallsBack]
  generalize snapers snap = ids at hids ⊢
  cases ids with
  | nil => exact iff_of_true ⟨1, rfl⟩ nofun
  | cons id ids =>
      constructor
      · rintro ⟨fuel, hend⟩ newest ⟨⟩
        cases hload : load s (snap.lookup id) with
        | mk s' ok =>
            cases ok with
            | true => rfl
            | false =>
                have hloaded := snapLoop_loaded hend
                obtain ⟨newer, rest, hsplit, hrest, -⟩ :=
                  fallback_split load ids s' (snap.filter fun file => file.1 ≠ id)
                rw [fallback, hload] at hloaded
                have hmem : id ∈ rest := List.mem_of_head? (hrest.symm.trans hloaded)
                have hold : id ∈ ids := hsplit ▸ List.mem_append_right newer hmem
                exact absurd hold (List.nodup_cons.mp hids).1
      · intro h
        have hok := h id rfl
        refine ⟨1, ?_⟩
        rw [snapLoop, fallback]
        cases hload : load s (snap.lookup id) with
        | mk s' ok =>
            rw [hload] at hok
            cases hok
            rfl

/-! ## The loop in `Load` -/

/-- An application that keeps its state when it cannot load a file. -/
def SnapLoader.fromFile (loader : SnapLoader σ) : FileLoader σ := fun s contents =>
  match contents.bind (loader s) with
  | some s' => (s', true)
  | none => (s, false)

/-- A data set behind the search. -/
def DataSet.searched (d : DataSet σ) (e : SnapEnd σ) : DataSet σ :=
  { d with
    stateData := e.stateData
    minZxId := e.loaded.getD d.minZxId
    zxId := e.loaded.getD d.minZxId }

/-- `Store.loadSnap` is the loop, for as long as it takes. -/
theorem loadSnap_eq_some (loader : SnapLoader σ) (d : DataSet σ) (dir : Dir)
    (hnodup : (dir.snap.map Prod.fst).Nodup) (d' : DataSet σ) :
    Store.loadSnap loader d dir = some d' ↔
      ∃ fuel e, snapLoop loader.fromFile (snapers dir.snap) fuel d.stateData dir.snap = some e ∧
        d' = d.searched e := by
  have hids : snapers dir.snap = (dir.snap.mergeSort fun a b => b.1 ≤ a.1).map Prod.fst :=
    (List.map_mergeSort (f := Prod.fst) fun _ _ _ _ => rfl).symm
  have hmem : ∀ file, file ∈ dir.snap.mergeSort (fun a b => b.1 ≤ a.1) ↔ file ∈ dir.snap :=
    fun _ => List.mem_mergeSort
  rw [Store.loadSnap, hids]
  generalize dir.snap.mergeSort (fun a b => b.1 ≤ a.1) = files at hmem ⊢
  cases files with
  | nil =>
      constructor
      · rintro ⟨⟩
        exact ⟨1, _, rfl, rfl⟩
      · rintro ⟨fuel, e, hend, rfl⟩
        cases fuel with
        | zero => cases hend
        | succ fuel =>
            cases hend
            rfl
  | cons file files =>
      obtain ⟨id, contents⟩ := file
      have hlookup : dir.snap.lookup id = some contents :=
        (KeyedList.lookup_iff hnodup).mpr ((hmem _).mp (.head _))
      rw [List.map_cons]
      dsimp only
      cases hload : loader d.stateData contents with
      | some s =>
          have hfirst : ∀ fuel, snapLoop loader.fromFile (id :: files.map Prod.fst) (fuel + 1)
              d.stateData dir.snap = some ⟨s, some id, dir.snap⟩ := by
            intro fuel
            simp [snapLoop, hlookup, SnapLoader.fromFile, hload]
          constructor
          · rintro ⟨⟩
            exact ⟨1, _, hfirst 0, rfl⟩
          · rintro ⟨fuel, e, hend, rfl⟩
            cases fuel with
            | zero => cases hend
            | succ fuel =>
                rw [hfirst, Option.some.injEq] at hend
                exact hend ▸ rfl
      | none =>
          have hfail : (loader.fromFile d.stateData (dir.snap.lookup id)).2 = false := by
            rw [hlookup, SnapLoader.fromFile, Option.bind_some, hload]
          refine iff_of_false (Option.some_ne_none d' ∘ Eq.symm) ?_
          rintro ⟨fuel, e, hend, -⟩
          rw [snapLoop_diverges (fun _ => rfl) hfail] at hend
          cases hend

/-- A directory whose newest snapshot can be loaded. -/
theorem falls_back_newest : FallsBack (fun s contents => (s, contents.isSome)) ()
    [(1, [65]), (2, [66])] :=
  (falls_back_iff _ () _ (by decide)).mpr fun newest hnewest => by
    have hids : snapers [(1, [65]), (2, [66])] = [2, 1] := by
      simp [snapers, List.mergeSort]
    rw [hids] at hnewest
    cases hnewest
    rfl

/-- An empty file is the newest snapshot. -/
theorem unloadable_newest : ¬ ∀ (load : FileLoader Unit) (snap : List (Int64 × Bytes)),
    (snap.map Prod.fst).Nodup → FallsBack load () snap := by
  intro hall
  have h := hall (fun s contents => (s, contents.any fun bytes => bytes ≠ []))
    [(1, [65]), (2, [])] (by decide)
  rw [falls_back_iff _ _ _ (by decide)] at h
  have hids : snapers [(1, [65]), (2, [])] = [2, 1] := by
    simp [snapers, List.mergeSort]
  have hload := h 2 (by rw [hids]; rfl)
  cases hload

end Paxos
