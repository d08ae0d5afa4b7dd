import Mathlib.Data.Fintype.Option
import Mathlib.Data.Set.Finite.Basic
import Zookeeper.DepthFirst
import Zookeeper.Olib.FileFinder

/-!
# Includes of a configuration file

`olib::XmlReader` reads an XML file, and merges the roots of the files that it includes into
its own (`olib/src/xml/XmlReader.cpp`).  An include stands for the files that `FileFinder`
finds, and these may include others.

`_loaded` is a set of paths, and a path is made of that of the including file.  So a file
that is included as `../conf/a.xml` from `conf` has a new path each time.  `includes_end`
says that the reader comes to an end, with no file merged twice, exactly if no file is
reached by two paths.

The files are given by what the system opens for a path, and by what it lists for a
directory.  What is merged is recorded by its path.
-/

namespace Olib

/-- An `include` of a root, with its attributes. -/
structure XmlInclude where
  path : Bytes
  extend : Bool := false
deriving DecidableEq

/-- The files of type `ι`, as the reader sees them. -/
structure XmlFiles (ι : Type*) where
  /-- The file that a path names. -/
  load : Bytes → Option ι
  /-- The `include`s of its root. -/
  includes : ι → List XmlInclude
  /-- `fs::directory_iterator`. -/
  list : Bytes → Option (List DirEntry)

/-- `XmlReader`: `_loaded`, and what was merged into `_root`, with whether by `Extend`. -/
structure XmlReader where
  loaded : List Bytes := []
  merged : List (Bytes × Bool) := []
deriving DecidableEq

/-- Why a call does not return. -/
inductive LoadFault where
  | throws
  /-- The calls are nested deeper than the fuel allows. -/
  | spent
deriving DecidableEq

/-- The path of an include of a file. -/
def includePath (path included : Bytes) : Bytes :=
  if 47 ∈ path then (path.reverse.dropWhile (· ≠ 47)).reverse ++ included else included

namespace XmlFiles

variable {ι : Type*} (files : XmlFiles ι)

/-- `XmlReader::LoadInclude`, for an include of a file. -/
def loadInclude (loadFile : XmlReader → Bytes × Bool → Except LoadFault XmlReader) (path : Bytes)
    (r : XmlReader) (node : XmlInclude) : Except LoadFault XmlReader :=
  match FileFinder.search files.list (includePath path node.path) with
  | none => .error .throws
  | some found => found.foldlM (fun r file => loadFile r (file, node.extend)) r

/-- `XmlReader::LoadIncludeFile`. -/
def loadIncludeFile : Nat → XmlReader → Bytes × Bool → Except LoadFault XmlReader
  | 0, _, _ => .error .spent
  | fuel + 1, r, (path, extend) =>
      if path ∈ r.loaded then .ok r
      else
        match files.load path with
        | none => .error .throws
        | some file =>
            (files.includes file).foldlM (files.loadInclude (loadIncludeFile fuel) path)
              { loaded := r.loaded ++ [path], merged := r.merged ++ [(path, extend)] }

/-- `XmlReader::LoadXml`, on a new reader. -/
def loadXml (fuel : Nat) (path : Bytes) : Except LoadFault XmlReader :=
  match files.load path with
  | none => .error .throws
  | some file =>
      (files.includes file).foldlM (files.loadInclude (files.loadIncludeFile fuel) path)
        { loaded := [path], merged := [(path, false)] }

/-- The files that an include stands for. -/
def found (path : Bytes) (node : XmlInclude) : List Bytes :=
  (FileFinder.search files.list (includePath path node.path)).getD []

/-- The paths that the file of a path includes. -/
def next (path : Bytes) : List Bytes :=
  ((files.load path).map files.includes).getD [] |>.flatMap (files.found path)

/-- Every path that is reached names a file, and each of its includes can be searched. -/
def Closed (main : Bytes) : Prop :=
  ∀ path, DepthFirst.Reach files.next main path → ∃ file, files.load path = some file ∧
    ∀ node ∈ files.includes file, (FileFinder.search files.list (includePath path node.path)).isSome

/-- The reader comes to an end, and has merged no file twice. -/
def LoadsOnce (main : Bytes) : Prop :=
  ∃ fuel r, files.loadXml fuel main = .ok r ∧ (r.merged.map fun p => files.load p.1).Nodup

variable {files} {main path : Bytes} {fuel : Nat} {r r' : XmlReader}

/-- Steps that are done one after the other, and what is seen of them. -/
theorem foldlM_seen {β τ : Type*} {f : XmlReader → β → Except LoadFault XmlReader}
    {g : τ → β → Option τ} {seen : XmlReader → τ} {places : List β}
    (step : ∀ b ∈ places, ∀ r, (f r b).toOption.map seen = g (seen r) b) (r : XmlReader) :
    (places.foldlM f r).toOption.map seen = places.foldlM g (seen r) := by
  induction places generalizing r with
  | nil => rfl
  | cons b places ih =>
      have hb := step b List.mem_cons_self r
      rw [List.foldlM_cons, List.foldlM_cons, ← hb]
      cases f r b with
      | error fault => rfl
      | ok r' => exact ih (fun c hc => step c (List.mem_cons_of_mem b hc)) r'

theorem foldlM_flatMap {β γ τ : Type*} (g : τ → γ → Option τ) (k : β → List γ) (places : List β)
    (seen : τ) :
    places.foldlM (fun seen b => (k b).foldlM g seen) seen = (places.flatMap k).foldlM g seen := by
  induction places generalizing seen with
  | nil => rfl
  | cons b places ih =>
      rw [List.foldlM_cons, List.flatMap_cons, List.foldlM_append]
      simp only [ih]

/-- Where nothing is missing, the includes of a file are visited. -/
theorem includes_loaded {loadFile : XmlReader → Bytes × Bool → Except LoadFault XmlReader}
    {file : ι} (hclosed : files.Closed main) (hreach : DepthFirst.Reach files.next main path)
    (hfile : files.load path = some file)
    (hload : ∀ q ∈ files.next path, ∀ extend r,
      (loadFile r (q, extend)).toOption.map XmlReader.loaded =
        DepthFirst.visit files.next fuel r.loaded q) (r : XmlReader) :
    ((files.includes file).foldlM (files.loadInclude loadFile path) r).toOption.map
        XmlReader.loaded =
      (files.next path).foldlM (DepthFirst.visit files.next fuel) r.loaded := by
  have hnext : files.next path = (files.includes file).flatMap (files.found path) := by
    rw [next, hfile]
    rfl
  rw [hnext, ← foldlM_flatMap]
  refine foldlM_seen (fun node hnode r => ?_) r
  obtain ⟨file', hfile', hsearch⟩ := hclosed path hreach
  obtain rfl : file' = file := Option.some.inj (hfile'.symm.trans hfile)
  obtain ⟨found, hfound⟩ := Option.isSome_iff_exists.mp (hsearch node hnode)
  have hgetD : files.found path node = found := by
    rw [XmlFiles.found, hfound]
    rfl
  rw [loadInclude, hfound, hgetD]
  refine foldlM_seen (fun q hq r => hload q ?_ node.extend r) r
  rw [hnext]
  exact List.mem_flatMap.mpr ⟨node, hnode, hgetD ▸ hq⟩

/-- Where nothing is missing, the reader visits what can be reached. -/
theorem loadIncludeFile_loaded (hclosed : files.Closed main)
    (hreach : DepthFirst.Reach files.next main path) (extend : Bool) (r : XmlReader) :
    (files.loadIncludeFile fuel r (path, extend)).toOption.map XmlReader.loaded =
      DepthFirst.visit files.next fuel r.loaded path := by
  induction fuel generalizing r path extend with
  | zero => rfl
  | succ fuel ih =>
      obtain ⟨file, hfile, _⟩ := hclosed path hreach
      rw [loadIncludeFile, DepthFirst.visit]
      split
      next => rfl
      next =>
        rw [hfile]
        exact includes_loaded hclosed hreach hfile
          (fun q hq extend r => ih (hreach.tail hq) extend r) _

/-- `LoadXml` visits what can be reached from the main file. -/
theorem loadXml_loaded (hclosed : files.Closed main) (fuel : Nat) :
    (files.loadXml fuel main).toOption.map XmlReader.loaded =
      DepthFirst.visit files.next (fuel + 1) [] main := by
  obtain ⟨file, hfile, _⟩ := hclosed main .refl
  rw [loadXml, hfile, DepthFirst.visit, if_neg List.not_mem_nil]
  exact includes_loaded hclosed .refl hfile
    (fun q hq extend r => loadIncludeFile_loaded hclosed (.single hq) extend r) _

/-- What each step keeps, steps one after the other keep. -/
theorem foldlM_keeps {β : Type*} {f : XmlReader → β → Except LoadFault XmlReader}
    {I : XmlReader → Prop} {places : List β}
    (step : ∀ b r r', f r b = .ok r' → I r → I r') (h : places.foldlM f r = .ok r') (hr : I r) :
    I r' := by
  induction places generalizing r with
  | nil =>
      cases h
      exact hr
  | cons b places ih =>
      rw [List.foldlM_cons] at h
      cases hb : f r b with
      | error fault =>
          rw [hb] at h
          cases h
      | ok mid =>
          rw [hb] at h
          exact ih h (step b r mid hb hr)

/-- What was merged is what is in `_loaded`. -/
def Recorded (r : XmlReader) : Prop := r.merged.map Prod.fst = r.loaded

theorem loadInclude_recorded {loadFile : XmlReader → Bytes × Bool → Except LoadFault XmlReader}
    (hload : ∀ p r r', loadFile r p = .ok r' → Recorded r → Recorded r') (node : XmlInclude)
    (r r' : XmlReader) (h : files.loadInclude loadFile path r node = .ok r') (hr : Recorded r) :
    Recorded r' := by
  rw [loadInclude] at h
  split at h
  next => cases h
  next => exact foldlM_keeps (fun q r r' => hload (q, node.extend) r r') h hr

theorem loadIncludeFile_recorded (p : Bytes × Bool) (r r' : XmlReader)
    (h : files.loadIncludeFile fuel r p = .ok r') (hr : Recorded r) : Recorded r' := by
  induction fuel generalizing r r' p with
  | zero => cases h
  | succ fuel ih =>
      obtain ⟨path, extend⟩ := p
      rw [loadIncludeFile] at h
      split at h
      next =>
        cases h
        exact hr
      next =>
        split at h
        next => cases h
        next =>
          refine foldlM_keeps (fun node r r' => loadInclude_recorded ih node r r') h ?_
          rw [Recorded, List.map_append, hr, List.map_singleton]

theorem loadXml_recorded (h : files.loadXml fuel main = .ok r) : Recorded r := by
  rw [loadXml] at h
  split at h
  next => cases h
  next =>
    exact foldlM_keeps (fun node r r' => loadInclude_recorded loadIncludeFile_recorded node r r') h
      rfl

/-- In the end `_loaded` has each path that is reached, and each of them once. -/
theorem loadXml_visited (hclosed : files.Closed main) (h : files.loadXml fuel main = .ok r) :
    (∀ path, DepthFirst.Reach files.next main path ↔ path ∈ r.loaded) ∧ r.loaded.Nodup := by
  have hvisit := loadXml_loaded hclosed fuel
  rw [h] at hvisit
  have hvisited := DepthFirst.visit_visited hvisit.symm
  refine ⟨fun path => ⟨fun hreach => ?_, fun hmem => ?_⟩, hvisited.nodup List.nodup_nil⟩
  · induction hreach with
    | refl => exact hvisited.all main List.mem_cons_self
    | tail _ hnext ih => exact hvisited.closed _ ih List.not_mem_nil _ hnext
  · rcases hvisited.reached path hmem with hnil | ⟨a, ha, hreach⟩
    · cases hnil
    · rwa [List.mem_singleton.mp ha] at hreach

/-- No file is reached by two paths. -/
def OnePath (files : XmlFiles ι) (main : Bytes) : Prop :=
  ∀ p q, DepthFirst.Reach files.next main p → DepthFirst.Reach files.next main q →
    files.load p = files.load q → p = q

/-- A file that is reached by two paths is merged for each of them. -/
theorem LoadsOnce.onePath (hclosed : files.Closed main) (h : files.LoadsOnce main) :
    files.OnePath main := by
  obtain ⟨fuel, r, hok, honce⟩ := h
  intro p q hp hq hsame
  obtain ⟨hreach, _⟩ := loadXml_visited hclosed hok
  have hmerged : (r.loaded.map files.load).Nodup := by
    rw [← loadXml_recorded hok, List.map_map]
    exact honce
  exact List.inj_on_of_nodup_map hmerged ((hreach p).mp hp) ((hreach q).mp hq) hsame

end XmlFiles

/-- Where nothing is missing among finitely many files, `LoadXml` comes to an end and merges
no file twice exactly if no file is reached by two paths. -/
theorem includes_end {ι : Type*} [Finite ι] (files : XmlFiles ι) (main : Bytes)
    (hclosed : files.Closed main) : files.LoadsOnce main ↔ files.OnePath main := by
  constructor
  · exact fun h => h.onePath hclosed
  · intro hone
    have hfinite : {p | DepthFirst.Reach files.next main p}.Finite :=
      Set.Finite.of_injOn (t := Set.univ) (fun _ _ => Set.mem_univ _)
        (fun p hp q hq hsame => hone p q hp hq hsame) Set.finite_univ
    have hall : ∀ p, p ∈ hfinite.toFinset ↔ DepthFirst.Reach files.next main p := fun p =>
      hfinite.mem_toFinset
    have hfuel : DepthFirst.unseen hfinite.toFinset [] < hfinite.toFinset.card + 1 :=
      Nat.lt_succ_of_le (Finset.card_filter_le _ _)
    obtain ⟨seen, hseen⟩ := DepthFirst.visit_some
      (fun b hb c hc => (hall c).mpr (((hall b).mp hb).tail hc)) ((hall main).mpr .refl) hfuel
    have hvisit := XmlFiles.loadXml_loaded hclosed hfinite.toFinset.card
    rw [hseen] at hvisit
    cases hload : files.loadXml hfinite.toFinset.card main with
    | error fault =>
        rw [hload] at hvisit
        cases hvisit
    | ok r =>
        refine ⟨_, r, hload, ?_⟩
        obtain ⟨hreach, hnodup⟩ := XmlFiles.loadXml_visited hclosed hload
        have hmerged : (r.loaded.map files.load).Nodup :=
          hnodup.map_on fun p hp q hq => hone p q ((hreach p).mpr hp) ((hreach q).mpr hq)
        rw [← XmlFiles.loadXml_recorded hload, List.map_map] at hmerged
        exact hmerged

/-! ## A directory with one file -/

/-- Where a path leads, name by name, among directories.  Places are given by their names
from the last one on. -/
def walk (dirs : List (List Bytes)) : List Bytes → List Bytes → Option (List Bytes)
  | here, [] => some here
  | here, name :: names =>
      if here ∈ dirs then
        if name = [] ∨ name = [46] then walk dirs here names
        else if name = [46, 46] then walk dirs here.tail names
        else walk dirs (name :: here) names
      else none

theorem walk_append (dirs : List (List Bytes)) (names names' here : List Bytes) :
    walk dirs here (names ++ names') =
      (walk dirs here names).bind fun here => walk dirs here names' := by
  induction names generalizing here with
  | nil => rfl
  | cons name names ih =>
      rw [List.cons_append, walk, walk]
      split
      next =>
        split
        next => exact ih here
        next =>
          split
          next => exact ih here.tail
          next => exact ih (name :: here)
      next => rfl

/-- The directory `c` with the file `x`, which includes a path. -/
def oneFile (included : Bytes) : XmlFiles Unit where
  load path := if walk [[], [[99]]] [] (path.splitOn 47) = some [[120], [99]] then some () else none
  includes _ := [{ path := included }]
  list _ := none

/-- A path to `x` by way of `c`. -/
def ByDirectory (path : Bytes) : Prop :=
  ∃ dir, path = dir ++ [47, 120] ∧ star ∉ dir ∧ walk [[], [[99]]] [] (dir.splitOn 47) = some [[99]]

theorem ByDirectory.load {path : Bytes} (h : ByDirectory path) (included : Bytes) :
    (oneFile included).load path = some () := by
  obtain ⟨dir, rfl, _, hdir⟩ := h
  refine if_pos ?_
  rw [List.splitOn_append_cons_self, walk_append, hdir]
  rfl

/-- The path of `../c/x` goes through one more `..`. -/
theorem ByDirectory.include_ {path : Bytes} (h : ByDirectory path) :
    FileFinder.search (oneFile [46, 46, 47, 99, 47, 120]).list
        (includePath path [46, 46, 47, 99, 47, 120]) =
      some [includePath path [46, 46, 47, 99, 47, 120]] ∧
    ByDirectory (includePath path [46, 46, 47, 99, 47, 120]) := by
  obtain ⟨dir, rfl, hstar, hdir⟩ := h
  have hpath : includePath (dir ++ [47, 120]) [46, 46, 47, 99, 47, 120] =
      (dir ++ 47 :: [46, 46, 47, 99]) ++ [47, 120] := by
    have hmem : (47 : UInt8) ∈ dir ++ [47, 120] := by simp
    rw [includePath, if_pos hmem]
    simp
  have hmore : star ∉ dir ++ 47 :: [46, 46, 47, 99] := by
    rw [List.mem_append, not_or]
    exact ⟨hstar, by decide⟩
  rw [hpath]
  refine ⟨if_neg ?_, _, rfl, hmore, ?_⟩
  · rw [List.mem_append, not_or]
    exact ⟨hmore, by decide⟩
  · rw [List.splitOn_append_cons_self, walk_append, hdir]
    rfl

/-- What is next to a path that is reached, where it includes one that can be searched. -/
theorem oneFile_next {included path : Bytes} (hload : (oneFile included).load path = some ())
    (hsearch : FileFinder.search (oneFile included).list (includePath path included) =
      some [includePath path included]) :
    (oneFile included).next path = [includePath path included] := by
  have hfound : (oneFile included).found path { path := included } =
      [includePath path included] := by
    rw [XmlFiles.found, hsearch]
    rfl
  rw [XmlFiles.next, hload]
  simp only [Option.map_some, Option.getD_some, oneFile, List.flatMap_cons, List.flatMap_nil,
    List.append_nil] at hfound ⊢
  exact hfound

theorem reach_byDirectory {path : Bytes}
    (h : DepthFirst.Reach (oneFile [46, 46, 47, 99, 47, 120]).next [99, 47, 120] path) :
    ByDirectory path := by
  induction h with
  | refl => exact ⟨[99], rfl, by decide, by decide⟩
  | tail _ hnext ih =>
      obtain ⟨hsearch, hby⟩ := ih.include_
      rw [oneFile_next (ih.load _) hsearch, List.mem_singleton] at hnext
      rw [hnext]
      exact hby

/-- `x` includes itself as `../c/x`, and is reached by two paths. -/
theorem include_merged_again :
    ¬ ∀ (files : XmlFiles Unit) (main : Bytes), files.Closed main → files.LoadsOnce main := by
  intro h
  have hclosed : (oneFile [46, 46, 47, 99, 47, 120]).Closed [99, 47, 120] := by
    intro path hreach
    have hby := reach_byDirectory hreach
    refine ⟨(), hby.load _, fun node hnode => ?_⟩
    obtain rfl := List.mem_singleton.mp hnode
    rw [hby.include_.1]
    rfl
  have hmain : ByDirectory [99, 47, 120] := reach_byDirectory .refl
  obtain ⟨hsearch, hby⟩ := hmain.include_
  have hnext := oneFile_next (hmain.load _) hsearch
  have hone := (h _ _ hclosed).onePath hclosed [99, 47, 120]
    (includePath [99, 47, 120] [46, 46, 47, 99, 47, 120]) .refl
    (.single (by rw [hnext]; exact List.mem_cons_self)) ((hmain.load _).trans (hby.load _).symm)
  exact absurd hone (by decide)

/-- `x` includes itself as `x`, and is merged once. -/
theorem includes_end_self : (oneFile [120]).LoadsOnce [99, 47, 120] := by
  have hsearch : FileFinder.search (oneFile [120]).list (includePath [99, 47, 120] [120]) =
      some [includePath [99, 47, 120] [120]] := by
    decide
  have hload : (oneFile [120]).load [99, 47, 120] = some () := by decide
  have hself : ∀ path, DepthFirst.Reach (oneFile [120]).next [99, 47, 120] path →
      path = [99, 47, 120] := by
    intro path hreach
    induction hreach with
    | refl => rfl
    | tail _ hnext ih =>
        rw [ih, oneFile_next hload hsearch, List.mem_singleton] at hnext
        rw [hnext]
        decide
  have hclosed : (oneFile [120]).Closed [99, 47, 120] := by
    intro path hreach
    rw [hself path hreach]
    refine ⟨(), hload, fun node hnode => ?_⟩
    obtain rfl := List.mem_singleton.mp hnode
    rw [hsearch]
    rfl
  refine (includes_end _ _ hclosed).mpr fun p q hp hq _ => ?_
  rw [hself p hp, hself q hq]

end Olib
