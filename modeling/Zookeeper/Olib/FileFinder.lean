import Mathlib.Data.UInt
import Zookeeper.Bytes
import Zookeeper.Glob

/-!
# Finding files by a pattern

`olib::FileFinder` calls a function for each file whose path fits a pattern with stars
(`olib/include/file_system.h`).  A component of the pattern is cut into pieces at its stars,
and a name fits if it has the pieces in order.

Neither the first piece nor the last is tied to the ends of the name.  So the pattern means
what it would mean between two more stars, and `*.snap` finds `x.snapfoo` too.  `check_exact`
says for which patterns, and for which names, that makes no difference.
-/

namespace Olib

/-- `'*'`. -/
def star : UInt8 := 42

/-- A character of `SLASH`. -/
def isSlash (c : UInt8) : Bool := c == 92 || c == 47

/-- An entry of a directory, and whether it is one itself. -/
structure DirEntry where
  filename : Bytes
  isDirectory : Bool
deriving DecidableEq

namespace FileFinder

/-- `std::string::find`: the first place of `p` in `str` from `offset` on. -/
def find (str p : Bytes) (offset : Nat) : Option Nat :=
  (List.range' offset (str.length + 1 - offset)).find? fun pos => p.isPrefixOf (str.drop pos)

/-- `FileFinder::Cut`. -/
def cut (str : Bytes) (c : UInt8) : List Bytes := str.splitOn c

/-- The loop of `FileFinder::Check`, from `offset` on. -/
def checkFrom (str : Bytes) : Nat → List Bytes → Bool
  | _, [] => true
  | offset, p :: pattern =>
      if p = [] then checkFrom str offset pattern
      else
        match find str p offset with
        | none => false
        | some pos => checkFrom str (pos + p.length) pattern

/-- `FileFinder::Check`. -/
def check (str : Bytes) (pattern : List Bytes) : Bool := checkFrom str 0 pattern

/-- `path / filename`. -/
def entryPath (path filename : Bytes) : Bytes :=
  if path.getLast? = some 47 then path ++ filename else path ++ 47 :: filename

/-- The private `Search`, with the components of the pattern.  A directory that cannot be
listed ends it. -/
def searchIn (list : Bytes → Option (List DirEntry)) : Bytes → List Bytes → Option (List Bytes)
  | path, [] => some [path]
  | path, [check'] =>
      if check' = [] then some [path]
      else
        (list path).map fun entries =>
          (entries.filter fun p => !p.isDirectory && check p.filename (cut check' star)).map
            fun p => entryPath path p.filename
  | path, check' :: subpattern =>
      (list path).bind fun entries =>
        ((entries.filter fun p => p.isDirectory && check p.filename (cut check' star)).mapM
          fun p => searchIn list (entryPath path p.filename) subpattern).map List.flatten

/-- `FileFinder::Search`: the paths that `fn` is called with. -/
def search (list : Bytes → Option (List DirEntry)) (pattern : Bytes) : Option (List Bytes) :=
  if star ∈ pattern then
    -- the directory in front of the component with the last star
    let behind := (pattern.reverse.takeWhile (· ≠ star)).reverse
    let upto := (pattern.reverse.dropWhile (· ≠ star)).reverse
    let component := (upto.reverse.takeWhile fun c => !isSlash c).reverse
    let directory := (upto.reverse.dropWhile fun c => !isSlash c).reverse
    searchIn list (if directory = [] then [46, 47] else directory)
      ((component ++ behind).splitOnP isSlash)
  else some [pattern]

/-! ## Checking -/

variable {str p : Bytes} {offset pos : Nat}

/-- What is found is the first place. -/
theorem find_some (h : find str p offset = some pos) :
    offset ≤ pos ∧ p <+: str.drop pos ∧
      ∀ pos', offset ≤ pos' → p <+: str.drop pos' → pos ≤ pos' := by
  obtain ⟨hpos, front, behind, hrange, hfront⟩ := List.find?_eq_some_iff_append.mp h
  obtain ⟨k, _, rfl, hbehind⟩ := List.range'_eq_append_iff.mp hrange
  obtain ⟨hpos', _⟩ := List.range'_eq_cons_iff.mp hbehind.symm
  refine ⟨by omega, List.isPrefixOf_iff_prefix.mp hpos, fun pos' hle hthere => ?_⟩
  by_contra hlt
  have hmem : pos' ∈ List.range' offset k := List.mem_range'_1.mpr ⟨hle, by omega⟩
  have hno := hfront pos' hmem
  rw [List.isPrefixOf_iff_prefix.mpr hthere] at hno
  cases hno

theorem find_none (h : find str p offset = none) :
    ∀ pos, offset ≤ pos → pos ≤ str.length → ¬ p <+: str.drop pos := by
  intro pos hle hlen hthere
  have hno := List.find?_eq_none.mp h pos (List.mem_range'_1.mpr ⟨hle, by omega⟩)
  exact hno (List.isPrefixOf_iff_prefix.mpr hthere)

/-- A piece that is found is there as a whole. -/
theorem add_length_le (hp : p ≠ []) (hthere : p <+: str.drop pos) :
    pos + p.length ≤ str.length := by
  have hle := hthere.length_le
  have hpos : 0 < p.length := List.length_pos_iff.mpr hp
  rw [List.length_drop] at hle
  omega

variable {pattern : List Bytes}

/-- Where a piece is not found, nothing is in order. -/
theorem not_inOrder_of_none (hp : p ≠ []) (hfind : find str p offset = none) :
    ¬ Glob.InOrder (p :: pattern) (str.drop offset) := by
  intro horder
  generalize hs : str.drop offset = s at horder
  cases horder with
  | @cons _ _ front back _ =>
      have hdrop : str.drop (offset + front.length) = p ++ back := by
        rw [← List.drop_drop, hs, List.drop_left]
      have hthere : p <+: str.drop (offset + front.length) := by
        rw [hdrop]
        exact List.prefix_append p back
      have hle := add_length_le hp hthere
      exact find_none hfind _ (by omega) (by omega) hthere

/-- Behind the first place of a piece there is the most room for the others. -/
theorem inOrder_of_some (hp : p ≠ []) (hfind : find str p offset = some pos) :
    Glob.InOrder (p :: pattern) (str.drop offset) ↔
      Glob.InOrder pattern (str.drop (pos + p.length)) := by
  obtain ⟨hle, hthere, hfirst⟩ := find_some hfind
  have hend := add_length_le hp hthere
  obtain ⟨back, hback⟩ := hthere
  have hbehind : str.drop (pos + p.length) = back := by
    rw [← List.drop_drop, ← hback, List.drop_left]
  have hsplit : str.drop offset = (str.drop offset).take (pos - offset) ++ (p ++ back) := by
    have hdrop := List.take_append_drop (pos - offset) (str.drop offset)
    rw [List.drop_drop, Nat.add_sub_cancel' hle, ← hback] at hdrop
    exact hdrop.symm
  have hfront : ((str.drop offset).take (pos - offset)).length = pos - offset := by
    rw [List.length_take, List.length_drop]
    omega
  rw [hbehind, hsplit]
  constructor
  · intro horder
    refine horder.skip fun front' back' heq => ?_
    have hother : str.drop (offset + front'.length) = p ++ back' := by
      rw [← List.drop_drop, hsplit, heq, List.drop_left]
    have hleast := hfirst (offset + front'.length) (by omega)
      (by rw [hother]; exact List.prefix_append p back')
    omega
  · exact fun horder => .cons horder

/-- The loop looks for the pieces in order, each at the first place. -/
theorem checkFrom_iff (pattern : List Bytes) (h : offset ≤ str.length) :
    checkFrom str offset pattern = true ↔ Glob.InOrder pattern (str.drop offset) := by
  induction pattern generalizing offset with
  | nil => exact iff_of_true rfl .nil
  | cons p pattern ih =>
      rw [checkFrom]
      split
      next hnil =>
        rw [hnil, Glob.inOrder_nil_cons]
        exact ih h
      next hne =>
        cases hfind : find str p offset with
        | none => exact iff_of_false Bool.false_ne_true (not_inOrder_of_none hne hfind)
        | some pos =>
            rw [inOrder_of_some hne hfind]
            exact ih (add_length_le hne (find_some hfind).2.1)

/-- A name fits a pattern if it is what the pattern stands for between two more stars. -/
theorem check_iff (name pattern : Bytes) :
    check name (cut pattern star) = true ↔
      Glob.Matches star (star :: (pattern ++ [star])) name := by
  rw [check, checkFrom_iff _ (Nat.zero_le _), List.drop_zero, cut, Glob.inOrder_iff]

end FileFinder

/-- `FileFinder` finds exactly the names that a pattern stands for, if the pattern begins and
ends with a star, and of other patterns no others but the names that fit only with something
in front or behind. -/
theorem check_exact (pattern : Bytes) :
    ((∀ name, FileFinder.check name (FileFinder.cut pattern star) = true ↔
        Glob.Matches star pattern name) ↔
      pattern.head? = some star ∧ pattern.getLast? = some star) ∧
    ∀ name, (FileFinder.check name (FileFinder.cut pattern star) = true ↔
        Glob.Matches star pattern name) ↔
      (Glob.Matches star (star :: (pattern ++ [star])) name → Glob.Matches star pattern name) := by
  have hname : ∀ name, (FileFinder.check name (FileFinder.cut pattern star) = true ↔
      Glob.Matches star pattern name) ↔
      (Glob.Matches star (star :: (pattern ++ [star])) name →
        Glob.Matches star pattern name) := by
    intro name
    rw [FileFinder.check_iff]
    exact ⟨Iff.mp, fun h => ⟨h, Glob.Matches.padded⟩⟩
  have : Nontrivial UInt8 := ⟨0, 1, by decide⟩
  refine ⟨?_, hname⟩
  rw [← Glob.padded_iff]
  exact forall_congr' hname

/-- `*.snap` finds `x.snapfoo`. -/
theorem snap_finds_more :
    ¬ ∀ pattern name : Bytes, FileFinder.check name (FileFinder.cut pattern star) = true ↔
      Glob.Matches star pattern name := by
  intro h
  have hfits : FileFinder.check [120, 46, 115, 110, 97, 112, 102, 111, 111]
      (FileFinder.cut [42, 46, 115, 110, 97, 112] star) = true := by
    decide
  have hmatches := (h _ _).mp hfits
  have hlast := Glob.getLast_of_matches (p := [42, 46, 115, 110, 97]) (by decide) hmatches
  exact absurd hlast (by decide)

end Olib
