import Zookeeper.Ofs.Directory

/-!
# Collecting removed nodes

`Directory::StartGC` goes into the directories below first, and then destroys the
children that are marked and whose time has passed.  A file that is used stays, and so
does a directory that is told by its own pass that a used file is in it
(`_canNotCleanUp`).  A directory further up is not told, and it is destroyed with all that
is left in it.

A node of the tree is known by the nodes on the way to it (`Spot`).  `destroys_iff` says
which files a pass destroys, and `spares_iff` when it spares those in use.
-/

namespace Ofs.Master

/-- A node below the root: the nodes on the way to it, itself the last, and its id if it is
a file. -/
structure Spot where
  way : List Node
  file : Option Int64
deriving DecidableEq, Repr

/-- What `StartGC` reads beside the tree: the clock, how long a removed node stays, and
which files are used, by the names on the way to them. -/
structure Collection where
  now : Int64
  expire : Int64
  used : List Bytes → Bool

namespace Collection

/-- A node is marked, and its time has passed. -/
def due (gc : Collection) (node : Node) : Bool :=
  node.delete && decide (node.deleteTick + gc.expire < gc.now)

/-- `File::IsUsed`, of a file at the end of some nodes. -/
def isUsed (gc : Collection) (way : List Node) : Bool := gc.used (way.map Node.name)

end Collection

namespace Children

/-- All nodes below a directory that stands at the end of some nodes. -/
def spots : List Node → Children → List Spot
  | _, .empty => []
  | way, .file node id rest => ⟨way ++ [node], some id⟩ :: rest.spots way
  | way, .directory node children rest =>
      ⟨way ++ [node], none⟩ :: (children.spots (way ++ [node]) ++ rest.spots way)

/-- `Directory::StartGC`: the children that are left, `_canNotCleanUp`, and what is
destroyed, with what a destructor destroys. -/
def startGC (gc : Collection) : List Node → Children → Children × Bool × List Spot
  | _, .empty => (.empty, false, [])
  | way, .file node id rest =>
      let (rest, held, gone) := rest.startGC gc way
      if gc.isUsed (way ++ [node]) then (.file node id rest, true, gone)
      else if gc.due node then (rest, held, ⟨way ++ [node], some id⟩ :: gone)
      else (.file node id rest, held, gone)
  | way, .directory node children rest =>
      let (children, heldIn, goneIn) := children.startGC gc (way ++ [node])
      let (rest, held, gone) := rest.startGC gc way
      if gc.due node && !heldIn then
        (rest, held,
          goneIn ++ (⟨way ++ [node], none⟩ :: (children.spots (way ++ [node]) ++ gone)))
      else (.directory node children rest, held, goneIn ++ gone)

/-- What a pass leaves. -/
def kept (gc : Collection) (way : List Node) (children : Children) : Children :=
  (children.startGC gc way).1

/-- What a pass destroys. -/
def gone (gc : Collection) (way : List Node) (children : Children) : List Spot :=
  (children.startGC gc way).2.2

/-- A used file stands in the directory itself. -/
def holdsUsed (gc : Collection) (way : List Node) : Children → Bool
  | .empty => false
  | .file node _ rest => gc.isUsed (way ++ [node]) || rest.holdsUsed gc way
  | .directory _ _ rest => rest.holdsUsed gc way

end Children

/-- A pass spares the files in use, and destroys only what is due or below what is. -/
structure Spares (gc : Collection) (children : Children) : Prop where
  used : ∀ t ∈ children.gone gc [], t.file.isSome = true → gc.isUsed t.way = false
  due : ∀ t ∈ children.gone gc [], ∃ node ∈ t.way, gc.due node = true

namespace Children

/-- A directory that is due and has a file of some kind below it has a used file in it
itself, and a file of that kind that is due is used. -/
def Keeps (gc : Collection) (kind : Spot → Prop) : List Node → Children → Prop
  | _, .empty => True
  | way, .file node id rest =>
      (gc.due node = true → kind ⟨way ++ [node], some id⟩ → gc.isUsed (way ++ [node]) = true) ∧
        rest.Keeps gc kind way
  | way, .directory node children rest =>
      (gc.due node = true →
          (∃ t ∈ children.spots (way ++ [node]), t.file.isSome = true ∧ kind t) →
          children.holdsUsed gc (way ++ [node]) = true) ∧
        children.Keeps gc kind (way ++ [node]) ∧ rest.Keeps gc kind way

/-- Every directory that is due and has a used file below it has one in it itself. -/
def UsedHeld (gc : Collection) : List Node → Children → Prop
  | _, .empty => True
  | way, .file _ _ rest => rest.UsedHeld gc way
  | way, .directory node children rest =>
      (gc.due node = true →
          (∃ t ∈ children.spots (way ++ [node]), t.file.isSome = true ∧ gc.isUsed t.way = true) →
          children.holdsUsed gc (way ++ [node]) = true) ∧
        children.UsedHeld gc (way ++ [node]) ∧ rest.UsedHeld gc way

/-! ## What a pass does -/

variable {gc : Collection} {way : List Node} {children : Children}

/-- The flag says that a used file is in the directory itself. -/
theorem startGC_held (gc : Collection) (way : List Node) (children : Children) :
    (children.startGC gc way).2.1 = children.holdsUsed gc way := by
  induction children with
  | empty => rfl
  | file node id rest ih =>
      simp only [startGC, holdsUsed, ← ih]
      split
      next used => rw [used, Bool.true_or]
      next unused =>
        rw [Bool.eq_false_iff.2 unused, Bool.false_or]
        split <;> rfl
  | directory node children rest _ ih =>
      simp only [startGC, holdsUsed, ← ih]
      split <;> rfl

theorem gone_file (gc : Collection) (way : List Node) (node : Node) (id : Int64)
    (rest : Children) :
    (Children.file node id rest).gone gc way =
      if gc.isUsed (way ++ [node]) = false ∧ gc.due node = true then
        ⟨way ++ [node], some id⟩ :: rest.gone gc way
      else rest.gone gc way := by
  simp only [gone, startGC]
  cases gc.isUsed (way ++ [node]) <;> cases gc.due node <;> rfl

theorem gone_directory (gc : Collection) (way : List Node) (node : Node)
    (children rest : Children) :
    (Children.directory node children rest).gone gc way =
      if gc.due node = true ∧ children.holdsUsed gc (way ++ [node]) = false then
        children.gone gc (way ++ [node]) ++ (⟨way ++ [node], none⟩ ::
          ((children.kept gc (way ++ [node])).spots (way ++ [node]) ++ rest.gone gc way))
      else children.gone gc (way ++ [node]) ++ rest.gone gc way := by
  simp only [gone, startGC, startGC_held]
  cases gc.due node <;> cases children.holdsUsed gc (way ++ [node]) <;> rfl

theorem kept_file (gc : Collection) (way : List Node) (node : Node) (id : Int64)
    (rest : Children) :
    (Children.file node id rest).kept gc way =
      if gc.isUsed (way ++ [node]) = false ∧ gc.due node = true then rest.kept gc way
      else .file node id (rest.kept gc way) := by
  simp only [kept, startGC]
  cases gc.isUsed (way ++ [node]) <;> cases gc.due node <;> rfl

theorem kept_directory (gc : Collection) (way : List Node) (node : Node)
    (children rest : Children) :
    (Children.directory node children rest).kept gc way =
      if gc.due node = true ∧ children.holdsUsed gc (way ++ [node]) = false then
        rest.kept gc way
      else .directory node (children.kept gc (way ++ [node])) (rest.kept gc way) := by
  simp only [kept, startGC, startGC_held]
  cases gc.due node <;> cases children.holdsUsed gc (way ++ [node]) <;> rfl

/-- A pass takes the nodes apart into those left and those destroyed. -/
theorem kept_perm (gc : Collection) (way : List Node) (children : Children) :
    ((children.kept gc way).spots way ++ children.gone gc way).Perm (children.spots way) := by
  induction children generalizing way with
  | empty => exact .refl _
  | file node id rest ih =>
      rw [kept_file, gone_file, spots]
      split
      next => exact List.perm_middle.trans ((ih way).cons _)
      next => exact (ih way).cons _
  | directory node children rest ihChildren ihRest =>
      have hchildren := ihChildren (way ++ [node])
      have hrest := ihRest way
      rw [List.perm_iff_count] at hchildren hrest ⊢
      intro t
      have hin := hchildren t
      have hbehind := hrest t
      rw [kept_directory, gone_directory]
      simp only [spots, List.count_append, List.count_cons] at hin hbehind ⊢
      split
      next =>
        simp only [List.count_append, List.count_cons]
        omega
      next =>
        simp only [spots, List.count_append, List.count_cons]
        omega

theorem mem_spots_iff {t : Spot} :
    t ∈ children.spots way ↔ t ∈ (children.kept gc way).spots way ∨ t ∈ children.gone gc way := by
  rw [← List.mem_append]
  exact (kept_perm gc way children).mem_iff.symm

/-- The nodes below a directory have it on their way. -/
theorem prefix_of_mem_spots {t : Spot} (h : t ∈ children.spots way) : way <+: t.way := by
  induction children generalizing way with
  | empty => exact absurd h List.not_mem_nil
  | file node id rest ih =>
      rcases List.mem_cons.1 h with rfl | hrest
      · exact List.prefix_append _ _
      · exact ih hrest
  | directory node children rest ihChildren ihRest =>
      rcases List.mem_cons.1 h with rfl | hbelow
      · exact List.prefix_append _ _
      · rcases List.mem_append.1 hbelow with hin | hrest
        · exact (List.prefix_append _ _).trans (ihChildren hin)
        · exact ihRest hrest

/-- What a pass destroys is due, or something on its way is. -/
theorem gone_due {t : Spot} (h : t ∈ children.gone gc way) :
    ∃ node ∈ t.way, gc.due node = true := by
  induction children generalizing way with
  | empty => exact absurd h List.not_mem_nil
  | file node id rest ih =>
      rw [gone_file] at h
      split at h
      next hgone =>
        rcases List.mem_cons.1 h with rfl | hrest
        · exact ⟨node, List.mem_append_right _ List.mem_cons_self, hgone.2⟩
        · exact ih hrest
      next => exact ih h
  | directory node children rest ihChildren ihRest =>
      rw [gone_directory] at h
      split at h
      next hgone =>
        rcases List.mem_append.1 h with hin | h
        · exact ihChildren hin
        · rcases List.mem_cons.1 h with rfl | h
          · exact ⟨node, List.mem_append_right _ List.mem_cons_self, hgone.1⟩
          · rcases List.mem_append.1 h with hleft | hrest
            · -- what is left in the directory goes with it
              have hway := prefix_of_mem_spots hleft
              exact ⟨node, hway.subset (List.mem_append_right _ List.mem_cons_self), hgone.1⟩
            · exact ihRest hrest
      next =>
        rcases List.mem_append.1 h with hin | hrest
        · exact ihChildren hin
        · exact ihRest hrest

/-- The files of a kind are spared exactly if the directories and the files keep them. -/
theorem keeps_iff {kind : Spot → Prop} :
    (∀ t ∈ children.gone gc way, t.file.isSome = true → ¬ kind t) ↔
      children.Keeps gc kind way := by
  induction children generalizing way with
  | empty => exact iff_of_true (fun t ht => absurd ht List.not_mem_nil) trivial
  | file node id rest ih =>
      rw [Keeps, ← ih, gone_file]
      split
      next hgone =>
        rw [List.forall_mem_cons]
        refine and_congr_left' ?_
        simp [hgone.1, hgone.2]
      next hkept =>
        refine (and_iff_right fun hdue _ => ?_).symm
        cases hused : gc.isUsed (way ++ [node]) with
        | true => rfl
        | false => exact absurd ⟨hused, hdue⟩ hkept
  | directory node children rest ihChildren ihRest =>
      rw [Keeps, ← ihChildren, ← ihRest, gone_directory]
      split
      next hgone =>
        constructor
        · intro h
          refine ⟨?_, ?_, ?_⟩
          · rintro - ⟨t, ht, hfile, hkind⟩
            refine absurd hkind (h t ?_ hfile)
            rcases mem_spots_iff.1 ht with hleft | hin
            · exact List.mem_append_right _
                (List.mem_cons_of_mem _ (List.mem_append_left _ hleft))
            · exact List.mem_append_left _ hin
          · exact fun t ht => h t (List.mem_append_left _ ht)
          · exact fun t ht => h t (List.mem_append_right _
              (List.mem_cons_of_mem _ (List.mem_append_right _ ht)))
        · rintro ⟨hholds, hin, hrest⟩ t ht hfile hkind
          rcases List.mem_append.1 ht with ht | ht
          · exact hin t ht hfile hkind
          · rcases List.mem_cons.1 ht with rfl | ht
            · cases hfile
            · rcases List.mem_append.1 ht with hleft | ht
              · have hheld := hholds hgone.1 ⟨t, mem_spots_iff.2 (.inl hleft), hfile, hkind⟩
                exact Bool.false_ne_true (hgone.2.symm.trans hheld)
              · exact hrest t ht hfile hkind
      next hkept =>
        rw [List.forall_mem_append]
        refine (and_iff_right fun hdue _ => ?_).symm
        cases hholds : children.holdsUsed gc (way ++ [node]) with
        | true => rfl
        | false => exact absurd ⟨hdue, hholds⟩ hkept

/-- A used file that is due stays by itself. -/
theorem usedHeld_iff :
    children.UsedHeld gc way ↔ children.Keeps gc (fun t => gc.isUsed t.way = true) way := by
  induction children generalizing way with
  | empty => exact Iff.rfl
  | file node id rest ih =>
      rw [UsedHeld, Keeps, ih]
      exact (and_iff_right fun _ hused => hused).symm
  | directory node children rest ihChildren ihRest => rw [UsedHeld, Keeps, ihChildren, ihRest]

end Children

/-- A pass spares the files in use exactly if every directory that is due and has one
below it has one in it itself. -/
theorem spares_iff (gc : Collection) (children : Children) :
    Spares gc children ↔ children.UsedHeld gc [] := by
  rw [Children.usedHeld_iff, ← Children.keeps_iff]
  constructor
  · intro h t ht hfile hused
    rw [h.used t ht hfile] at hused
    cases hused
  · exact fun h =>
      ⟨fun t ht hfile => Bool.eq_false_iff.2 (h t ht hfile), fun t => Children.gone_due⟩

/-- A removed directory `a` with a directory `b` that has a file `f`. -/
def removedAbove : Children :=
  .directory { name := [97], delete := true, deleteTick := 10 }
    (.directory { name := [98] } (.file { name := [102] } 7 .empty) .empty) .empty

/-- `f` is used. -/
def readingBelow : Collection :=
  { now := 200, expire := 100, used := fun names => names == [[97], [98], [102]] }

/-- It is destroyed with `a`, which is not told. -/
theorem used_file_destroyed :
    ¬ ∀ (gc : Collection) (children : Children), Spares gc children := by
  intro h
  have hused := (h readingBelow removedAbove).used
  revert hused
  decide +kernel

end Ofs.Master
