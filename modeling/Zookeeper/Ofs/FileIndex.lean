import Zookeeper.KeyedList
import Zookeeper.Ofs.Archive
import Zookeeper.Ofs.Collector
import Zookeeper.Transition

/-!
# The index of files

`FileSystem::_files` keeps the files by their ids, for the reports of the chunk servers.
Loading and creating put files in.  Nothing takes any out: `StartGC` destroys the files of
a directory and leaves their entries.

A file stays under the names it was made under for as long as it exists, so an entry is
an id with the names on the way to its file.  `mirrors_of_run` says that the index has the
files of the tree while no file is collected and no id comes twice.
-/

namespace Ofs.Master

/-! ## The files of a tree -/

/-- A file with its id, and the names on the way to it. -/
abbrev FileEntry := Int64 × List Bytes

/-- The files below a directory. -/
def Children.files : List Bytes → Children → List FileEntry
  | _, .empty => []
  | names, .file node id rest => (id, names ++ [node.name]) :: rest.files names
  | names, .directory node children rest =>
      children.files (names ++ [node.name]) ++ rest.files names

/-- The file an item is, or the files below it. -/
def Item.files (names : List Bytes) : Item → List FileEntry
  | .file _ id => [(id, names)]
  | .directory _ children => children.files names

/-! ## The index -/

/-- `FileSystem`: `_root` and `_files`, and whether it has started. -/
structure FileIndex where
  started : Bool := false
  root : Item := .directory {} .empty
  files : List FileEntry := []
deriving DecidableEq, Repr

/-- `FileSystem::AddFile`.  An id that is there keeps its file. -/
def addFile (files : List FileEntry) (file : FileEntry) : List FileEntry :=
  KeyedList.addNew files file

/-- `Directory::BuildAllFile`. -/
def buildAllFile (root : Item) : List FileEntry := (root.files []).foldl addFile []

/-- The file `Directory::CreateNode` makes and gives to `AddFile`. -/
def Item.madeFile (user : User) (name : Bytes) (dir : Bool) (id : Int64) : Item → Option Int64
  | .file _ _ => none
  | .directory node children =>
      if node.checkAuthority user false && (children.find name).isNone && !dir then some id
      else none

/-- `Directory::StartGC` of the root. -/
def Item.startGC (gc : Collection) : Item → Item
  | .file node id => .file node id
  | .directory node children => .directory node (children.kept gc [])

/-- The root `LoadFromFile` sets up where there is no file. -/
def freshRoot (now : Int64) : Item :=
  .directory { owner := rootName, ownerGroup := rootName, authority := 1 ||| 2 ||| 8 ||| 64,
               createTime := now, updateTime := now, root := true } .empty

/-- What is done to the tree. -/
inductive IndexAct where
  /-- `LoadFromFile`, of the file that was saved if there is one. -/
  | load (w : Nat) (file : Option Bytes) (now : Int64)
  | create (user : User) (path name : Bytes) (authority : Int16) (dir : Bool) (now id : Int64)
  | remove (user : User) (path : Bytes) (now : Int64)
  | startGC (gc : Collection)

namespace FileIndex

/-- `FileSystem::GetFile`, for the names on the way to the file. -/
def getFile (s : FileIndex) (id : Int64) : Option (List Bytes) := s.files.lookup id

/-- The callback of `CreateNode`, with the file it makes. -/
def creation (user : User) (name : Bytes) (authority : Int16) (dir : Bool) (now id : Int64)
    (item : Item) : Option Int64 × Item :=
  (item.madeFile user name dir id, (item.createNode user name authority dir now id).2)

/-- What is loaded first, and one thing done after the other. -/
def step (s : FileIndex) : IndexAct → Option FileIndex
  | .load w file now =>
      if s.started then none
      else
        match file with
        | none => some { started := true, root := freshRoot now, files := [] }
        | some file =>
            (loadFromFile w file).map fun root =>
              { started := true, root := root, files := buildAllFile root }
  | .create user path name authority dir now id =>
      if s.started then
        let r := s.root.queryNode (creation user name authority dir now id) path
        match r.1.join with
        | some id =>
            some { s with root := r.2, files := addFile s.files (id, walkedNames path ++ [name]) }
        | none => some { s with root := r.2 }
      else none
  | .remove user path now =>
      if s.started then
        some { s with root := (s.root.queryNode (Item.remove user now) path).2 }
      else none
  | .startGC gc =>
      if s.started then some { s with root := s.root.startGC gc } else none

end FileIndex

/-- `FILE_ID_FROM_BLOCK`. -/
def fileIdFromBlock (blockId : Int64) : Int64 := (blockId.toUInt64 &&& 0xFFFFFFFF800003FF).toInt64

/-- `DataNodeService::OnReport` tells the chunk server to clean a block it reports. -/
def FileIndex.cleans (s : FileIndex) (blockId : Int64) : Bool :=
  (s.getFile (fileIdFromBlock blockId)).isNone

/-- The index has the files of the tree, each under its id.  So `GetFile` returns these and
no others, and `OnReport` cleans the blocks of all others. -/
structure FileIndex.Mirrors (s : FileIndex) : Prop where
  entries : s.files.Perm (s.root.files [])
  getFile : ∀ id names, s.getFile id = some names ↔ (id, names) ∈ s.root.files []
  cleans : ∀ blockId, s.cleans blockId = true ↔
    ∀ names, (fileIdFromBlock blockId, names) ∉ s.root.files []

/-- The runs of the file system. -/
def indexSystem : Transition.System FileIndex IndexAct :=
  Transition.ofStep (fun s => s = {}) FileIndex.step

/-- A pass destroys no file: one that is due is used, and a directory that is due and has
files below it has a used one in it itself. -/
def Children.FilesHeld (gc : Collection) : List Node → Children → Prop
  | _, .empty => True
  | way, .file node _ rest =>
      (gc.due node = true → gc.isUsed (way ++ [node]) = true) ∧ rest.FilesHeld gc way
  | way, .directory node children rest =>
      (gc.due node = true → children.files [] ≠ [] →
          children.holdsUsed gc (way ++ [node]) = true) ∧
        children.FilesHeld gc (way ++ [node]) ∧ rest.FilesHeld gc way

instance Children.decidableFilesHeld (gc : Collection) :
    ∀ way children, Decidable (Children.FilesHeld gc way children)
  | _, .empty => inferInstanceAs (Decidable True)
  | way, .file node _ rest =>
      have := decidableFilesHeld gc way rest
      inferInstanceAs (Decidable ((gc.due node = true → gc.isUsed (way ++ [node]) = true) ∧ _))
  | way, .directory node children rest =>
      have := decidableFilesHeld gc (way ++ [node]) children
      have := decidableFilesHeld gc way rest
      inferInstanceAs (Decidable ((gc.due node = true → children.files [] ≠ [] →
          children.holdsUsed gc (way ++ [node]) = true) ∧ _ ∧ _))

/-- The same for the root. -/
def Item.FilesHeld (gc : Collection) : Item → Prop
  | .file .. => True
  | .directory _ children => children.FilesHeld gc []

instance Item.decidableFilesHeld (gc : Collection) : ∀ root, Decidable (Item.FilesHeld gc root)
  | .file .. => inferInstanceAs (Decidable True)
  | .directory _ children => Children.decidableFilesHeld gc [] children

/-- No id comes twice, in what is loaded or with a new file, and no pass destroys a file. -/
def KeepsFiles (s : FileIndex) : IndexAct → Prop
  | .load w file _ =>
      ∀ root ∈ file.bind (loadFromFile w), ((root.files []).map Prod.fst).Nodup
  | .create _ _ _ _ dir _ id => dir = false → id ∉ s.files.map Prod.fst
  | .remove .. => True
  | .startGC gc => s.root.FilesHeld gc

instance (s : FileIndex) : ∀ a, Decidable (KeepsFiles s a)
  | .load _ _ _ => inferInstanceAs (Decidable (∀ root ∈ _, _))
  | .create _ _ _ _ _ _ _ => inferInstanceAs (Decidable (_ → _))
  | .remove _ _ _ => inferInstanceAs (Decidable True)
  | .startGC gc => Item.decidableFilesHeld gc s.root

/-! ## Files and passes -/

/-- The entry of a file. -/
def Spot.entry (t : Spot) : Option FileEntry := t.file.map fun id => (id, t.way.map Node.name)

namespace Children

variable {gc : Collection}

theorem files_before (item : Item) (rest : Children) (names : List Bytes) :
    (item.before rest).files names =
      item.files (names ++ [item.node.name]) ++ rest.files names := by
  cases item <;> rfl

theorem files_spots (way : List Node) (children : Children) :
    children.files (way.map Node.name) = (children.spots way).filterMap Spot.entry := by
  induction children generalizing way with
  | empty => rfl
  | file node id rest ih =>
      have hentry : Spot.entry ⟨way ++ [node], some id⟩ =
          some (id, way.map Node.name ++ [node.name]) := by
        rw [Spot.entry, List.map_append]
        rfl
      rw [files, ih, spots, List.filterMap_cons_some hentry]
  | directory node children rest ihChildren ihRest =>
      have hway : way.map Node.name ++ [node.name] = (way ++ [node]).map Node.name := by
        rw [List.map_append]
        rfl
      rw [files, hway, ihChildren, ihRest, spots, List.filterMap_cons_none rfl,
        List.filterMap_append]

theorem files_eq_nil (names : List Bytes) (way : List Node) (children : Children) :
    children.files names = [] ↔ ∀ t ∈ children.spots way, t.file.isSome = false := by
  induction children generalizing names way with
  | empty => exact iff_of_true rfl fun t ht => absurd ht List.not_mem_nil
  | file node id rest ih =>
      refine iff_of_false (List.cons_ne_nil _ _) fun h => ?_
      exact Bool.false_ne_true (h _ List.mem_cons_self).symm
  | directory node children rest ihChildren ihRest =>
      rw [files, spots, List.append_eq_nil_iff, ihChildren _ (way ++ [node]), ihRest _ way,
        List.forall_mem_cons, List.forall_mem_append]
      exact (and_iff_right rfl).symm

theorem filesHeld_iff {way : List Node} {children : Children} :
    children.FilesHeld gc way ↔ children.Keeps gc (fun _ => True) way := by
  induction children generalizing way with
  | empty => exact Iff.rfl
  | file node id rest ih =>
      rw [FilesHeld, Keeps, ih]
      simp
  | directory node children rest ihChildren ihRest =>
      have hsome : children.files [] ≠ [] ↔
          ∃ t ∈ children.spots (way ++ [node]), t.file.isSome = true ∧ True := by
        rw [Ne, children.files_eq_nil [] (way ++ [node])]
        simp only [not_forall, exists_prop, Bool.not_eq_false, and_true]
      rw [FilesHeld, Keeps, ihChildren, ihRest, hsome]

/-- A pass that destroys no file leaves them all. -/
theorem files_kept {children : Children} (h : children.FilesHeld gc []) :
    ((children.kept gc []).files []).Perm (children.files []) := by
  have hgone : (children.gone gc []).filterMap Spot.entry = [] := by
    rw [List.filterMap_eq_nil_iff]
    intro t ht
    have hnone : ¬ t.file.isSome = true := fun hfile =>
      keeps_iff.2 (filesHeld_iff.1 h) t ht hfile trivial
    rw [Spot.entry, Option.not_isSome_iff_eq_none.1 hnone]
    rfl
  have hperm := (kept_perm gc [] children).filterMap Spot.entry
  rw [List.filterMap_append, hgone, List.append_nil, ← files_spots, ← files_spots] at hperm
  exact hperm

/-! ## Files and requests -/

theorem files_modify {f : Node → Node} (keeps : ∀ node, (f node).name = node.name)
    (name : Bytes) (names : List Bytes) (children : Children) :
    (children.modify name f).files names = children.files names := by
  induction children using siblings with
  | empty => rfl
  | before item rest ih =>
      rw [modify_before]
      split
      next =>
        rw [files_before, files_before, Item.node_modify, keeps]
        cases item <;> rfl
      next => rw [files_before, files_before, ih]

end Children

/-- Some files are others with those of an item under some names replaced. -/
def FilesReplaced (names : List Bytes) (old new : Item) (files files' : List FileEntry) : Prop :=
  ∃ others, files.Perm (old.files names ++ others) ∧ files'.Perm (new.files names ++ others)

namespace FilesReplaced

variable {names : List Bytes} {old new : Item} {files files' : List FileEntry}

/-- The item at the front of its siblings. -/
theorem front (old : Item) (rest : Children) (names : List Bytes) {name : Bytes}
    (hold : old.node.name = name) (hnew : new.node.name = name) :
    FilesReplaced (names ++ [name]) old new ((old.before rest).files names)
      ((new.before rest).files names) := by
  refine ⟨rest.files names, .of_eq ?_, .of_eq ?_⟩
  · rw [Children.files_before, hold]
  · rw [Children.files_before, hnew]

theorem append_left (h : FilesReplaced names old new files files') (before : List FileEntry) :
    FilesReplaced names old new (before ++ files) (before ++ files') := by
  obtain ⟨others, hfiles, hfiles'⟩ := h
  have hmove : ∀ own : List FileEntry,
      (before ++ (own ++ others)).Perm (own ++ (before ++ others)) := by
    intro own
    rw [← List.append_assoc, ← List.append_assoc]
    exact List.perm_append_comm.append_right others
  exact ⟨before ++ others, (hfiles.append_left before).trans (hmove _),
    (hfiles'.append_left before).trans (hmove _)⟩

theorem append_right (h : FilesReplaced names old new files files') (behind : List FileEntry) :
    FilesReplaced names old new (files ++ behind) (files' ++ behind) := by
  obtain ⟨others, hfiles, hfiles'⟩ := h
  refine ⟨others ++ behind, ?_, ?_⟩
  · rw [← List.append_assoc]
    exact hfiles.append_right behind
  · rw [← List.append_assoc]
    exact hfiles'.append_right behind

end FilesReplaced

section Walk

variable {α : Type} {fn : Item → α × Item}

/-- A walk through children replaces the files of the node it leads to, and no others. -/
theorem Children.files_queryNode (keeps : ∀ item, (fn item).2.node.name = item.node.name)
    (children : Children) (sub : Bytes) (next : Option Bytes) (names : List Bytes) :
    children.queryNode fn sub next = (none, children) ∨
    ∃ item, (children.queryNode fn sub next).1 = some (fn item).1 ∧
      FilesReplaced (names ++ sub :: (next.map walkedNames).getD []) item (fn item).2
        (children.files names) ((children.queryNode fn sub next).2.files names) := by
  induction children generalizing sub next names with
  | empty => exact .inl rfl
  | file node id rest ih =>
      simp only [queryNode]
      split
      next hname =>
        split
        next => exact .inl rfl
        next hlast =>
          obtain rfl : next = none := by
            rw [Bool.or_eq_true, not_or, Option.not_isSome_iff_eq_none] at hlast
            exact hlast.2
          refine .inr ⟨.file node id, rfl, ?_⟩
          exact FilesReplaced.front (.file node id) rest names hname ((keeps _).trans hname)
      next =>
        rcases ih sub next names with hfn | ⟨item, hfn, hreplaced⟩
        · exact .inl (by rw [hfn])
        · exact .inr ⟨item, hfn, hreplaced.append_left [_]⟩
  | directory node children rest ihChildren ihRest =>
      simp only [queryNode]
      split
      next hname =>
        have hfront := FilesReplaced.front (.directory node children) rest names hname
          ((keeps (.directory node children)).trans hname)
        split
        next => exact .inl rfl
        next =>
          split
          next => exact .inr ⟨.directory node children, rfl, hfront⟩
          next path =>
            rw [Option.map_some, Option.getD_some, walkedNames_splitPath]
            split
            next => exact .inr ⟨.directory node children, rfl, hfront⟩
            next =>
              rcases ihChildren (splitPath path).1 (splitPath path).2 (names ++ [sub]) with
                hfn | ⟨item, hfn, hreplaced⟩
              · exact .inl (by rw [hfn])
              · refine .inr ⟨item, hfn, ?_⟩
                rw [List.append_assoc] at hreplaced
                simp only [files, hname]
                exact hreplaced.append_right _
      next =>
        rcases ihRest sub next names with hfn | ⟨item, hfn, hreplaced⟩
        · exact .inl (by rw [hfn])
        · exact .inr ⟨item, hfn, hreplaced.append_left _⟩

/-- A walk from a root does the same. -/
theorem Item.files_queryNode (keeps : ∀ item, (fn item).2.node.name = item.node.name)
    (root : Item) (path : Bytes) :
    root.queryNode fn path = (none, root) ∨
    ∃ item, (root.queryNode fn path).1 = some (fn item).1 ∧
      FilesReplaced (walkedNames path) item (fn item).2 (root.files [])
        ((root.queryNode fn path).2.files []) := by
  cases root with
  | file node id => exact .inl rfl
  | directory node children =>
      simp only [queryNode, walkedNames_splitPath]
      split
      next => exact .inr ⟨.directory node children, rfl, [], .of_eq (List.append_nil _).symm,
        .of_eq (List.append_nil _).symm⟩
      next =>
        rcases children.files_queryNode keeps (splitPath path).1 (splitPath path).2 [] with
          hfn | ⟨item, hfn, hreplaced⟩
        · exact .inl (by rw [hfn])
        · exact .inr ⟨item, hfn, hreplaced⟩

end Walk

theorem Item.madeFile_some {user : User} {name : Bytes} {dir : Bool} {id made : Int64}
    {item : Item} (h : item.madeFile user name dir id = some made) : made = id ∧ dir = false := by
  cases item with
  | file node fileId => cases h
  | directory node children =>
      rw [madeFile] at h
      split at h
      next hmakes =>
        cases dir with
        | true => simp at hmakes
        | false => exact ⟨(Option.some.inj h).symm, rfl⟩
      next => cases h

/-- `CreateNode` adds the file it makes, if any. -/
theorem Item.files_creation (user : User) (name : Bytes) (authority : Int16) (dir : Bool)
    (now id : Int64) (item : Item) (names : List Bytes) :
    (FileIndex.creation user name authority dir now id item).2.files names =
      ((item.madeFile user name dir id).map fun id => (id, names ++ [name])).toList ++
        item.files names := by
  cases item with
  | file node fileId => rfl
  | directory node children =>
      simp only [FileIndex.creation, createNode, createIn, madeFile]
      cases node.checkAuthority user false with
      | false => rfl
      | true =>
          cases hfind : children.find name with
          | some child =>
              simp only [Bool.not_true, Bool.false_eq_true, if_false]
              split
              next =>
                split
                next => rfl
                next => exact Children.files_modify Node.name_recover name names children
              next => rfl
          | none =>
              have hname : (newItem user name authority dir now id).node.name = name := by
                rw [newItem_node]
                rfl
              show ((newItem user name authority dir now id).before children).files names = _
              rw [Children.files_before, hname]
              cases dir <;> rfl

theorem Item.files_remove (user : User) (now : Int64) (item : Item) (names : List Bytes) :
    (item.remove user now).2.files names = item.files names := by
  rcases item.remove_cases user now with ⟨hsame, -⟩ | ⟨hmarked, -⟩
  · rw [hsame]
  · rw [hmarked]
    cases item <;> rfl

/-! ## The invariant -/

namespace FileIndex

variable {s s' : FileIndex}

/-- The index has the files of the tree, and no id twice. -/
structure Inv (s : FileIndex) : Prop where
  entries : s.files.Perm (s.root.files [])
  distinct : (s.files.map Prod.fst).Nodup

namespace Inv

theorem load {root : Item} (distinct : ((root.files []).map Prod.fst).Nodup) :
    Inv { started := true, root := root, files := buildAllFile root } := by
  have hperm : (buildAllFile root).Perm (root.files []) := KeyedList.addNew_nil_perm distinct
  exact ⟨hperm, (hperm.map Prod.fst).nodup_iff.2 distinct⟩

theorem create (hs : s.Inv) {user : User} {path name : Bytes} {authority : Int16} {dir : Bool}
    {now id : Int64} (new : dir = false → id ∉ s.files.map Prod.fst)
    (h : s.step (.create user path name authority dir now id) = some s') : s'.Inv := by
  rw [FileIndex.step] at h
  split at h
  next =>
    have hwalk := @Item.files_queryNode _ (creation user name authority dir now id)
      (Item.name_createNode user name authority dir now id) s.root path
    rcases hwalk with hsame | ⟨item, hmade, others, hfiles, hfiles'⟩
    · rw [hsame] at h
      cases h
      exact hs
    · have hcreated : (creation user name authority dir now id item).1 =
          item.madeFile user name dir id := rfl
      rw [Item.files_creation] at hfiles'
      simp only [hmade, Option.join_some, hcreated] at h
      cases hfile : item.madeFile user name dir id with
      | none =>
          rw [hfile] at h hfiles'
          cases h
          exact ⟨hs.entries.trans (hfiles.trans hfiles'.symm), hs.distinct⟩
      | some made =>
          rw [hfile] at h hfiles'
          cases h
          obtain ⟨rfl, hdir⟩ := Item.madeFile_some hfile
          have hadded := KeyedList.addNew_of_not_mem
            (e := (made, walkedNames path ++ [name])) (new hdir)
          refine ⟨?_, KeyedList.nodup_addNew hs.distinct _⟩
          show (addFile s.files _).Perm _
          rw [addFile, hadded]
          exact ((hs.entries.trans hfiles).cons _).trans hfiles'.symm
  next => cases h

theorem remove (hs : s.Inv) (user : User) (path : Bytes) (now : Int64) :
    Inv { s with root := (s.root.queryNode (Item.remove user now) path).2 } := by
  rcases s.root.files_queryNode (Item.name_remove user now) path with
    hsame | ⟨item, -, others, hfiles, hfiles'⟩
  · rw [hsame]
    exact hs
  · refine ⟨hs.entries.trans (hfiles.trans ?_), hs.distinct⟩
    rw [Item.files_remove] at hfiles'
    exact hfiles'.symm

theorem startGC (hs : s.Inv) {gc : Collection} (keeps : KeepsFiles s (.startGC gc)) :
    Inv { s with root := s.root.startGC gc } := by
  cases hroot : s.root with
  | file node id =>
      refine ⟨hs.entries.trans ?_, hs.distinct⟩
      rw [hroot]
      rfl
  | directory node children =>
      rw [KeepsFiles, hroot, Item.FilesHeld] at keeps
      refine ⟨hs.entries.trans ?_, hs.distinct⟩
      rw [hroot]
      exact (Children.files_kept keeps).symm

theorem step (hs : s.Inv) {a : IndexAct} (ha : KeepsFiles s a) (h : s.step a = some s') :
    s'.Inv := by
  cases a with
  | load w file now =>
      cases file with
      | none =>
          simp only [FileIndex.step] at h
          split at h
          next => cases h
          next =>
            cases h
            exact ⟨.refl _, List.nodup_nil⟩
      | some file =>
          simp only [FileIndex.step] at h
          split at h
          next => cases h
          next =>
            obtain ⟨root, hroot, rfl⟩ := Option.map_eq_some_iff.1 h
            exact load (ha root hroot)
  | create user path name authority dir now id => exact hs.create ha h
  | remove user path now =>
      rw [FileIndex.step] at h
      split at h
      next =>
        cases h
        exact hs.remove user path now
      next => cases h
  | startGC gc =>
      rw [FileIndex.step] at h
      split at h
      next =>
        cases h
        exact hs.startGC ha
      next => cases h

theorem mirrors (hs : s.Inv) : s.Mirrors := by
  have hfound : ∀ id names, s.getFile id = some names ↔ (id, names) ∈ s.root.files [] := by
    intro id names
    rw [getFile, KeyedList.lookup_iff hs.distinct, hs.entries.mem_iff]
  refine ⟨hs.entries, hfound, fun blockId => ?_⟩
  rw [cleans, Option.isNone_iff_eq_none, Option.eq_none_iff_forall_ne_some]
  exact forall_congr' fun names => not_congr (hfound _ names)

end Inv

end FileIndex

/-- The index mirrors the tree in every run that destroys no file and repeats no id. -/
theorem mirrors_of_run {s : FileIndex} (h : indexSystem.Run KeepsFiles s) : s.Mirrors := by
  have hinv : s.Inv :=
    Transition.System.Run.invariant (fun s hs => hs ▸ ⟨.refl _, List.nodup_nil⟩)
      (fun _ _ _ hs ha hstep => hs.step ha hstep) h
  exact hinv.mirrors

/-- `root`. -/
def admin : User := { name := rootName, group := rootName, super := true }

/-- A directory `d` with a file `f`, which is removed and not collected yet. -/
def removedFile : List IndexAct :=
  [.load 4 none 0, .create admin [] [100] 0 true 1 0, .create admin [100] [102] 0 false 2 77,
   .remove admin [100, 47, 102] 5, .startGC ⟨50, 100, fun _ => false⟩]

/-- The state `removedFile` reaches. -/
def afterRemoval : FileIndex := (Transition.exec FileIndex.step {} removedFile).getD {}

/-- The index still has the file, and so does the tree. -/
theorem mirrors_removed : afterRemoval.Mirrors := by
  have hexec : Transition.exec FileIndex.step {} removedFile = some afterRemoval := by
    decide +kernel
  have hrun : indexSystem.Run KeepsFiles afterRemoval :=
    Transition.exec_run (.start rfl) (by decide +kernel) hexec
  exact mirrors_of_run hrun

/-- The state after another pass, when the time of the file has passed. -/
def afterCollection : FileIndex :=
  (Transition.exec FileIndex.step {} (removedFile ++ [.startGC ⟨200, 100, fun _ => false⟩])).getD {}

/-- Then the tree has it no more. -/
theorem collected_file_found : ¬ ∀ s, indexSystem.Reachable s → s.Mirrors := by
  intro h
  have hexec : Transition.exec FileIndex.step {}
      (removedFile ++ [.startGC ⟨200, 100, fun _ => false⟩]) = some afterCollection := by
    decide +kernel
  have hmirrors := h afterCollection (Transition.exec_reachable rfl hexec)
  have hfound : afterCollection.getFile 77 = some [[100], [102]] := by decide +kernel
  have hnone : afterCollection.root.files [] = [] := by decide +kernel
  have hmem := (hmirrors.getFile _ _).1 hfound
  rw [hnone] at hmem
  exact absurd hmem List.not_mem_nil

end Ofs.Master
