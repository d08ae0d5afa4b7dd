import Zookeeper.BufferedReader
import Zookeeper.Ofs.ClientService

/-!
# The namespace in a file

`FileSystem::SaveToFile` writes the tree of directories value by value, and
`LoadFromFile` reads it back through a `BufferFileStream` of 1024 bytes
(`olib/include/bufferstream.h`).  Integers are written raw, and strings behind their
length, in a number of bytes that the archivers know.

The stream fills its buffer behind the bytes that are left in it, with as many bytes as
the buffer is long.  So a file longer than the buffer is read only as far as values end
where the buffer ends.  `persists_iff` says which trees come back.
-/

namespace Ofs.Master

/-! ## Writing -/

/-- A string behind its length in `w` bytes. -/
def oarchiveString (w : Nat) (s : Bytes) : List Bytes := [Bytes.ofNat w s.length, s]

/-- `Node::Archive` of an `OArchiver`: the values it writes. -/
def Node.oarchive (w : Nat) (node : Node) : List Bytes :=
  oarchiveString w node.name ++ (oarchiveString w node.owner ++ (oarchiveString w node.ownerGroup ++
    [Codec.int16.encode node.authority, Codec.int64.encode node.createTime,
      Codec.int64.encode node.updateTime, Codec.bool.encode node.delete,
      Codec.int64.encode node.deleteTick]))

/-- The number of children. -/
def Children.count : Children → Nat
  | .empty => 0
  | .file _ _ rest => rest.count + 1
  | .directory _ _ rest => rest.count + 1

/-- The loop of `Directory::Archive`, each child behind its kind. -/
def Children.oarchive (w : Nat) : Children → List Bytes
  | .empty => []
  | .file node id rest =>
      Codec.bool.encode false :: (node.oarchive w ++ (Codec.int64.encode id :: rest.oarchive w))
  | .directory node children rest =>
      Codec.bool.encode true :: (node.oarchive w ++
        (Codec.int32.encode (Int32.ofNat children.count) ::
          (children.oarchive w ++ rest.oarchive w)))

/-- `Directory::Archive` and `File::Archive` of an `OArchiver`. -/
def Item.oarchive (w : Nat) : Item → List Bytes
  | .file node id => node.oarchive w ++ [Codec.int64.encode id]
  | .directory node children =>
      node.oarchive w ++ (Codec.int32.encode (Int32.ofNat children.count) :: children.oarchive w)

/-- `FileSystem::SaveToFile`. -/
def saveToFile (w : Nat) (root : Item) : Bytes := (root.oarchive w).flatten

/-! ## Reading -/

def iarchiveString (w : Nat) : Reading Bytes :=
  .read w fun len => .read (Bytes.toNat len) .done

/-- `Node::Archive` of an `IArchiver`. -/
def Node.iarchive (w : Nat) : Reading Node := do
  let name ← iarchiveString w
  let owner ← iarchiveString w
  let ownerGroup ← iarchiveString w
  let authority ← Reading.value Codec.int16
  let createTime ← Reading.value Codec.int64
  let updateTime ← Reading.value Codec.int64
  let delete ← Reading.value Codec.bool
  let deleteTick ← Reading.value Codec.int64
  return { name, owner, ownerGroup, authority, createTime, updateTime, delete, deleteTick }

/-- `_children[node->GetName()] = node`, before the children that are read later. -/
def Item.assign (item : Item) (rest : Children) : Children :=
  if (rest.find item.node.name).isSome then rest else item.before rest

/-- The loop of `Directory::Archive`, for the number of children left.  Every child is
behind a byte for its kind, so the bytes of the file bound what is read. -/
def Children.iarchive (w : Nat) : Nat → Nat → Reading Children
  | 0, _ => .fail
  | _ + 1, 0 => .done .empty
  | fuel + 1, left + 1 => do
      let dir ← Reading.value Codec.bool
      let node ← Node.iarchive w
      if dir then
        let count ← Reading.value Codec.int32
        let children ← Children.iarchive w fuel count.toNatClampNeg
        let rest ← Children.iarchive w fuel left
        return (Item.directory node children).assign rest
      else
        let id ← Reading.value Codec.int64
        let rest ← Children.iarchive w fuel left
        return (Item.file node id).assign rest

/-- `Directory::Archive` of an `IArchiver`, for the root. -/
def Item.iarchive (w fuel : Nat) : Reading Item := do
  let node ← Node.iarchive w
  let count ← Reading.value Codec.int32
  let children ← Children.iarchive w fuel count.toNatClampNeg
  return .directory node children

/-- `FileSystem::LoadFromFile`, of a file that exists.  A stream that has failed stays
failed, and what it writes behind its buffer is lost for good. -/
def loadFromFile (w : Nat) (file : Bytes) : Option Item :=
  (Buffer.run 1024 (Item.iarchive w (file.length + 1)) { file := file }).map
    (Item.modify fun node => { node with root := true })

/-! ## What is kept -/

/-- What a file says of a node.  The size of a file is reported by the chunk servers, and
the mark of the root is set after loading. -/
def Node.archived (node : Node) : Node := { node with size := 0, root := false }

def Children.archived : Children → Children
  | .empty => .empty
  | .file node id rest => .file node.archived id rest.archived
  | .directory node children rest => .directory node.archived children.archived rest.archived

def Item.archived : Item → Item
  | .file node id => .file node.archived id
  | .directory node children => .directory node.archived children.archived

/-- `FileSystem`, for its root. -/
structure FileSystem where
  root : Item
  isDir : root.isDir = true
  distinct : root.distinct = true

/-- The root after a request. -/
def FileSystem.serve (fs : FileSystem) (settings : Settings) (blocks : Blocks) (user : User)
    (outside : Outside) (request : Request) : FileSystem where
  root := (State.serve settings ⟨fs.root, blocks⟩ user outside request).1.root
  isDir := by
    cases request with
    | makeDir | create =>
        exact (Item.isDir_queryNode (Item.isDir_createNode _ _ _ _ _ _) _).trans fs.isDir
    | remove => exact (Item.isDir_queryNode (Item.isDir_remove _ _) _).trans fs.isDir
    | list | status | read | write | append => exact fs.isDir
  distinct := by
    cases request with
    | makeDir | create =>
        exact Item.queryNode_distinct (Item.name_createNode _ _ _ _ _ _)
          (Item.distinct_createNode _ _ _ _ _ _) _ fs.distinct
    | remove =>
        exact Item.queryNode_distinct (Item.name_remove _ _) (Item.distinct_remove _ _) _
          fs.distinct
    | list | status | read | write | append => exact fs.distinct

/-- Loading the file that was saved gives back the tree. -/
def Persists (w : Nat) (fs : FileSystem) : Prop :=
  ∃ root, loadFromFile w (saveToFile w fs.root) = some root ∧ root.archived = fs.root.archived

/-! ## What the file can say -/

/-- The lengths of the strings fit into their bytes. -/
structure Node.Sized (w : Nat) (node : Node) : Prop where
  name : node.name.length < 256 ^ w
  owner : node.owner.length < 256 ^ w
  ownerGroup : node.ownerGroup.length < 256 ^ w

/-- So do those of the nodes of a tree, and the numbers of children into an `int32_t`. -/
def Children.Sized (w : Nat) : Children → Prop
  | .empty => True
  | .file node _ rest => node.Sized w ∧ rest.Sized w
  | .directory node children rest =>
      node.Sized w ∧ children.count < 2 ^ 31 ∧ children.Sized w ∧ rest.Sized w

def Item.Sized (w : Nat) : Item → Prop
  | .file node _ => node.Sized w
  | .directory node children => node.Sized w ∧ children.count < 2 ^ 31 ∧ children.Sized w

section Sized

variable {w : Nat}

theorem Node.sized_archived (node : Node) : node.archived.Sized w ↔ node.Sized w :=
  ⟨fun h => ⟨h.1, h.2, h.3⟩, fun h => ⟨h.1, h.2, h.3⟩⟩

theorem Children.count_archived (children : Children) :
    children.archived.count = children.count := by
  induction children with
  | empty => rfl
  | file node id rest ih => rw [archived, count, ih, count]
  | directory node children rest _ ih => rw [archived, count, ih, count]

theorem Children.sized_archived (children : Children) :
    children.archived.Sized w ↔ children.Sized w := by
  induction children with
  | empty => exact Iff.rfl
  | file node id rest ih => exact and_congr node.sized_archived ih
  | directory node children rest ihChildren ihRest =>
      rw [archived, Sized, Sized, count_archived]
      exact and_congr node.sized_archived
        (and_congr Iff.rfl (and_congr ihChildren ihRest))

theorem Item.sized_archived (item : Item) : item.archived.Sized w ↔ item.Sized w := by
  cases item with
  | file node id => exact node.sized_archived
  | directory node children =>
      rw [archived, Sized, Sized, Children.count_archived]
      exact and_congr node.sized_archived (and_congr Iff.rfl children.sized_archived)

end Sized

/-! ## What is read -/

section Returns

variable {w : Nat}

theorem iarchiveString_returns : (iarchiveString w).Returns fun s => s.length < 256 ^ w := by
  intro len hlen v hv
  show v.length < 256 ^ w
  rw [hv, ← hlen]
  exact Bytes.toNat_lt len

theorem Node.iarchive_returns : (Node.iarchive w).Returns fun node => node.Sized w := by
  refine iarchiveString_returns.bind fun name hname => ?_
  refine iarchiveString_returns.bind fun owner howner => ?_
  refine iarchiveString_returns.bind fun ownerGroup hgroup => ?_
  refine (Reading.returns_value _).bind fun authority _ => ?_
  refine (Reading.returns_value _).bind fun createTime _ => ?_
  refine (Reading.returns_value _).bind fun updateTime _ => ?_
  refine (Reading.returns_value _).bind fun delete _ => ?_
  exact (Reading.returns_value _).bind fun deleteTick _ => ⟨hname, howner, hgroup⟩

/-- A child that is read adds one to the others, at most. -/
theorem Item.assign_sized (item : Item) {rest : Children} {left : Nat} (hitem : item.Sized w)
    (hrest : rest.Sized w ∧ rest.count ≤ left) :
    (item.assign rest).Sized w ∧ (item.assign rest).count ≤ left + 1 := by
  rw [assign]
  split
  next => exact ⟨hrest.1, Nat.le_succ_of_le hrest.2⟩
  next =>
    cases item with
    | file node id => exact ⟨⟨hitem, hrest.1⟩, Nat.succ_le_succ hrest.2⟩
    | directory node children =>
        exact ⟨⟨hitem.1, hitem.2.1, hitem.2.2, hrest.1⟩, Nat.succ_le_succ hrest.2⟩

theorem Children.iarchive_returns (fuel left : Nat) :
    (Children.iarchive w fuel left).Returns fun cs => cs.Sized w ∧ cs.count ≤ left := by
  induction fuel generalizing left with
  | zero => exact trivial
  | succ fuel ih =>
      cases left with
      | zero => exact ⟨trivial, Nat.le_refl 0⟩
      | succ left =>
          refine (Reading.returns_value _).bind fun dir _ => ?_
          refine Node.iarchive_returns.bind fun node hnode => ?_
          cases dir with
          | true =>
              refine (Reading.returns_value _).bind fun count _ => ?_
              refine (ih count.toNatClampNeg).bind fun children hchildren => ?_
              refine (ih left).bind fun rest hrest => ?_
              have hcount := hchildren.2.trans_lt count.toNatClampNeg_lt
              exact Item.assign_sized (.directory node children)
                ⟨hnode, hcount, hchildren.1⟩ hrest
          | false =>
              refine (Reading.returns_value _).bind fun id _ => ?_
              refine (ih left).bind fun rest hrest => ?_
              exact Item.assign_sized (.file node id) hnode hrest

theorem Item.iarchive_returns (fuel : Nat) :
    (Item.iarchive w fuel).Returns fun item => item.Sized w := by
  refine Node.iarchive_returns.bind fun node hnode => ?_
  refine (Reading.returns_value _).bind fun count _ => ?_
  refine (Children.iarchive_returns fuel count.toNatClampNeg).bind fun children hchildren => ?_
  exact ⟨hnode, hchildren.2.trans_lt count.toNatClampNeg_lt, hchildren.1⟩

end Returns

/-! ## Reading what was written -/

section Follows

variable {w : Nat}

theorem follows_string {s : Bytes} (h : s.length < 256 ^ w) :
    (iarchiveString w).Follows (oarchiveString w s) s := by
  refine .read (Bytes.length_ofNat w s.length) (.read ?_ .done)
  rw [Bytes.toNat_ofNat, Nat.mod_eq_of_lt h]

theorem Node.follows {node : Node} (h : node.Sized w) :
    (Node.iarchive w).Follows (node.oarchive w) node.archived := by
  refine (follows_string h.name).bind ?_
  refine (follows_string h.owner).bind ?_
  refine (follows_string h.ownerGroup).bind ?_
  refine (Reading.Follows.value Codec.int16 node.authority).bind ?_
  refine (Reading.Follows.value Codec.int64 node.createTime).bind ?_
  refine (Reading.Follows.value Codec.int64 node.updateTime).bind ?_
  refine (Reading.Follows.value Codec.bool node.delete).bind ?_
  exact (Reading.Follows.value Codec.int64 node.deleteTick).bind (.pure _)

/-- How deep the reading of children goes. -/
def Children.depth : Children → Nat
  | .empty => 1
  | .file _ _ rest => rest.depth + 1
  | .directory _ children rest => max children.depth rest.depth + 1

theorem Children.find_archived (children : Children) (name : Bytes) :
    children.archived.find name = (children.find name).map Item.archived := by
  induction children with
  | empty => rfl
  | file node id rest ih =>
      rw [archived, find, find, ih]
      show (if node.name = name then _ else _) = _
      split <;> rfl
  | directory node children rest _ ih =>
      rw [archived, find, find, ih]
      show (if node.name = name then _ else _) = _
      split <;> rfl

/-- A child whose name is not among the others is put before them. -/
theorem Item.assign_archived (item : Item) {rest : Children}
    (h : (rest.find item.node.name).isNone = true) :
    item.archived.assign rest.archived = item.archived.before rest.archived := by
  have hname : item.archived.node.name = item.node.name := by cases item <;> rfl
  rw [assign, hname, Children.find_archived, Option.isSome_map, if_neg]
  rw [Option.isNone_iff_eq_none] at h
  rw [h]
  decide

theorem Children.follows {children : Children} (hsized : children.Sized w)
    (hdistinct : children.distinct = true) {fuel : Nat} (hfuel : children.depth ≤ fuel) :
    (Children.iarchive w fuel children.count).Follows (children.oarchive w)
      children.archived := by
  induction children generalizing fuel with
  | empty =>
      cases fuel with
      | zero => cases hfuel
      | succ fuel => exact .done
  | file node id rest ih =>
      cases fuel with
      | zero => cases hfuel
      | succ fuel =>
          rw [distinct, Bool.and_eq_true] at hdistinct
          refine (Reading.Follows.value Codec.bool false).bind ?_
          refine (Node.follows hsized.1).bind ?_
          refine (Reading.Follows.value Codec.int64 id).bind ?_
          have hrest := ih hsized.2 hdistinct.2 (Nat.le_of_succ_le_succ hfuel)
          rw [← List.append_nil (rest.oarchive w)]
          refine hrest.bind ?_
          have hassign := Item.assign_archived (.file node id) hdistinct.1
          exact hassign ▸ .pure _
  | directory node children rest ihChildren ihRest =>
      cases fuel with
      | zero => cases hfuel
      | succ fuel =>
          obtain ⟨hnode, hcount, hchildren, hrest⟩ := hsized
          rw [distinct, Bool.and_eq_true, Bool.and_eq_true] at hdistinct
          have hmax := Nat.le_of_succ_le_succ hfuel
          refine (Reading.Follows.value Codec.bool true).bind ?_
          refine (Node.follows hnode).bind ?_
          refine (Reading.Follows.value Codec.int32 (Int32.ofNat children.count)).bind ?_
          rw [Int32.toNatClampNeg_ofNat_of_lt hcount]
          refine (ihChildren hchildren hdistinct.1.2 ((Nat.le_max_left _ _).trans hmax)).bind ?_
          rw [← List.append_nil (rest.oarchive w)]
          refine (ihRest hrest hdistinct.2 ((Nat.le_max_right _ _).trans hmax)).bind ?_
          have hassign := Item.assign_archived (.directory node children) hdistinct.1.1
          exact hassign ▸ .pure _

/-- Every child is behind a byte for its kind. -/
theorem Children.depth_le (children : Children) :
    children.depth ≤ (children.oarchive w).flatten.length + 1 := by
  induction children with
  | empty => exact Nat.le_refl 1
  | file node id rest ih =>
      rw [depth, oarchive, List.flatten_cons, List.length_append, List.flatten_append,
        List.length_append, List.flatten_cons, List.length_append, Codec.bool.length_encode]
      show rest.depth + 1 ≤ 1 + _ + 1
      omega
  | directory node children rest ihChildren ihRest =>
      rw [depth, oarchive, List.flatten_cons, List.length_append, List.flatten_append,
        List.length_append, List.flatten_cons, List.length_append, List.flatten_append,
        List.length_append, Codec.bool.length_encode]
      show max children.depth rest.depth + 1 ≤ 1 + _ + 1
      omega

theorem Item.follows {item : Item} (dir : item.isDir = true) (hsized : item.Sized w)
    (hdistinct : item.distinct = true) {fuel : Nat}
    (hfuel : (item.oarchive w).flatten.length + 1 ≤ fuel) :
    (Item.iarchive w fuel).Follows (item.oarchive w) item.archived := by
  cases item with
  | file node id => cases dir
  | directory node children =>
      obtain ⟨hnode, hcount, hchildren⟩ := hsized
      have hdepth : children.depth ≤ fuel := by
        refine (Children.depth_le (w := w) children).trans (le_trans ?_ hfuel)
        rw [oarchive, List.flatten_append, List.length_append, List.flatten_cons,
          List.length_append]
        omega
      refine (Node.follows hnode).bind ?_
      refine (Reading.Follows.value Codec.int32 (Int32.ofNat children.count)).bind ?_
      rw [Int32.toNatClampNeg_ofNat_of_lt hcount, ← List.append_nil (children.oarchive w)]
      exact (Children.follows hchildren hdistinct hdepth).bind (.pure _)

end Follows

/-! ## What comes back -/

theorem Children.archived_archived (children : Children) :
    children.archived.archived = children.archived := by
  induction children with
  | empty => rfl
  | file node id rest ih => rw [archived, archived, ih]; rfl
  | directory node children rest ihChildren ihRest =>
      rw [archived, archived, ihChildren, ihRest]
      rfl

theorem Item.archived_archived (item : Item) : item.archived.archived = item.archived := by
  cases item with
  | file node id => rfl
  | directory node children =>
      rw [archived, archived, Children.archived_archived]
      rfl

/-- The mark of the root is not in a file. -/
theorem Item.archived_root (item : Item) :
    (item.modify fun node => { node with root := true }).archived = item.archived := by
  cases item <;> rfl

/-- A file `A`, `B`, and so on, of `root`. -/
def letterFile (n : Nat) : Item :=
  .file { name := [UInt8.ofNat (65 + n)], owner := rootName, ownerGroup := rootName,
          authority := 75, createTime := 1000, updateTime := 1000 } (Int64.ofNat n)

/-- Forty of them in the root. -/
def fortyFiles : FileSystem where
  root := .directory { owner := rootName, ownerGroup := rootName, authority := 75, root := true }
    ((List.range 40).foldr (fun n => (letterFile n).before) .empty)
  isDir := rfl
  distinct := by decide +kernel

end Ofs.Master
