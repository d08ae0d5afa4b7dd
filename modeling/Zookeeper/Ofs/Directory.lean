import Zookeeper.Ofs.UserManager

/-!
# The namespace of the master

Directories and files under a root (`ofs/master/file`).  A removed node stays in its
directory, marked, until it is collected; it is found by no path, and creating the same
kind of node under its name brings it back.

Every request reaches its node by `Directory::QueryNode`, which walks a path from the
root and applies a callback to the node it ends at.  The callback is the only place
where a request looks at authority bits.

The children of a directory are a first child and its siblings, so a tree of any depth
is a plain inductive type.  Their order is that of the hash table.  A node is named by
the names on the way to it (`nodeAt`), removed nodes included.
-/

namespace Ofs.Master

/-! ## Nodes -/

/-- `ofs::Node`.  Whether it is a directory is said where it stands. -/
structure Node where
  name : Bytes := []
  owner : Bytes := []
  ownerGroup : Bytes := []
  authority : Int16 := 0
  createTime : Int64 := 0
  updateTime : Int64 := 0
  size : UInt32 := 0
  delete : Bool := false
  deleteTick : Int64 := 0
  root : Bool := false
deriving DecidableEq, Repr

/-- `Node::CheckAuthority`, with the bits of `AuthorityType`. -/
def Node.checkAuthority (node : Node) (user : User) (read : Bool) : Bool :=
  if user.super then true
  else if user.name = node.owner then node.authority &&& (if read then 1 else 2) != 0
  else if user.group = node.ownerGroup then node.authority &&& (if read then 8 else 16) != 0
  else node.authority &&& (if read then 64 else 128) != 0

/-- `Node::MarkDelete` at a clock reading. -/
def Node.markDelete (node : Node) (now : Int64) : Node :=
  { node with delete := true, deleteTick := now }

/-- `Node::Recover`. -/
def Node.recover (node : Node) : Node := { node with delete := false }

theorem Node.name_recover (node : Node) : node.recover.name = node.name := rfl

/-- `Directory::_children`: a file with its id, or a directory, and its siblings. -/
inductive Children where
  | empty
  | file (node : Node) (id : Int64) (rest : Children)
  | directory (node : Node) (children : Children) (rest : Children)
deriving DecidableEq, Repr

/-- What a `Node *` points to. -/
inductive Item where
  | file (node : Node) (id : Int64)
  | directory (node : Node) (children : Children)
deriving DecidableEq, Repr

namespace Item

def node : Item → Node
  | .file node _ => node
  | .directory node _ => node

def isDir : Item → Bool
  | .file .. => false
  | .directory .. => true

/-- An item in front of its siblings. -/
def before : Item → Children → Children
  | .file node id, rest => .file node id rest
  | .directory node children, rest => .directory node children rest

/-- An item with its node changed in place. -/
def modify (f : Node → Node) : Item → Item
  | .file node id => .file (f node) id
  | .directory node children => .directory (f node) children

@[simp] theorem node_modify (f : Node → Node) (item : Item) :
    (item.modify f).node = f item.node := by
  cases item <;> rfl

end Item

namespace Children

/-- `_children.find`. -/
def find (name : Bytes) : Children → Option Item
  | .empty => none
  | .file node id rest => if node.name = name then some (.file node id) else rest.find name
  | .directory node children rest =>
      if node.name = name then some (.directory node children) else rest.find name

/-- The child under a name changed in place. -/
def modify (name : Bytes) (f : Node → Node) : Children → Children
  | .empty => .empty
  | .file node id rest =>
      if node.name = name then .file (f node) id rest else .file node id (rest.modify name f)
  | .directory node children rest =>
      if node.name = name then .directory (f node) children rest
      else .directory node children (rest.modify name f)

end Children

/-! ## Paths -/

/-- `Directory::FetchSubPath`: what is before the first slash, and what is after it. -/
def fetchSubPath : Bytes → Bytes × Option Bytes
  | [] => ([], none)
  | c :: path =>
      if c = 47 then ([], some path)
      else let (sub, next) := fetchSubPath path; (c :: sub, next)

/-- A leading slash is skipped. -/
def skipSlash : Bytes → Bytes
  | 47 :: path => path
  | path => path

/-- The first part of a path and the rest, as `QueryNode` splits it. -/
def splitPath (path : Bytes) : Bytes × Option Bytes := fetchSubPath (skipSlash path)

/-- What stands between the slashes of a path. -/
def pieces (path : Bytes) : List Bytes := path.splitOn 47

/-- The names `QueryNode` goes by, given the pieces of a path: at every directory it
skips one empty piece, and another one ends the walk there. -/
def walkPieces : List Bytes → List Bytes
  | [] => []
  | [p] => if p = [] then [] else [p]
  | p :: q :: rest =>
      if p = [] then if q = [] then [] else q :: walkPieces rest
      else p :: walkPieces (q :: rest)

/-- The names `QueryNode` goes by. -/
def walkedNames (path : Bytes) : List Bytes := walkPieces (pieces path)

theorem pieces_fetchSubPath (path : Bytes) :
    pieces path = (fetchSubPath path).1 :: ((fetchSubPath path).2.map pieces).getD [] := by
  induction path with
  | nil => rfl
  | cons c path ih =>
      rw [pieces, List.splitOn_cons_eq_if_modifyHead, fetchSubPath]
      by_cases hslash : c = 47
      · rw [if_pos (beq_iff_eq.2 hslash), if_pos hslash]
        rfl
      · rw [if_neg (mt beq_iff_eq.1 hslash), if_neg hslash, ← pieces, ih]
        rfl

/-- `skipSlash` on the pieces. -/
def skipPiece : List Bytes → List Bytes
  | p :: q :: rest => if p = [] then q :: rest else p :: q :: rest
  | ps => ps

theorem skipPiece_cons {p : Bytes} (h : p ≠ []) (rest : List Bytes) :
    skipPiece (p :: rest) = p :: rest := by
  cases rest with
  | nil => rfl
  | cons q rest => rw [skipPiece, if_neg h]

/-- The pieces of what `QueryNode` splits a path into. -/
theorem pieces_splitPath (path : Bytes) :
    skipPiece (pieces path) = (splitPath path).1 :: ((splitPath path).2.map pieces).getD [] := by
  cases path with
  | nil => rfl
  | cons c path =>
      by_cases hslash : c = 47
      · subst hslash
        have hpieces : pieces (47 :: path) = [] :: pieces path := by
          rw [pieces, List.splitOn_cons_eq_if_modifyHead, if_pos (by rfl), pieces]
        rw [hpieces, pieces_fetchSubPath path, skipPiece, if_pos rfl]
        rfl
      · have hskip : skipSlash (c :: path) = c :: path := by
          rw [skipSlash]
          exact fun _ h => hslash (List.cons.inj h).1
        have hsub : (fetchSubPath (c :: path)).1 ≠ [] := by
          rw [fetchSubPath, if_neg hslash]
          exact List.cons_ne_nil _ _
        rw [splitPath, hskip, pieces_fetchSubPath, skipPiece_cons hsub]

theorem walkPieces_skip {ps rest : List Bytes} {p : Bytes} (h : skipPiece ps = p :: rest) :
    walkPieces ps = if p = [] then [] else p :: walkPieces rest := by
  cases ps with
  | nil => cases h
  | cons q ps =>
      cases ps with
      | nil =>
          cases h
          rfl
      | cons r ps =>
          rw [skipPiece] at h
          rw [walkPieces]
          split at h
          next hempty =>
            cases h
            rw [if_pos hempty]
          next hne =>
            cases h
            rw [if_neg hne, if_neg hne]

/-- The first name is the one `QueryNode` splits off, and the others are those of the
rest. -/
theorem walkedNames_splitPath (path : Bytes) :
    walkedNames path = if (splitPath path).1 = [] then []
      else (splitPath path).1 :: ((splitPath path).2.map walkedNames).getD [] := by
  rw [walkedNames, walkPieces_skip (pieces_splitPath path)]
  cases (splitPath path).2 <;> rfl

variable {α : Type}

/-- The part of `Directory::QueryNode` after the path is split, on the children.  `none`
is `EC_FILE_NOT_EIXST`. -/
def Children.queryNode (fn : Item → α × Item) (sub : Bytes) (next : Option Bytes) :
    Children → Option α × Children
  | .empty => (none, .empty)
  | .file node id rest =>
      if node.name = sub then
        if node.delete || next.isSome then (none, .file node id rest)
        else let (r, item) := fn (.file node id); (some r, item.before rest)
      else let (r, rest) := rest.queryNode fn sub next; (r, .file node id rest)
  | .directory node children rest =>
      if node.name = sub then
        if node.delete then (none, .directory node children rest)
        else
          match next with
          | none => let (r, item) := fn (.directory node children); (some r, item.before rest)
          | some path =>
              if (splitPath path).1 = [] then
                let (r, item) := fn (.directory node children); (some r, item.before rest)
              else
                let (r, children) := children.queryNode fn (splitPath path).1 (splitPath path).2
                (r, .directory node children rest)
      else let (r, rest) := rest.queryNode fn sub next; (r, .directory node children rest)

/-- `Directory::QueryNode` on a directory. -/
def Item.queryNode (fn : Item → α × Item) (path : Bytes) : Item → Option α × Item
  | .file node id => (none, .file node id)
  | .directory node children =>
      if (splitPath path).1 = [] then
        let (r, item) := fn (.directory node children); (some r, item)
      else
        let (r, children) := children.queryNode fn (splitPath path).1 (splitPath path).2
        (r, .directory node children)

/-- The callback that leaves the node as it is and returns it. -/
def look (item : Item) : Item × Item := (item, item)

/-- The node a path leads to. -/
def Item.lookup (path : Bytes) (root : Item) : Option Item := (root.queryNode look path).1

/-! ## Nodes by name -/

/-- The node with the given names on the way to it. -/
def Children.nodeAt : Children → List Bytes → Option Node
  | _, [] => none
  | .empty, _ => none
  | .file node _ rest, name :: names =>
      if node.name = name then if names = [] then some node else none
      else rest.nodeAt (name :: names)
  | .directory node children rest, name :: names =>
      if node.name = name then if names = [] then some node else children.nodeAt names
      else rest.nodeAt (name :: names)

/-- The node with the given names on the way to it from an item, itself with none. -/
def Item.nodeAt (item : Item) : List Bytes → Option Node
  | [] => some item.node
  | name :: names =>
      match item with
      | .file .. => none
      | .directory _ children => children.nodeAt (name :: names)

theorem Children.nodeAt_before (item : Item) (rest : Children) (name : Bytes)
    (names : List Bytes) :
    (item.before rest).nodeAt (name :: names) =
      if item.node.name = name then item.nodeAt names else rest.nodeAt (name :: names) := by
  cases item with
  | file node id => cases names <;> rfl
  | directory node children => cases names <;> rfl

/-- One tree of nodes is another with what stands under some names replaced. -/
structure ReplacedAt (names : List Bytes) (old new : Item)
    (tree tree' : List Bytes → Option Node) : Prop where
  old : ∀ ms, tree (names ++ ms) = old.nodeAt ms
  new : ∀ ms, tree' (names ++ ms) = new.nodeAt ms
  other : ∀ ms, ¬ names <+: ms → tree' ms = tree ms

namespace ReplacedAt

variable {names : List Bytes} {name : Bytes} {old new : Item}

/-- The item at the front of its siblings. -/
theorem front (old : Item) (rest : Children) (hold : old.node.name = name)
    (hnew : new.node.name = name) :
    ReplacedAt [name] old new (old.before rest).nodeAt (new.before rest).nodeAt where
  old ms := by
    show (old.before rest).nodeAt (name :: ms) = old.nodeAt ms
    rw [Children.nodeAt_before, if_pos hold]
  new ms := by
    show (new.before rest).nodeAt (name :: ms) = new.nodeAt ms
    rw [Children.nodeAt_before, if_pos hnew]
  other ms hms := by
    cases ms with
    | nil => cases old <;> cases new <;> simp [Item.before, Children.nodeAt]
    | cons n ms =>
        have hne : ¬ name = n := by
          rintro rfl
          exact hms ⟨ms, rfl⟩
        rw [Children.nodeAt_before, Children.nodeAt_before, hold, hnew, if_neg hne, if_neg hne]

/-- Behind a sibling of another name. -/
theorem behind {rest rest' : Children}
    (h : ReplacedAt (name :: names) old new rest.nodeAt rest'.nodeAt) (item : Item)
    (hname : item.node.name ≠ name) :
    ReplacedAt (name :: names) old new (item.before rest).nodeAt (item.before rest').nodeAt where
  old ms := by
    rw [List.cons_append, Children.nodeAt_before, if_neg hname]
    exact h.old ms
  new ms := by
    rw [List.cons_append, Children.nodeAt_before, if_neg hname]
    exact h.new ms
  other ms hms := by
    cases ms with
    | nil => cases item <;> simp [Item.before, Children.nodeAt]
    | cons n ms =>
        rw [Children.nodeAt_before, Children.nodeAt_before, h.other _ hms]

/-- Inside a directory. -/
theorem inside {node : Node} {children children' : Children}
    (h : ReplacedAt (name :: names) old new children.nodeAt children'.nodeAt) :
    ReplacedAt (name :: names) old new (Item.directory node children).nodeAt
      (Item.directory node children').nodeAt where
  old ms := h.old ms
  new ms := h.new ms
  other ms hms := by
    cases ms with
    | nil => rfl
    | cons n ms => exact h.other _ hms

/-- Inside a directory at the front of its siblings. -/
theorem within {node : Node} {children children' rest : Children}
    (h : ReplacedAt names old new (Item.directory node children).nodeAt
      (Item.directory node children').nodeAt) :
    ReplacedAt (node.name :: names) old new (Children.directory node children rest).nodeAt
      (Children.directory node children' rest).nodeAt := by
  have hnodeAt : ∀ (cs : Children) (n : Bytes) (ms : List Bytes),
      (Children.directory node cs rest).nodeAt (n :: ms) =
        if node.name = n then (Item.directory node cs).nodeAt ms else rest.nodeAt (n :: ms) :=
    fun cs => Children.nodeAt_before (Item.directory node cs) rest
  refine ⟨fun ms => ?_, fun ms => ?_, fun ms hms => ?_⟩
  · rw [List.cons_append, hnodeAt, if_pos rfl]
    exact h.old ms
  · rw [List.cons_append, hnodeAt, if_pos rfl]
    exact h.new ms
  · cases ms with
    | nil => simp [Children.nodeAt]
    | cons n ms =>
        rw [hnodeAt, hnodeAt]
        by_cases hn : node.name = n
        · subst hn
          rw [if_pos rfl, if_pos rfl]
          refine h.other ms fun hprefix => hms ?_
          exact (List.prefix_cons_inj _).2 hprefix
        · rw [if_neg hn, if_neg hn]

end ReplacedAt

/-! ## What a walk does -/

/-- A walk leads nowhere and changes nothing, or applies the callback to the node it
looks up and changes nothing else. -/
def Walks (fn : Item → α × Item) (found : Option Item) (r : Option α)
    (tree tree' : List Bytes → Option Node) : Prop :=
  (found = none ∧ r = none ∧ tree' = tree) ∨
    ∃ item names, found = some item ∧ r = some (fn item).1 ∧
      ReplacedAt names item (fn item).2 tree tree'

/-- The walk through children, with the names it goes by. -/
theorem Children.queryNode_at {fn : Item → α × Item}
    (keeps : ∀ item, (fn item).2.node.name = item.node.name) (children : Children)
    (sub : Bytes) (next : Option Bytes) :
    ((children.queryNode look sub next).1 = none ∧
      children.queryNode fn sub next = (none, children)) ∨
    ∃ item, (children.queryNode look sub next).1 = some item ∧
      (children.queryNode fn sub next).1 = some (fn item).1 ∧
      ReplacedAt (sub :: (next.map walkedNames).getD []) item (fn item).2 children.nodeAt
        (children.queryNode fn sub next).2.nodeAt := by
  induction children generalizing sub next with
  | empty => exact .inl ⟨rfl, rfl⟩
  | file node id rest ih =>
      simp only [queryNode]
      split
      next hname =>
        split
        next => exact .inl ⟨rfl, rfl⟩
        next hlast =>
          obtain rfl : next = none := by
            rw [Bool.or_eq_true, not_or, Option.not_isSome_iff_eq_none] at hlast
            exact hlast.2
          refine .inr ⟨.file node id, rfl, rfl, ?_⟩
          exact ReplacedAt.front _ rest hname ((keeps _).trans hname)
      next hname =>
        rcases ih sub next with ⟨hlook, hfn⟩ | ⟨item, hlook, hfn, hreplaced⟩
        · exact .inl ⟨hlook, by rw [hfn]⟩
        · exact .inr ⟨item, hlook, hfn, hreplaced.behind (.file node id) hname⟩
  | directory node children rest ihChildren ihRest =>
      simp only [queryNode]
      split
      next hname =>
        have hfront := ReplacedAt.front (.directory node children) rest hname
          ((keeps (.directory node children)).trans hname)
        split
        next => exact .inl ⟨rfl, rfl⟩
        next =>
          split
          next => exact .inr ⟨.directory node children, rfl, rfl, hfront⟩
          next path =>
            rw [Option.map_some, Option.getD_some, walkedNames_splitPath]
            split
            next => exact .inr ⟨.directory node children, rfl, rfl, hfront⟩
            next =>
              rcases ihChildren (splitPath path).1 (splitPath path).2 with
                ⟨hlook, hfn⟩ | ⟨item, hlook, hfn, hreplaced⟩
              · exact .inl ⟨hlook, by rw [hfn]⟩
              · exact .inr ⟨item, hlook, hfn, hname ▸ hreplaced.inside.within⟩
      next hname =>
        rcases ihRest sub next with ⟨hlook, hfn⟩ | ⟨item, hlook, hfn, hreplaced⟩
        · exact .inl ⟨hlook, by rw [hfn]⟩
        · exact .inr ⟨item, hlook, hfn, hreplaced.behind (.directory node children) hname⟩

/-- The walk from a root, with the names it goes by. -/
theorem Item.queryNode_at {fn : Item → α × Item}
    (keeps : ∀ item, (fn item).2.node.name = item.node.name) (root : Item) (path : Bytes) :
    (root.lookup path = none ∧ root.queryNode fn path = (none, root)) ∨
    ∃ item, root.lookup path = some item ∧ (root.queryNode fn path).1 = some (fn item).1 ∧
      ReplacedAt (walkedNames path) item (fn item).2 root.nodeAt
        (root.queryNode fn path).2.nodeAt := by
  cases root with
  | file node id => exact .inl ⟨rfl, rfl⟩
  | directory node children =>
      simp only [lookup, queryNode, walkedNames_splitPath]
      split
      next =>
        refine .inr ⟨.directory node children, rfl, rfl, fun _ => rfl, fun _ => rfl, ?_⟩
        intro ms hms
        exact absurd List.nil_prefix hms
      next =>
        rcases children.queryNode_at keeps (splitPath path).1 (splitPath path).2 with
          ⟨hlook, hfn⟩ | ⟨item, hlook, hfn, hreplaced⟩
        · exact .inl ⟨hlook, by rw [hfn]⟩
        · exact .inr ⟨item, hlook, hfn, hreplaced.inside⟩

theorem Item.queryNode_spec {fn : Item → α × Item}
    (keeps : ∀ item, (fn item).2.node.name = item.node.name) (root : Item) (path : Bytes) :
    Walks fn (root.lookup path) (root.queryNode fn path).1 root.nodeAt
      (root.queryNode fn path).2.nodeAt := by
  rcases root.queryNode_at keeps path with ⟨hlook, hfn⟩ | ⟨item, hlook, hfn, hreplaced⟩
  · exact .inl ⟨hlook, by rw [hfn], by rw [hfn]⟩
  · exact .inr ⟨item, _, hlook, hfn, hreplaced⟩

/-! ## Creating and removing -/

/-- `api::master::ErrorCode`, the codes the requests return. -/
inductive ErrorCode where
  | none
  | fileNotExist
  | fileExist
  | permissionDeny
  | isDir
  | isNotDirectory
  | alreadyExistDeleteFile
  | outOfRange
  | blockNotReady
  | blockMissing
deriving DecidableEq, Repr

/-- A node `Directory::CreateNode` makes. -/
def newNode (user : User) (name : Bytes) (authority : Int16) (now : Int64) : Node :=
  { name := name, owner := user.name, ownerGroup := user.group, authority := authority,
    createTime := now, updateTime := now }

/-- The same as a child: an empty directory, or a file with the next id. -/
def newItem (user : User) (name : Bytes) (authority : Int16) (dir : Bool) (now id : Int64) :
    Item :=
  if dir then .directory (newNode user name authority now) .empty
  else .file (newNode user name authority now) id

/-- `Directory::CreateNode` in the directory itself. -/
def createIn (user : User) (name : Bytes) (authority : Int16) (dir : Bool) (now id : Int64)
    (node : Node) (children : Children) : ErrorCode × Item :=
  if !node.checkAuthority user false then (.permissionDeny, .directory node children)
  else
    match children.find name with
    | some item =>
        if item.node.delete then
          if dir != item.isDir then (.alreadyExistDeleteFile, .directory node children)
          else (.none, .directory node (children.modify name Node.recover))
        else (.fileExist, .directory node children)
    | none =>
        (.none, .directory node ((newItem user name authority dir now id).before children))

/-- The callback of `Directory::CreateNode`. -/
def Item.createNode (user : User) (name : Bytes) (authority : Int16) (dir : Bool)
    (now id : Int64) : Item → ErrorCode × Item
  | .file node fileId => (.isNotDirectory, .file node fileId)
  | .directory node children => createIn user name authority dir now id node children

/-- The callback of `Directory::Remove`. -/
def Item.remove (user : User) (now : Int64) (item : Item) : ErrorCode × Item :=
  if !item.node.checkAuthority user true then (.permissionDeny, item)
  else if item.node.root then (.permissionDeny, item)
  else (.none, item.modify fun node => node.markDelete now)

/-! ## What they change -/

namespace Children

/-- Induction along the siblings, whatever they are. -/
@[elab_as_elim] theorem siblings {motive : Children → Prop} (children : Children)
    (empty : motive .empty)
    (before : ∀ (item : Item) (rest : Children), motive rest → motive (item.before rest)) :
    motive children := by
  induction children with
  | empty => exact empty
  | file node id rest ih => exact before (.file node id) rest ih
  | directory node children rest _ ih => exact before (.directory node children) rest ih

theorem find_before (item : Item) (rest : Children) (name : Bytes) :
    (item.before rest).find name =
      if item.node.name = name then some item else rest.find name := by
  cases item <;> rfl

theorem modify_before (item : Item) (rest : Children) (name : Bytes) (f : Node → Node) :
    (item.before rest).modify name f =
      if item.node.name = name then (item.modify f).before rest
      else item.before (rest.modify name f) := by
  cases item <;> rfl

theorem nodeAt_find (children : Children) (name : Bytes) (names : List Bytes) :
    children.nodeAt (name :: names) = (children.find name).bind fun item => item.nodeAt names := by
  induction children using siblings with
  | empty => rfl
  | before item rest ih =>
      rw [nodeAt_before, find_before, ih]
      split <;> rfl

theorem find_modify (children : Children) (name n : Bytes) {f : Node → Node}
    (keeps : ∀ node, (f node).name = node.name) :
    (children.modify name f).find n =
      if n = name then (children.find n).map (Item.modify f) else children.find n := by
  induction children using siblings with
  | empty => simp [modify, find]
  | before item rest ih =>
      rw [modify_before, find_before]
      by_cases hname : item.node.name = name
      · rw [if_pos hname, find_before, Item.node_modify, keeps]
        by_cases hn : item.node.name = n
        · rw [if_pos hn, if_pos hn, if_pos (hn.symm.trans hname)]
          rfl
        · rw [if_neg hn, if_neg hn, if_neg fun h => hn (hname.trans h.symm)]
      · rw [if_neg hname, find_before, ih]
        by_cases hn : item.node.name = n
        · rw [if_pos hn, if_pos hn, if_neg fun h => hname (hn.trans h)]
        · rw [if_neg hn, if_neg hn]

end Children

/-- A node changed in place has the same nodes under it. -/
theorem Item.nodeAt_modify (f : Node → Node) (item : Item) (names : List Bytes) :
    (item.modify f).nodeAt names =
      if names = [] then some (f item.node) else item.nodeAt names := by
  cases item <;> cases names <;> rfl

theorem newItem_node (user : User) (name : Bytes) (authority : Int16) (dir : Bool)
    (now id : Int64) :
    (newItem user name authority dir now id).node = newNode user name authority now := by
  cases dir <;> rfl

/-- Nothing is under a new node. -/
theorem newItem_nodeAt (user : User) (name : Bytes) (authority : Int16) (dir : Bool)
    (now id : Int64) (m : Bytes) (ms : List Bytes) :
    (newItem user name authority dir now id).nodeAt (m :: ms) = none := by
  cases dir <;> rfl

/-- A directory gets a child, or gets one back, only where the user may write in it.
No other node is touched. -/
theorem Item.createNode_cases (user : User) (name : Bytes) (authority : Int16) (dir : Bool)
    (now id : Int64) (item : Item) :
    (item.createNode user name authority dir now id).2 = item ∨
    item.node.checkAuthority user false = true ∧
      (item.createNode user name authority dir now id).2.node = item.node ∧
      (∃ child, (item.createNode user name authority dir now id).2.nodeAt [name] = some child ∧
        child.delete = false) ∧
      ∀ ms, ms ≠ [name] →
        (item.createNode user name authority dir now id).2.nodeAt ms = item.nodeAt ms := by
  cases item with
  | file node fileId => exact .inl rfl
  | directory node children =>
      simp only [createNode, createIn]
      split
      next => exact .inl rfl
      next hcheck =>
        have hmay : node.checkAuthority user false = true := by simpa using hcheck
        split
        next old hfind =>
          split
          next =>
            split
            next => exact .inl rfl
            next =>
              refine .inr ⟨hmay, rfl, ⟨old.node.recover, ?_, rfl⟩, fun ms hms => ?_⟩
              · show (children.modify name Node.recover).nodeAt [name] = _
                rw [Children.nodeAt_find, Children.find_modify _ _ _ Node.name_recover, if_pos rfl,
                  hfind, Option.map_some, Option.bind_some, nodeAt_modify, if_pos rfl]
              · cases ms with
                | nil => rfl
                | cons n ms =>
                    show (children.modify name Node.recover).nodeAt (n :: ms) =
                      children.nodeAt (n :: ms)
                    rw [Children.nodeAt_find, Children.nodeAt_find,
                      Children.find_modify _ _ _ Node.name_recover]
                    split
                    next hn =>
                      subst hn
                      have hdeep : ms ≠ [] := fun h => hms (by rw [h])
                      rw [hfind, Option.map_some, Option.bind_some, Option.bind_some,
                        nodeAt_modify, if_neg hdeep]
                    next => rfl
          next => exact .inl rfl
        next hfind =>
          have hnew := newItem_node user name authority dir now id
          have hname : (newItem user name authority dir now id).node.name = name := by
            rw [hnew]
            rfl
          refine .inr ⟨hmay, rfl, ⟨newNode user name authority now, ?_, rfl⟩, fun ms hms => ?_⟩
          · show ((newItem user name authority dir now id).before children).nodeAt [name] = _
            rw [Children.nodeAt_before, if_pos hname, nodeAt, hnew]
          · cases ms with
            | nil => rfl
            | cons n ms =>
                show ((newItem user name authority dir now id).before children).nodeAt (n :: ms) =
                  children.nodeAt (n :: ms)
                rw [Children.nodeAt_before]
                split
                next hn =>
                  obtain rfl := hname.symm.trans hn
                  cases ms with
                  | nil => exact absurd rfl hms
                  | cons m ms =>
                      rw [newItem_nodeAt, Children.nodeAt_find, hfind]
                      rfl
                next => rfl

/-- A node is marked only where the user may read it. -/
theorem Item.remove_cases (user : User) (now : Int64) (item : Item) :
    (item.remove user now).2 = item ∧
        ¬ (item.node.checkAuthority user true = true ∧ item.node.root = false) ∨
      (item.remove user now).2 = item.modify (fun node => node.markDelete now) ∧
        item.node.checkAuthority user true = true ∧ item.node.root = false := by
  rw [remove]
  split
  next hcheck =>
    refine .inl ⟨rfl, fun h => ?_⟩
    rw [h.1] at hcheck
    cases hcheck
  next hcheck =>
    split
    next hroot =>
      refine .inl ⟨rfl, fun h => ?_⟩
      rw [h.2] at hroot
      cases hroot
    next hroot => exact .inr ⟨rfl, by simpa using hcheck, by simpa using hroot⟩

theorem Item.name_createNode (user : User) (name : Bytes) (authority : Int16) (dir : Bool)
    (now id : Int64) (item : Item) :
    (item.createNode user name authority dir now id).2.node.name = item.node.name := by
  rcases item.createNode_cases user name authority dir now id with h | ⟨-, h, -⟩ <;> rw [h]

theorem Item.name_remove (user : User) (now : Int64) (item : Item) :
    (item.remove user now).2.node.name = item.node.name := by
  rcases item.remove_cases user now with ⟨h, -⟩ | ⟨h, -⟩
  · rw [h]
  · rw [h, Item.node_modify]
    rfl

theorem ReplacedAt.same {names : List Bytes} {item : Item} {tree tree' : List Bytes → Option Node}
    (h : ReplacedAt names item item tree tree') : tree' = tree := by
  funext ms
  by_cases hms : names <+: ms
  · obtain ⟨rest, rfl⟩ := hms
    rw [h.new, h.old]
  · exact h.other ms hms

/-! ## Names -/

/-- No two children of a directory have a name in common. -/
def Children.distinct : Children → Bool
  | .empty => true
  | .file node _ rest => (rest.find node.name).isNone && rest.distinct
  | .directory node children rest =>
      (rest.find node.name).isNone && children.distinct && rest.distinct

def Item.distinct : Item → Bool
  | .file .. => true
  | .directory _ children => children.distinct

theorem Children.distinct_before (item : Item) (rest : Children) :
    (item.before rest).distinct =
      ((rest.find item.node.name).isNone && item.distinct && rest.distinct) := by
  cases item with
  | file node id => simp only [Item.before, distinct, Item.node, Item.distinct, Bool.and_true]
  | directory node children => rfl

/-- An item that keeps its name keeps the names of its siblings apart. -/
theorem Children.distinct_front (old new : Item) {rest : Children}
    (hname : new.node.name = old.node.name) (hnew : old.distinct = true → new.distinct = true)
    (h : (old.before rest).distinct = true) : (new.before rest).distinct = true := by
  rw [distinct_before, Bool.and_eq_true, Bool.and_eq_true] at h ⊢
  rw [hname]
  exact ⟨⟨h.1.1, hnew h.1.2⟩, h.2⟩

/-- Siblings that keep their names, behind an item. -/
theorem Children.distinct_behind (item : Item) {rest rest' : Children}
    (hnames : ∀ name, (rest'.find name).isNone = (rest.find name).isNone)
    (hrest : rest.distinct = true → rest'.distinct = true)
    (h : (item.before rest).distinct = true) : (item.before rest').distinct = true := by
  rw [distinct_before, Bool.and_eq_true, Bool.and_eq_true] at h ⊢
  rw [hnames]
  exact ⟨h.1, hrest h.2⟩

theorem Children.find_isNone_before (item item' : Item) {rest rest' : Children}
    (hname : item'.node.name = item.node.name)
    (hnames : ∀ name, (rest'.find name).isNone = (rest.find name).isNone) (name : Bytes) :
    ((item'.before rest').find name).isNone = ((item.before rest).find name).isNone := by
  rw [find_before, find_before, hname]
  split
  next => rfl
  next => exact hnames name

/-- A walk adds and takes away no child of a directory that it goes through. -/
theorem Children.queryNode_names {fn : Item → α × Item}
    (keeps : ∀ item, (fn item).2.node.name = item.node.name) (children : Children)
    (sub : Bytes) (next : Option Bytes) (name : Bytes) :
    ((children.queryNode fn sub next).2.find name).isNone = (children.find name).isNone := by
  induction children generalizing sub next name with
  | empty => rfl
  | file node id rest ih =>
      simp only [queryNode]
      split
      next =>
        split
        next => rfl
        next => exact find_isNone_before (.file node id) _ (keeps _) (fun _ => rfl) name
      next =>
        exact find_isNone_before (.file node id) (.file node id) rfl (ih sub next) name
  | directory node children rest _ ih =>
      have hfront := find_isNone_before (.directory node children) _
        (keeps (.directory node children)) (fun m => rfl (a := (rest.find m).isNone)) name
      simp only [queryNode]
      split
      next =>
        split
        next => rfl
        next =>
          split
          next => exact hfront
          next path =>
            split
            next => exact hfront
            next =>
              exact find_isNone_before (.directory node children)
                (.directory node (children.queryNode fn _ _).2) rfl (fun _ => rfl) name
      next =>
        exact find_isNone_before (.directory node children) (.directory node children) rfl
          (ih sub next) name

/-- A walk whose callback keeps names apart keeps all names apart. -/
theorem Children.queryNode_distinct {fn : Item → α × Item}
    (keeps : ∀ item, (fn item).2.node.name = item.node.name)
    (apart : ∀ item : Item, item.distinct = true → (fn item).2.distinct = true)
    {children : Children} (sub : Bytes) (next : Option Bytes) (h : children.distinct = true) :
    (children.queryNode fn sub next).2.distinct = true := by
  induction children generalizing sub next with
  | empty => rfl
  | file node id rest ih =>
      simp only [queryNode]
      split
      next =>
        split
        next => exact h
        next => exact distinct_front (.file node id) _ (keeps _) (apart _) h
      next =>
        exact distinct_behind (.file node id)
          (rest.queryNode_names keeps sub next) (ih sub next) h
  | directory node children rest ihChildren ihRest =>
      have hfront := distinct_front (.directory node children) _ (keeps _) (apart _) h
      simp only [queryNode]
      split
      next =>
        split
        next => exact h
        next =>
          split
          next => exact hfront
          next path =>
            split
            next => exact hfront
            next =>
              exact distinct_front (.directory node children) (.directory node _) rfl
                (ihChildren _ _) h
      next =>
        exact distinct_behind (.directory node children)
          (rest.queryNode_names keeps sub next) (ihRest sub next) h

theorem Item.queryNode_distinct {fn : Item → α × Item}
    (keeps : ∀ item, (fn item).2.node.name = item.node.name)
    (apart : ∀ item : Item, item.distinct = true → (fn item).2.distinct = true)
    {root : Item} (path : Bytes) (h : root.distinct = true) :
    (root.queryNode fn path).2.distinct = true := by
  cases root with
  | file node id => rfl
  | directory node children =>
      simp only [queryNode]
      split
      next => exact apart _ h
      next => exact children.queryNode_distinct keeps apart _ _ h

theorem Children.distinct_modify {f : Node → Node} (keeps : ∀ node, (f node).name = node.name)
    {children : Children} (name : Bytes) (h : children.distinct = true) :
    (children.modify name f).distinct = true := by
  induction children using siblings with
  | empty => rfl
  | before item rest ih =>
      rw [modify_before]
      split
      next =>
        refine distinct_front _ _ ?_ ?_ h
        · rw [Item.node_modify, keeps]
        · cases item <;> exact id
      next =>
        refine distinct_behind _ (fun n => ?_) ih h
        rw [find_modify _ _ _ keeps]
        split
        next => rw [Option.isNone_map]
        next => rfl

theorem Item.distinct_createNode (user : User) (name : Bytes) (authority : Int16) (dir : Bool)
    (now id : Int64) (item : Item) (h : item.distinct = true) :
    (item.createNode user name authority dir now id).2.distinct = true := by
  cases item with
  | file node fileId => rfl
  | directory node children =>
      simp only [createNode, createIn]
      split
      next => exact h
      next =>
        split
        next =>
          split
          next =>
            split
            next => exact h
            next => exact Children.distinct_modify Node.name_recover name h
          next => exact h
        next hfind =>
          show ((newItem user name authority dir now id).before children).distinct = true
          have hname : (newItem user name authority dir now id).node.name = name := by
            rw [newItem_node]
            rfl
          have hnew : (newItem user name authority dir now id).distinct = true := by
            cases dir <;> rfl
          rw [Children.distinct_before, hname, hfind, hnew]
          exact h

theorem Item.distinct_remove (user : User) (now : Int64) (item : Item)
    (h : item.distinct = true) : (item.remove user now).2.distinct = true := by
  rcases item.remove_cases user now with ⟨hsame, -⟩ | ⟨hmarked, -⟩
  · rw [hsame]
    exact h
  · rw [hmarked]
    cases item <;> exact h

/-! ## Kinds -/

theorem Item.isDir_modify (f : Node → Node) (item : Item) :
    (item.modify f).isDir = item.isDir := by
  cases item <;> rfl

/-- A root stays a directory. -/
theorem Item.isDir_queryNode {fn : Item → α × Item}
    (keeps : ∀ item, (fn item).2.isDir = item.isDir) {root : Item} (path : Bytes) :
    (root.queryNode fn path).2.isDir = root.isDir := by
  cases root with
  | file node id => rfl
  | directory node children =>
      simp only [queryNode]
      split
      next => exact keeps _
      next => rfl

theorem Item.isDir_createNode (user : User) (name : Bytes) (authority : Int16) (dir : Bool)
    (now id : Int64) (item : Item) :
    (item.createNode user name authority dir now id).2.isDir = item.isDir := by
  cases item with
  | file node fileId => rfl
  | directory node children =>
      simp only [createNode, createIn]
      split
      next => rfl
      next =>
        split
        next =>
          split
          next => split <;> rfl
          next => rfl
        next => rfl

theorem Item.isDir_remove (user : User) (now : Int64) (item : Item) :
    (item.remove user now).2.isDir = item.isDir := by
  rcases item.remove_cases user now with ⟨hsame, -⟩ | ⟨hmarked, -⟩
  · rw [hsame]
  · rw [hmarked, Item.isDir_modify]

end Ofs.Master
