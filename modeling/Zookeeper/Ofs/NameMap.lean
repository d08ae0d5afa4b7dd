import Zookeeper.Ofs.Authorisation
import Zookeeper.Ofs.FileIndex
import Zookeeper.Ofs.PathWalk
import Zookeeper.PathMap

/-!
# The namespace as a map

What the master keeps is a tree of nodes (`Directory`), which requests go down and collections
prune.  What it is for is a map from names to entries, an entry being a node and, for a file, its
id (`Names`).  Removed nodes are in the map until they are collected.

Every request and every collection does to the map what it does to the tree, and is answered in
the same way (`namespace_refines`).  Only the order of a listing is that of the tree.
-/

namespace Ofs.Master

/-! ## Entries -/

/-- A node, and its id if it is a file. -/
structure Entry where
  node : Node
  file : Option Int64
deriving DecidableEq, Repr

namespace Entry

def isDir (e : Entry) : Bool := e.file.isNone

/-- The entry with nothing below it. -/
def item : Entry → Item
  | ⟨node, some id⟩ => .file node id
  | ⟨node, none⟩ => .directory node .empty

def modify (f : Node → Node) (e : Entry) : Entry := { e with node := f e.node }

theorem file_modify (f : Node → Node) (e : Entry) (h : e.file = none) :
    (e.modify f).file = none := h

end Entry

def Item.entry : Item → Entry
  | .file node id => ⟨node, some id⟩
  | .directory node _ => ⟨node, none⟩

theorem Item.node_entry (item : Item) : item.entry.node = item.node := by
  cases item <;> rfl

theorem Item.isDir_entry (item : Item) : item.entry.isDir = item.isDir := by
  cases item <;> rfl

theorem Item.entry_modify (f : Node → Node) (item : Item) :
    (item.modify f).entry = item.entry.modify f := by
  cases item <;> rfl

/-! ## The map of a tree -/

/-- The item some names lead to, removed or not. -/
def Item.under : Item → List Bytes → Option Item
  | item, [] => some item
  | .file .., _ :: _ => none
  | .directory _ children, name :: names => (children.find name).bind fun child => child.under names

def Item.entryAt (item : Item) (names : List Bytes) : Option Entry :=
  (item.under names).map Item.entry

theorem Item.under_append (item : Item) (names rest : List Bytes) :
    item.under (names ++ rest) = (item.under names).bind fun found => found.under rest := by
  induction names generalizing item with
  | nil => rfl
  | cons name names ih =>
      cases item with
      | file node id => rfl
      | directory node children =>
          rw [List.cons_append, under, under]
          cases children.find name with
          | none => rfl
          | some child => exact ih child

theorem Item.entryAt_nil (item : Item) : item.entryAt [] = some item.entry := rfl

theorem Item.entryAt_cons (node : Node) (children : Children) (name : Bytes) (names : List Bytes) :
    (Item.directory node children).entryAt (name :: names) =
      (children.find name).bind fun child => child.entryAt names := by
  rw [entryAt, under, Option.map_bind]
  rfl

theorem Item.entryAt_file (node : Node) (id : Int64) (name : Bytes) (names : List Bytes) :
    (Item.file node id).entryAt (name :: names) = none := rfl

/-- The namespace: entries under names, each in a directory. -/
abbrev Names := PathMap Bytes Entry fun e => e.file = none

/-- The map of a tree. -/
def Item.names (root : Item) (dir : root.isDir = true) : Names where
  entry := root.entryAt
  root := by
    cases root with
    | file node id => cases dir
    | directory node children => exact ⟨⟨node, none⟩, rfl, rfl⟩
  above {path name e} h := by
    rw [Item.entryAt, Item.under_append] at h
    cases hunder : root.under path with
    | none =>
        rw [hunder] at h
        cases h
    | some item =>
        rw [hunder] at h
        cases item with
        | file node id => cases h
        | directory node children =>
            exact ⟨⟨node, none⟩, by rw [Item.entryAt, hunder]; rfl, rfl⟩

/-! ## What a walk does to the map -/

/-- One map is another with what is under some names replaced. -/
structure EntriesReplaced (names : List Bytes) (old new : Item)
    (map map' : List Bytes → Option Entry) : Prop where
  old : ∀ ms, map (names ++ ms) = old.entryAt ms
  new : ∀ ms, map' (names ++ ms) = new.entryAt ms
  other : ∀ ms, ¬ names <+: ms → map' ms = map ms

theorem EntriesReplaced.root (old new : Item) :
    EntriesReplaced [] old new old.entryAt new.entryAt where
  old _ := rfl
  new _ := rfl
  other _ h := absurd List.nil_prefix h

namespace Children

/-- The child under a name replaced. -/
def put (name : Bytes) (item : Item) : Children → Children
  | .empty => .empty
  | .file node id rest =>
      if node.name = name then item.before rest else .file node id (rest.put name item)
  | .directory node children rest =>
      if node.name = name then item.before rest else .directory node children (rest.put name item)

theorem put_before (name : Bytes) (new item : Item) (rest : Children) :
    (item.before rest).put name new =
      if item.node.name = name then new.before rest else item.before (rest.put name new) := by
  cases item <;> rfl

theorem put_find {name : Bytes} {item : Item} (children : Children)
    (h : children.find name = some item) : children.put name item = children := by
  induction children using siblings with
  | empty => rfl
  | before child rest ih =>
      rw [find_before] at h
      rw [put_before]
      split at h
      next hname =>
        cases h
        rw [if_pos hname]
      next hname => rw [if_neg hname, ih h]

theorem find_put {name : Bytes} {item : Item} (hname : item.node.name = name) (n : Bytes)
    (children : Children) :
    (children.put name item).find n =
      if n = name then (children.find n).map fun _ => item else children.find n := by
  induction children using siblings with
  | empty => simp [put, find]
  | before child rest ih =>
      rw [put_before, find_before]
      by_cases hchild : child.node.name = name
      · rw [if_pos hchild, find_before, hname, hchild]
        by_cases hn : name = n
        · simp [hn]
        · rw [if_neg hn, if_neg hn, if_neg (Ne.symm hn)]
      · rw [if_neg hchild, find_before, ih]
        by_cases hn : child.node.name = n
        · rw [if_pos hn, if_pos hn, if_neg fun h => hchild (hn.trans h)]
        · rw [if_neg hn, if_neg hn]

theorem name_find {name : Bytes} {item : Item} {children : Children}
    (h : children.find name = some item) : item.node.name = name := by
  induction children using siblings with
  | empty => cases h
  | before child rest ih =>
      rw [find_before] at h
      split at h
      next hname =>
        cases h
        exact hname
      next => exact ih h

/-- A walk is at the child that is found, if that is not removed. -/
theorem queryNode_eq {α : Type} (fn : Item → α × Item) (sub : Bytes) (next : Option Bytes)
    (children : Children) :
    children.queryNode fn sub next =
      match children.find sub with
      | none => (none, children)
      | some child =>
          if child.node.delete then (none, children)
          else
            match next with
            | none => (some (fn child).1, children.put sub (fn child).2)
            | some path =>
                ((child.queryNode fn path).1, children.put sub (child.queryNode fn path).2) := by
  induction children with
  | empty => rfl
  | file node id rest ih =>
      simp only [queryNode, find, put]
      split
      next hname =>
        cases hdelete : node.delete with
        | true => simp [Item.node, hdelete]
        | false => cases next <;> simp [Item.node, hdelete, Item.queryNode, Item.before]
      next =>
        rw [ih]
        cases rest.find sub with
        | none => rfl
        | some child => cases next <;> simp only <;> split <;> rfl
  | directory node children rest _ ih =>
      simp only [queryNode, find, put]
      split
      next =>
        cases hdelete : node.delete with
        | true => simp [Item.node, hdelete]
        | false =>
            cases next with
            | none => simp [Item.node, hdelete]
            | some path =>
                simp only [Item.node, hdelete, Bool.false_eq_true, if_false, Item.queryNode]
                split <;> rfl
      next =>
        rw [ih]
        cases rest.find sub with
        | none => rfl
        | some child => cases next <;> simp only <;> split <;> rfl

end Children

/-- In a child of a directory. -/
theorem EntriesReplaced.inside {names : List Bytes} {name : Bytes} {old new child child' : Item}
    {node : Node} {children : Children}
    (h : EntriesReplaced names old new child.entryAt child'.entryAt)
    (hfind : children.find name = some child) (hname : child'.node.name = name) :
    EntriesReplaced (name :: names) old new (Item.directory node children).entryAt
      (Item.directory node (children.put name child')).entryAt where
  old ms := by
    rw [List.cons_append, Item.entryAt_cons, hfind, Option.bind_some, h.old]
  new ms := by
    rw [List.cons_append, Item.entryAt_cons, Children.find_put hname, if_pos rfl, hfind,
      Option.map_some, Option.bind_some, h.new]
  other ms hms := by
    cases ms with
    | nil => rfl
    | cons n ms =>
        rw [Item.entryAt_cons, Item.entryAt_cons, Children.find_put hname]
        split
        next hn =>
          subst hn
          rw [hfind, Option.map_some, Option.bind_some, Option.bind_some]
          exact h.other ms fun hprefix => hms ((List.prefix_cons_inj _).2 hprefix)
        next => rfl

/-- A walk keeps the name of what it starts from. -/
theorem Item.name_queryNode {α : Type} {fn : Item → α × Item}
    (keeps : ∀ item, (fn item).2.node.name = item.node.name) (item : Item) (path : Bytes) :
    (item.queryNode fn path).2.node.name = item.node.name := by
  cases item with
  | file node id => rfl
  | directory node children =>
      simp only [queryNode]
      split
      next => exact keeps _
      next => rfl

/-- A walk leads nowhere and changes nothing, or changes what it looks up and nothing else. -/
theorem Item.queryNode_entries {α : Type} {fn : Item → α × Item}
    (keeps : ∀ item, (fn item).2.node.name = item.node.name) (root : Item) (path : Bytes) :
    (root.lookup path = none ∧ root.queryNode fn path = (none, root)) ∨
    ∃ item, root.lookup path = some item ∧ (root.queryNode fn path).1 = some (fn item).1 ∧
      EntriesReplaced (walkedNames path) item (fn item).2 root.entryAt
        (root.queryNode fn path).2.entryAt := by
  -- induction on the pieces that are left
  generalize hn : (pieces path).length = n
  induction n using Nat.strong_induction_on generalizing root path with
  | _ n ih =>
      rw [walkedNames_splitPath]
      cases root with
      | file node id => exact .inl ⟨rfl, rfl⟩
      | directory node children =>
          simp only [lookup, queryNode]
          split
          next => exact .inr ⟨_, rfl, rfl, .root _ _⟩
          next hsub =>
            rw [children.lookup_find, children.queryNode_eq]
            cases hfind : children.find (splitPath path).1 with
            | none => exact .inl ⟨rfl, rfl⟩
            | some child =>
                have hname := Children.name_find hfind
                simp only [Option.bind_some]
                split
                next => exact .inl ⟨rfl, rfl⟩
                next =>
                  cases hnext : (splitPath path).2 with
                  | none =>
                      exact .inr ⟨child, rfl, rfl,
                        (EntriesReplaced.root _ _).inside hfind ((keeps child).trans hname)⟩
                  | some next =>
                      have hshorter : (pieces next).length < n := by
                        have hlength := congrArg List.length (pieces_splitPath path)
                        rw [hnext, Option.map_some, Option.getD_some, List.length_cons] at hlength
                        have hskip := length_skipPiece (pieces path)
                        omega
                      rcases ih _ hshorter child next rfl with ⟨hlook, hfn⟩ | ⟨item, hlook, hfn, h⟩
                      · refine .inl ⟨hlook, ?_⟩
                        simp only [hfn, children.put_find hfind]
                      · exact .inr ⟨item, hlook, hfn,
                          h.inside hfind ((child.name_queryNode keeps next).trans hname)⟩

theorem EntriesReplaced.eq {names : List Bytes} {old new : Item}
    {map map' result : List Bytes → Option Entry} (h : EntriesReplaced names old new map map')
    (inside : ∀ ms, result (names ++ ms) = new.entryAt ms)
    (outside : ∀ ms, ¬ names <+: ms → result ms = map ms) : result = map' := by
  funext ms
  by_cases hms : names <+: ms
  · obtain ⟨ms, rfl⟩ := hms
    rw [inside, h.new]
  · rw [outside ms hms, h.other ms hms]

/-! ## Where a path leads in the map -/

/-- A node on the way is not removed. -/
def Entry.Kept (e : Entry) : Prop := e.node.delete = false

instance : DecidablePred Entry.Kept := fun e => inferInstanceAs (Decidable (e.node.delete = false))

open Classical in
/-- The entry a path leads to.  Where the walk ends at an empty piece, a file is not one. -/
noncomputable def Names.find (m : Names) (path : Bytes) : Option Entry :=
  if m.Live Entry.Kept (walkedNames path) then
    (m.entry (walkedNames path)).filter fun e => !walkEnded (pieces path) || e.isDir
  else none

theorem Item.resolve_iff {root item : Item} (dir : root.isDir = true) {names : List Bytes} :
    root.resolve names = some item ↔
      (root.names dir).Live Entry.Kept names ∧ root.under names = some item := by
  induction names using List.reverseRecOn generalizing item with
  | nil => exact (and_iff_right PathMap.live_nil).symm
  | append_singleton names name ih =>
      have hlast : (root.names dir).entry (names ++ [name]) =
          ((root.under names).bind fun found => found.under [name]).map Item.entry := by
        rw [← Item.under_append]
        rfl
      rw [resolve_append, under_append, PathMap.live_concat, hlast, Option.bind_eq_some_iff]
      constructor
      · rintro ⟨parent, hparent, hitem⟩
        obtain ⟨hlive, hunder⟩ := ih.1 hparent
        rw [hunder, Option.bind_some]
        cases parent with
        | file node id => cases hitem
        | directory node children =>
            rw [resolve] at hitem
            obtain ⟨child, hfind, hchild⟩ := Option.bind_eq_some_iff.1 hitem
            split at hchild
            next => cases hchild
            next hkept =>
              cases hchild
              refine ⟨⟨hlive, item.entry, ?_, ?_⟩, ?_⟩
              · simp [under, hfind]
              · rw [Entry.Kept, Item.node_entry]
                simpa using hkept
              · simp [under, hfind]
      · rintro ⟨⟨hlive, e, he, hkept⟩, hunder⟩
        obtain ⟨parent, hparent, hitem⟩ := Option.bind_eq_some_iff.1 hunder
        refine ⟨parent, ih.2 ⟨hlive, hparent⟩, ?_⟩
        rw [hparent, Option.bind_some, hitem, Option.map_some, Option.mem_some_iff] at he
        subst he
        rw [Entry.Kept, Item.node_entry] at hkept
        cases parent with
        | file node id => cases hitem
        | directory node children =>
            rw [under] at hitem
            obtain ⟨child, hfind, hchild⟩ := Option.bind_eq_some_iff.1 hitem
            cases hchild
            rw [resolve, hfind, Option.bind_some, hkept]
            rfl

/-- A path leads to the same in the tree and in the map. -/
theorem Item.lookup_entry {root : Item} (dir : root.isDir = true) (path : Bytes) :
    (root.lookup path).map Item.entry = (root.names dir).find path := by
  rw [lookup_walk, Names.find]
  split
  next hlive =>
    have hresolve : root.resolve (walkedNames path) = root.under (walkedNames path) :=
      Option.ext fun item => by rw [resolve_iff dir, and_iff_right hlive]
    show _ = (root.entryAt (walkedNames path)).filter _
    rw [hresolve, entryAt]
    cases root.under (walkedNames path) with
    | none => rfl
    | some item => cases item <;> cases walkEnded (pieces path) <;> rfl
  next hlive =>
    have hresolve : root.resolve (walkedNames path) = none :=
      Option.eq_none_iff_forall_ne_some.2 fun item h => hlive ((resolve_iff dir).1 h).1
    rw [hresolve]
    rfl

/-- What a path leads to is where the walk leads. -/
theorem Names.entry_of_find {m : Names} {path : Bytes} {e : Entry} (h : m.find path = some e) :
    m.entry (walkedNames path) = some e := by
  rw [find] at h
  split at h
  next => exact Option.eq_some_of_filter_eq_some h
  next => cases h

/-! ## Requests on the map -/

/-- `Directory::CreateNode` on the map, at a place. -/
def Names.createAt (m : Names) (user : User) (names : List Bytes) (name : Bytes)
    (authority : Int16) (dir : Bool) (now id : Int64) : ErrorCode × Names :=
  match hplace : m.entry names with
  | none => (.fileNotExist, m)
  | some e =>
      if hdir : e.file = none then
        if e.node.checkAuthority user false then
          match hchild : m.entry (names ++ [name]) with
          | none =>
              (.none, m.add names name (newItem user name authority dir now id).entry
                ⟨e, hplace, hdir⟩ hchild)
          | some child =>
              if child.node.delete then
                if child.isDir = dir then
                  (.none,
                    m.alter (names ++ [name]) (Entry.modify Node.recover) (Entry.file_modify _))
                else (.alreadyExistDeleteFile, m)
              else (.fileExist, m)
        else (.permissionDeny, m)
      else (.isNotDirectory, m)

/-- `Directory::Remove` on the map, at a place. -/
def Names.removeAt (m : Names) (user : User) (names : List Bytes) (now : Int64) :
    ErrorCode × Names :=
  match m.entry names with
  | none => (.fileNotExist, m)
  | some e =>
      if e.node.checkAuthority user true && !e.node.root then
        (.none, m.alter names (Entry.modify fun node => node.markDelete now)
          (Entry.file_modify _))
      else (.permissionDeny, m)

section

variable {m : Names} {root root' : Item} {names : List Bytes} {item : Item}

theorem newItem_entryAt (user : User) (name : Bytes) (authority : Int16) (dir : Bool)
    (now id : Int64) (m : Bytes) (ms : List Bytes) :
    (newItem user name authority dir now id).entryAt (m :: ms) = none := by
  cases dir <;> rfl

theorem newItem_name (user : User) (name : Bytes) (authority : Int16) (dir : Bool)
    (now id : Int64) : (newItem user name authority dir now id).node.name = name := by
  rw [newItem_node]
  rfl

/-- A node changed in place has the same entries under it. -/
theorem Item.entryAt_modify (f : Node → Node) (item : Item) (names : List Bytes) :
    (item.modify f).entryAt names =
      if names = [] then (item.entryAt names).map (Entry.modify f) else item.entryAt names := by
  cases item <;> cases names <;> rfl

/-- The entries of a directory with a child in front of the others. -/
theorem Item.entryAt_before {node : Node} {children : Children} {child : Item}
    (hfree : children.find child.node.name = none) (hbelow : ∀ n ns, child.entryAt (n :: ns) = none)
    (ms : List Bytes) :
    (Item.directory node (child.before children)).entryAt ms =
      if ms = [child.node.name] then some child.entry
      else (Item.directory node children).entryAt ms := by
  cases ms with
  | nil => rfl
  | cons n ns =>
      rw [entryAt_cons, entryAt_cons, Children.find_before]
      by_cases hn : child.node.name = n
      · subst hn
        rw [if_pos rfl, hfree, Option.bind_some]
        cases ns with
        | nil => rw [if_pos rfl, entryAt_nil]
        | cons n' ns =>
            rw [if_neg (by simp), hbelow]
            rfl
      · rw [if_neg hn, if_neg fun h => hn (List.cons.inj h).1.symm]

/-- The entries of a directory with a child changed in place. -/
theorem Item.entryAt_child {node : Node} {children : Children} {name : Bytes} {f : Node → Node}
    (keeps : ∀ node, (f node).name = node.name) (ms : List Bytes) :
    (Item.directory node (children.modify name f)).entryAt ms =
      if ms = [name] then ((Item.directory node children).entryAt ms).map (Entry.modify f)
      else (Item.directory node children).entryAt ms := by
  cases ms with
  | nil => rfl
  | cons n ns =>
      rw [entryAt_cons, entryAt_cons, Children.find_modify _ _ _ keeps]
      by_cases hn : n = name
      · subst hn
        rw [if_pos rfl]
        cases children.find n with
        | none => simp
        | some child =>
            rw [Option.map_some, Option.bind_some, Option.bind_some, entryAt_modify]
            simp
      · rw [if_neg hn, if_neg fun h => hn (List.cons.inj h).1]

section

variable {user : User} {name : Bytes} {authority : Int16} {dir : Bool} {now id : Int64} {e : Entry}

theorem Names.createAt_file (hplace : m.entry names = some e) (hfile : e.file ≠ none) :
    m.createAt user names name authority dir now id = (.isNotDirectory, m) := by
  rw [createAt]
  split
  next hnone => rw [hplace] at hnone; cases hnone
  next e' he' =>
    cases he'.symm.trans hplace
    rw [dif_neg hfile]

theorem Names.createAt_denied (hplace : m.entry names = some e) (hdir : e.file = none)
    (hmay : e.node.checkAuthority user false = false) :
    m.createAt user names name authority dir now id = (.permissionDeny, m) := by
  rw [createAt]
  split
  next hnone => rw [hplace] at hnone; cases hnone
  next e' he' =>
    cases he'.symm.trans hplace
    rw [dif_pos hdir, hmay]
    rfl

/-- Nothing is there, so a new node is put there. -/
theorem Names.createAt_free (hplace : m.entry names = some e) (hdir : e.file = none)
    (hmay : e.node.checkAuthority user false = true) (hfree : m.entry (names ++ [name]) = none) :
    m.createAt user names name authority dir now id =
      (.none, m.add names name (newItem user name authority dir now id).entry ⟨e, hplace, hdir⟩
        hfree) := by
  rw [createAt]
  split
  next hnone => rw [hplace] at hnone; cases hnone
  next e' he' =>
    cases he'.symm.trans hplace
    rw [dif_pos hdir, if_pos hmay]
    split
    next => rfl
    next child hchild => rw [hfree] at hchild; cases hchild

/-- A node is there, which comes back if it is removed and of the kind that is asked for. -/
theorem Names.createAt_there (hplace : m.entry names = some e) (hdir : e.file = none)
    (hmay : e.node.checkAuthority user false = true) {child : Entry}
    (hchild : m.entry (names ++ [name]) = some child) :
    m.createAt user names name authority dir now id =
      if child.node.delete then
        if child.isDir = dir then
          (.none, m.alter (names ++ [name]) (Entry.modify Node.recover) (Entry.file_modify _))
        else (.alreadyExistDeleteFile, m)
      else (.fileExist, m) := by
  rw [createAt]
  split
  next hnone => rw [hplace] at hnone; cases hnone
  next e' he' =>
    cases he'.symm.trans hplace
    rw [dif_pos hdir, if_pos hmay]
    split
    next hnone => rw [hchild] at hnone; cases hnone
    next child' hchild' =>
      cases hchild'.symm.trans hchild
      rfl

end

/-- Creating in the tree is creating in the map. -/
theorem Names.createAt_tree (hmap : m.entry = root.entryAt) (user : User) (name : Bytes)
    (authority : Int16) (dir : Bool) (now id : Int64)
    (h : EntriesReplaced names item (item.createNode user name authority dir now id).2
      root.entryAt root'.entryAt) :
    (m.createAt user names name authority dir now id).1 =
        (item.createNode user name authority dir now id).1 ∧
      (m.createAt user names name authority dir now id).2.entry = root'.entryAt := by
  have hplace : m.entry names = some item.entry := by
    have hold := h.old []
    rwa [List.append_nil, Item.entryAt_nil, ← hmap] at hold
  have hsame (heq : (item.createNode user name authority dir now id).2 = item) :
      m.entry = root'.entryAt := by
    rw [heq] at h
    exact h.eq (fun ms => by rw [hmap, h.old]) (fun ms _ => by rw [hmap])
  have hnotUnder {ms : List Bytes} (hms : ¬ names <+: ms) : ms ≠ names ++ [name] := by
    rintro rfl
    exact hms (List.prefix_append _ _)
  cases item with
  | file node fileId =>
      rw [createAt_file hplace (Option.some_ne_none _)]
      exact ⟨rfl, hsame rfl⟩
  | directory node children =>
      have hchild : m.entry (names ++ [name]) = (children.find name).map Item.entry := by
        rw [hmap, h.old, Item.entryAt_cons]
        cases children.find name <;> rfl
      simp only [Item.createNode, createIn] at h hsame ⊢
      cases hmay : node.checkAuthority user false with
      | false =>
          rw [createAt_denied hplace rfl hmay]
          simp only [hmay] at hsame
          exact ⟨rfl, hsame rfl⟩
      | true =>
          simp only [hmay, Bool.not_true, Bool.false_eq_true, if_false] at h hsame ⊢
          cases hfind : children.find name with
          | none =>
              have hfree : m.entry (names ++ [name]) = none := by rw [hchild, hfind]; rfl
              rw [createAt_free hplace rfl hmay hfree]
              simp only [hfind] at h
              refine ⟨rfl, h.eq (fun ms => ?_) fun ms hms => ?_⟩
              · simp only [PathMap.entry_add, List.append_cancel_left_eq]
                rw [hmap, h.old, Item.entryAt_before (by rwa [newItem_name])
                  (newItem_entryAt _ _ _ _ _ _), newItem_name]
              · rw [PathMap.entry_add, if_neg (hnotUnder hms), hmap]
          | some child =>
              have hthere : m.entry (names ++ [name]) = some child.entry := by
                rw [hchild, hfind]
                rfl
              rw [createAt_there hplace rfl hmay hthere, Item.node_entry, Item.isDir_entry]
              simp only [hfind] at h hsame ⊢
              cases hremoved : child.node.delete with
              | false =>
                  simp only [hremoved] at hsame
                  exact ⟨rfl, hsame rfl⟩
              | true =>
                  simp only [hremoved, if_true] at h hsame ⊢
                  by_cases hkind : child.isDir = dir
                  · simp only [hkind, bne_self_eq_false, Bool.false_eq_true, if_false,
                      if_true] at h ⊢
                    refine ⟨trivial, h.eq (fun ms => ?_) fun ms hms => ?_⟩
                    · simp only [PathMap.entry_alter, List.append_cancel_left_eq]
                      rw [hmap, h.old, Item.entryAt_child Node.name_recover]
                    · rw [PathMap.entry_alter, if_neg (hnotUnder hms), hmap]
                  · have hother : (dir != child.isDir) = true := by simpa using Ne.symm hkind
                    simp only [hother, if_true] at hsame
                    simp only [hother, if_true, if_neg hkind]
                    exact ⟨trivial, hsame trivial⟩

/-- Removing in the tree is removing in the map. -/
theorem Names.removeAt_tree (hmap : m.entry = root.entryAt) (user : User) (now : Int64)
    (h : EntriesReplaced names item (item.remove user now).2 root.entryAt root'.entryAt) :
    (m.removeAt user names now).1 = (item.remove user now).1 ∧
      (m.removeAt user names now).2.entry = root'.entryAt := by
  have hplace : m.entry names = some item.entry := by
    have hold := h.old []
    rwa [List.append_nil, Item.entryAt_nil, ← hmap] at hold
  have hsame (heq : (item.remove user now).2 = item) : m.entry = root'.entryAt := by
    rw [heq] at h
    exact h.eq (fun ms => by rw [hmap, h.old]) (fun ms _ => by rw [hmap])
  rw [removeAt, hplace]
  simp only [Item.node_entry]
  rw [Item.remove] at h hsame ⊢
  cases hmay : item.node.checkAuthority user true with
  | false =>
      simp only [hmay] at hsame
      exact ⟨rfl, hsame rfl⟩
  | true =>
      cases hroot : item.node.root with
      | true =>
          simp only [hmay, hroot] at hsame
          exact ⟨rfl, hsame rfl⟩
      | false =>
          simp only [hmay, hroot, Bool.not_true, Bool.not_false, Bool.and_self, Bool.false_eq_true,
            if_false, if_true] at h ⊢
          refine ⟨trivial, h.eq (fun ms => ?_) fun ms hms => ?_⟩
          · rw [PathMap.entry_alter, hmap, h.old, Item.entryAt_modify]
            simp
          · rw [PathMap.entry_alter, if_neg, hmap]
            rintro rfl
            exact hms List.prefix_rfl

end

/-! ## The service on the map -/

/-- The namespace and the blocks. -/
structure NameState where
  names : Names
  blocks : Blocks

/-- The names in a directory that are not removed, each once. -/
structure Names.Enumerates (m : Names) (place order : List Bytes) : Prop where
  nodup : order.Nodup
  mem : ∀ name, name ∈ order ↔ ∃ e ∈ m.entry (place ++ [name]), e.Kept

/-- What a listing may show: the entries of a directory in some order, or the file itself. -/
def Names.Lists (m : Names) (path : Bytes) (shown : List Entry) : Prop :=
  match m.find path with
  | none => shown = []
  | some e =>
      if e.isDir then
        ∃ order, m.Enumerates (walkedNames path) order ∧
          shown.map some = order.map fun name => m.entry (walkedNames path ++ [name])
      else shown = [e]

namespace NameState

noncomputable def create (s : NameState) (user : User) (outside : Outside)
    (directory name : Bytes) (authority : Int32) (dir : Bool) : NameState × Response :=
  match s.names.find (cStr directory) with
  | none => (s, { errCode := .fileNotExist })
  | some _ =>
      let r := s.names.createAt user (walkedNames (cStr directory)) (cStr name) authority.toInt16
        dir (Int64.ofNat outside.now) outside.nextId
      ({ s with names := r.2 }, { errCode := r.1 })

noncomputable def remove (s : NameState) (user : User) (outside : Outside) (path : Bytes) :
    NameState × Response :=
  match s.names.find (cStr path) with
  | none => (s, { errCode := .fileNotExist })
  | some _ =>
      let r := s.names.removeAt user (walkedNames (cStr path)) (Int64.ofNat outside.now)
      ({ s with names := r.2 }, { errCode := r.1 })

noncomputable def ask {α : Type} (s : NameState) (path : Bytes) (fn : Item → α) : Option α :=
  (s.names.find (cStr path)).map fun e => fn e.item

def grant (s : NameState) (r : Option (Response × Blocks)) : NameState × Response :=
  ({ s with blocks := (r.map Prod.snd).getD s.blocks }, answer (r.map Prod.fst))

/-- The map serves a request with a response. -/
def Serves (settings : Settings) (s : NameState) (c : Call) (response : Response)
    (s' : NameState) : Prop :=
  match c.request with
  | .makeDir directory name authority =>
      (s', response) = s.create c.user c.outside directory name authority true
  | .create directory name authority =>
      (s', response) = s.create c.user c.outside directory name authority false
  | .remove path => (s', response) = s.remove c.user c.outside path
  | .list path =>
      s' = s ∧ ∃ shown, s.names.Lists (cStr path) shown ∧
        response = { errCode := .none, files := shown.map fun e => e.item.status settings }
  | .status path =>
      s' = s ∧ response = answer (s.ask path fun item =>
        { errCode := .none, files := [item.status settings] })
  | .read path blockIndex =>
      s' = s ∧ response = answer (s.ask path (readBlock settings s.blocks blockIndex))
  | .write path blockIndex =>
      (s', response) = s.grant (s.ask path (writeBlock settings c.outside s.blocks blockIndex))
  | .append path =>
      (s', response) = s.grant (s.ask path (appendBlock settings c.outside s.blocks))

end NameState

/-- The state of the master shows what is in a map. -/
structure State.Shows (s : State) (t : NameState) : Prop where
  dir : s.root.isDir = true
  names : t.names = s.root.names dir
  blocks : t.blocks = s.blocks
  distinct : s.root.distinct = true

/-! ### Listings -/

theorem Children.mem_list {children : Children} (distinct : children.distinct = true)
    (item : Item) :
    item ∈ children.list ↔ children.find item.node.name = some item ∧ item.node.delete = false := by
  induction children using siblings with
  | empty => simp [list, find]
  | before child rest ih =>
      rw [distinct_before, Bool.and_eq_true, Bool.and_eq_true,
        Option.isNone_iff_eq_none] at distinct
      have hlist : (child.before rest).list =
          if child.node.delete then rest.list else child :: rest.list := by
        cases child <;> rfl
      have hrest := ih distinct.2
      rw [hlist, find_before]
      by_cases hname : child.node.name = item.node.name
      · have hnot : item ∉ rest.list := by
          rw [hrest, ← hname, distinct.1.1]
          simp
        rw [if_pos hname, Option.some_inj]
        cases hdelete : child.node.delete with
        | true =>
            rw [if_pos rfl]
            refine iff_of_false hnot ?_
            rintro ⟨rfl, hkept⟩
            rw [hdelete] at hkept
            cases hkept
        | false =>
            rw [if_neg Bool.false_ne_true, List.mem_cons, or_iff_left hnot, eq_comm]
            refine (and_iff_left_of_imp ?_).symm
            rintro rfl
            exact hdelete
      · have hne : item ≠ child := fun h => hname (by rw [h])
        rw [if_neg hname, ← hrest]
        split
        next => rfl
        next => rw [List.mem_cons, or_iff_right hne]

theorem Children.nodup_list {children : Children} (distinct : children.distinct = true) :
    (children.list.map fun item => item.node.name).Nodup := by
  induction children using siblings with
  | empty => exact List.nodup_nil
  | before child rest ih =>
      rw [distinct_before, Bool.and_eq_true, Bool.and_eq_true,
        Option.isNone_iff_eq_none] at distinct
      have hlist : (child.before rest).list =
          if child.node.delete then rest.list else child :: rest.list := by
        cases child <;> rfl
      rw [hlist]
      split
      next => exact ih distinct.2
      next =>
        rw [List.map_cons, List.nodup_cons]
        refine ⟨fun hmem => ?_, ih distinct.2⟩
        obtain ⟨item, hitem, hname⟩ := List.mem_map.1 hmem
        rw [Children.mem_list distinct.2, hname, distinct.1.1] at hitem
        cases hitem.1

theorem Children.distinct_find {children : Children} (distinct : children.distinct = true)
    {name : Bytes} {item : Item} (h : children.find name = some item) : item.distinct = true := by
  induction children using siblings with
  | empty => cases h
  | before child rest ih =>
      rw [distinct_before, Bool.and_eq_true, Bool.and_eq_true] at distinct
      rw [find_before] at h
      split at h
      next =>
        cases h
        exact distinct.1.2
      next => exact ih distinct.2 h

theorem Item.distinct_under {root item : Item} (distinct : root.distinct = true)
    {names : List Bytes}
    (h : root.under names = some item) : item.distinct = true := by
  induction names generalizing root with
  | nil =>
      cases h
      exact distinct
  | cons name names ih =>
      cases root with
      | file node id => cases h
      | directory node children =>
          obtain ⟨child, hfind, hchild⟩ := Option.bind_eq_some_iff.1 h
          exact ih (Children.distinct_find distinct hfind) hchild

/-- A listing of the tree shows what is in the map. -/
theorem Names.lists_tree {root : Item} (dir : root.isDir = true) (distinct : root.distinct = true)
    (path : Bytes) :
    (root.names dir).Lists path
      ((((root.lookup path).map Item.list).getD []).map Item.entry) := by
  have hfind := root.lookup_entry dir path
  rw [Lists, ← hfind]
  cases hlook : root.lookup path with
  | none => rfl
  | some item =>
      obtain ⟨hresolve, -⟩ := Option.filter_eq_some_iff.1 ((root.lookup_walk path).symm.trans hlook)
      have hunder := ((Item.resolve_iff dir).1 hresolve).2
      cases item with
      | file node id => rfl
      | directory node children =>
          have hchildren : children.distinct = true := Item.distinct_under distinct hunder
          have hchild (name : Bytes) : (root.names dir).entry (walkedNames path ++ [name]) =
              (children.find name).map Item.entry := by
            show root.entryAt _ = _
            rw [Item.entryAt, Item.under_append, hunder]
            cases hname : children.find name <;> simp [Item.under, hname]
          refine ⟨children.list.map fun item => item.node.name,
            ⟨Children.nodup_list hchildren, ?_⟩, ?_⟩
          · intro name
            rw [hchild, List.mem_map]
            constructor
            · rintro ⟨item, hitem, rfl⟩
              obtain ⟨hitem, hkept⟩ := (Children.mem_list hchildren item).1 hitem
              refine ⟨item.entry, by rw [hitem]; rfl, ?_⟩
              rwa [Entry.Kept, Item.node_entry]
            · rintro ⟨e, he, hkept⟩
              obtain ⟨item, hitem, rfl⟩ := Option.map_eq_some_iff.1 he
              have hname := Children.name_find hitem
              rw [Entry.Kept, Item.node_entry] at hkept
              exact ⟨item, (Children.mem_list hchildren item).2 ⟨hname ▸ hitem, hkept⟩, hname⟩
          · simp only [Option.map_some, Option.getD_some, List.map_map]
            refine List.map_congr_left fun item hitem => ?_
            have hfound := ((Children.mem_list hchildren item).1 hitem).1
            simp [hchild, hfound]

/-! ### Requests -/

/-- What a request asks about a node is in its entry. -/
theorem Item.ask_names {root : Item} (dir : root.isDir = true) {t : NameState}
    (hnames : t.names = root.names dir) {α : Type} (path : Bytes) {fn : Item → α}
    (asks : ∀ item : Item, fn item.entry.item = fn item) : root.ask path fn = t.ask path fn := by
  rw [ask_eq, NameState.ask, hnames, ← root.lookup_entry dir, Option.map_map]
  exact congrFun (congrArg Option.map (funext fun item => (asks item).symm)) _

/-- A walk that does to the tree what is done to the map at its end. -/
theorem State.Shows.walk {s : State} {t : NameState} (h : s.Shows t) (path : Bytes)
    (done : ErrorCode × Names) {fn : Item → ErrorCode × Item}
    (keeps : ∀ item, (fn item).2.node.name = item.node.name)
    (kind : ∀ item, (fn item).2.isDir = item.isDir)
    (apart : ∀ item : Item, item.distinct = true → (fn item).2.distinct = true)
    (does : ∀ item (root' : Item),
      EntriesReplaced (walkedNames path) item (fn item).2 s.root.entryAt root'.entryAt →
        done.1 = (fn item).1 ∧ done.2.entry = root'.entryAt) :
    let r := s.root.queryNode fn path
    ∃ t', { s with root := r.2 : State }.Shows t' ∧
      (t', answer (r.1.map fun code => { errCode := code })) =
        match t.names.find path with
        | none => (t, { errCode := .fileNotExist })
        | some _ => ({ t with names := done.2 }, { errCode := done.1 }) := by
  have hdir : (s.root.queryNode fn path).2.isDir = true :=
    (Item.isDir_queryNode kind path).trans h.dir
  have hdistinct := Item.queryNode_distinct keeps apart path h.distinct
  have hfind : t.names.find path = (s.root.lookup path).map Item.entry := by
    rw [h.names, s.root.lookup_entry h.dir]
  rw [hfind]
  rcases s.root.queryNode_entries keeps path with ⟨hlook, hfn⟩ | ⟨item, hlook, hcode, hreplaced⟩
  · refine ⟨t, ?_, ?_⟩
    · simp only [hfn]
      exact h
    · rw [hlook, hfn]
      rfl
  · obtain ⟨hdone, hentry⟩ := does item _ hreplaced
    refine ⟨{ t with names := done.2 }, ⟨hdir, ?_, h.blocks, hdistinct⟩, ?_⟩
    · exact PathMap.ext fun names => congrFun hentry names
    · rw [hlook, hcode, hdone]
      rfl

theorem State.Shows.entry {s : State} {t : NameState} (h : s.Shows t) :
    t.names.entry = s.root.entryAt := by
  rw [h.names]
  rfl

theorem State.Shows.create {s : State} {t : NameState} (h : s.Shows t) (user : User)
    (outside : Outside) (directory name : Bytes) (authority : Int32) (dir : Bool) :
    ∃ t', (t', (s.create user outside directory name authority dir).2) =
        t.create user outside directory name authority dir ∧
      (s.create user outside directory name authority dir).1.Shows t' := by
  obtain ⟨t', hshows, heq⟩ := h.walk (cStr directory)
    (t.names.createAt user (walkedNames (cStr directory)) (cStr name) authority.toInt16 dir
      (Int64.ofNat outside.now) outside.nextId)
    (Item.name_createNode user (cStr name) authority.toInt16 dir _ _)
    (Item.isDir_createNode user (cStr name) authority.toInt16 dir _ _)
    (Item.distinct_createNode user (cStr name) authority.toInt16 dir _ _)
    (fun item root' => Names.createAt_tree h.entry _ _ _ _ _ _)
  exact ⟨t', heq, hshows⟩

theorem State.Shows.remove {s : State} {t : NameState} (h : s.Shows t) (settings : Settings)
    (user : User) (outside : Outside) (path : Bytes) :
    ∃ t', (t', (s.serve settings user outside (.remove path)).2) = t.remove user outside path ∧
      (s.serve settings user outside (.remove path)).1.Shows t' := by
  obtain ⟨t', hshows, heq⟩ := h.walk (cStr path)
    (t.names.removeAt user (walkedNames (cStr path)) (Int64.ofNat outside.now))
    (Item.name_remove user _) (Item.isDir_remove user _) (Item.distinct_remove user _)
    (fun item root' => Names.removeAt_tree h.entry _ _)
  exact ⟨t', heq, hshows⟩

/-- A request does to the map what it does to the tree, and is answered in the same way. -/
theorem State.Shows.serve {s : State} {t : NameState} (h : s.Shows t) (settings : Settings)
    (c : Call) :
    ∃ t', t.Serves settings c (s.serve settings c.user c.outside c.request).2 t' ∧
      (s.serve settings c.user c.outside c.request).1.Shows t' := by
  have hgrant {path : Bytes} {fn : Item → Response × Blocks}
      (asks : ∀ item : Item, fn item.entry.item = fn item) :
      ∃ t', (t', (s.grant (s.root.ask path fn)).2) = t.grant (t.ask path fn) ∧
        (s.grant (s.root.ask path fn)).1.Shows t' := by
    rw [Item.ask_names h.dir h.names path asks]
    refine ⟨_, rfl, h.dir, h.names, ?_, h.distinct⟩
    show ((t.ask path fn).map Prod.snd).getD t.blocks = ((t.ask path fn).map Prod.snd).getD s.blocks
    rw [h.blocks]
  obtain ⟨user, request, outside⟩ := c
  cases request with
  | makeDir directory name authority => exact h.create user outside directory name authority true
  | create directory name authority => exact h.create user outside directory name authority false
  | remove path => exact h.remove settings user outside path
  | list path =>
      refine ⟨t, ⟨rfl, _, h.names ▸ Names.lists_tree h.dir h.distinct (cStr path), ?_⟩, h⟩
      simp only [State.serve, Item.ask_eq, List.map_map]
      congr 1
      refine List.map_congr_left fun item _ => ?_
      cases item <;> rfl
  | status path =>
      refine ⟨t, ⟨rfl, ?_⟩, h⟩
      rw [← Item.ask_names h.dir h.names path fun item => by cases item <;> rfl]
      rfl
  | read path blockIndex =>
      refine ⟨t, ⟨rfl, ?_⟩, h⟩
      rw [← Item.ask_names h.dir h.names path fun item => by cases item <;> rfl, h.blocks]
      rfl
  | write path blockIndex =>
      obtain ⟨t', heq, hshows⟩ := @hgrant path (writeBlock settings outside s.blocks blockIndex)
        fun item => by cases item <;> rfl
      exact ⟨t', by rw [NameState.Serves, h.blocks]; exact heq, hshows⟩
  | append path =>
      obtain ⟨t', heq, hshows⟩ := @hgrant path (appendBlock settings outside s.blocks)
        fun item => by cases item <;> rfl
      exact ⟨t', by rw [NameState.Serves, h.blocks]; exact heq, hshows⟩

end Ofs.Master
