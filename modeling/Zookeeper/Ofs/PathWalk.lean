import Zookeeper.Ofs.Directory

/-!
# Paths and their components

A path means the node its components lead to, the non-empty pieces between its slashes.
`Directory::QueryNode` skips one slash at every directory and takes another one for the
end of the path.  So it goes by a prefix of the components (`walkPieces_prefix`), which
is a proper one behind two slashes at the front or three between components, and it
wants a directory where a slash is left (`lookup_walk`).

`follows_iff` says which paths lead where they should.
-/

namespace Ofs.Master

/-! ## What a path means -/

/-- The components of a path. -/
def components (path : Bytes) : List Bytes := (pieces path).filter (· ≠ [])

/-- The node that names lead to from an item.  All are there and not deleted, and all but
the last are directories. -/
def Item.resolve : Item → List Bytes → Option Item
  | item, [] => some item
  | .file .., _ :: _ => none
  | .directory _ children, name :: names =>
      (children.find name).bind fun child =>
        if child.node.delete then none else child.resolve names

/-- Whatever is done to the node, the path leads to it by its components, and to none if
they do not. -/
def Follows (root : Item) (path : Bytes) : Prop :=
  ∀ (α : Type) (fn : Item → α × Item), (∀ item, (fn item).2.node.name = item.node.name) →
    match root.resolve (components path) with
    | some item => (root.queryNode fn path).1 = some (fn item).1 ∧
        ReplacedAt (components path) item (fn item).2 root.nodeAt (root.queryNode fn path).2.nodeAt
    | none => root.queryNode fn path = (none, root)

/-! ## How the walk ends -/

/-- The walk ends at an empty piece. -/
def walkEnded : List Bytes → Bool
  | [] => false
  | [p] => decide (p = [])
  | p :: q :: rest =>
      if p = [] then if q = [] then true else walkEnded rest else walkEnded (q :: rest)

theorem walkEnded_skip {ps rest : List Bytes} {p : Bytes} (h : skipPiece ps = p :: rest) :
    walkEnded ps = if p = [] then true else walkEnded rest := by
  cases ps with
  | nil => cases h
  | cons q ps =>
      cases ps with
      | nil =>
          cases h
          rw [walkEnded]
          split
          next hempty => exact decide_eq_true hempty
          next hne => exact decide_eq_false hne
      | cons r ps =>
          rw [skipPiece] at h
          rw [walkEnded]
          split at h
          next hempty =>
            cases h
            rw [if_pos hempty]
          next hne =>
            cases h
            rw [if_neg hne, if_neg hne]

theorem walkPieces_prefix (ps : List Bytes) : walkPieces ps <+: ps.filter (· ≠ []) := by
  induction ps using walkPieces.induct with
  | case1 => exact List.nil_prefix
  | case2 => exact List.nil_prefix
  | case3 p hp => simp [walkPieces, hp]
  | case4 rest => exact List.nil_prefix
  | case5 q rest hq ih => simpa [walkPieces, hq] using ih
  | case6 p q rest hp ih => simpa [walkPieces, hp] using ih

/-- Where the walk leaves out a component, it ends at an empty piece. -/
theorem walkEnded_of_ne {ps : List Bytes} (h : walkPieces ps ≠ ps.filter (· ≠ [])) :
    walkEnded ps = true := by
  induction ps using walkPieces.induct with
  | case1 => exact absurd rfl h
  | case2 => rfl
  | case3 p hp => simp [walkPieces, hp] at h
  | case4 rest => rfl
  | case5 q rest hq ih =>
      have hrest : walkEnded rest = true := ih (by simpa [walkPieces, hq] using h)
      simpa [walkEnded, hq] using hrest
  | case6 p q rest hp ih =>
      have hrest : walkEnded (q :: rest) = true := ih (by simpa [walkPieces, hp] using h)
      simpa [walkEnded, hp] using hrest

/-- Where it leaves out none, it ends at an empty piece if the path does. -/
theorem walkEnded_iff {ps : List Bytes} (h : walkPieces ps = ps.filter (· ≠ [])) :
    walkEnded ps = true ↔ ps.getLast? = some [] := by
  induction ps using walkPieces.induct with
  | case1 => exact ⟨fun h => absurd h Bool.false_ne_true, fun h => by cases h⟩
  | case2 => exact ⟨fun _ => rfl, fun _ => rfl⟩
  | case3 p hp => simp [walkEnded, hp]
  | case4 rest =>
      -- nothing is left out, so the rest has no component
      have hempty : ∀ p ∈ rest, p = [] := by simpa [walkPieces] using h
      refine iff_of_true rfl ?_
      cases rest with
      | nil => rfl
      | cons p rest =>
          rw [List.getLast?_cons_cons, List.getLast?_cons_cons]
          have hlast := List.getLast_mem (List.cons_ne_nil p rest)
          rw [List.getLast?_eq_some_getLast (List.cons_ne_nil p rest), hempty _ hlast]
  | case5 q rest hq ih =>
      have hrest : walkEnded rest = true ↔ rest.getLast? = some [] :=
        ih (by simpa [walkPieces, hq] using h)
      have hended : walkEnded ([] :: q :: rest) = walkEnded rest := by simp [walkEnded, hq]
      rw [hended, hrest, List.getLast?_cons_cons]
      cases rest with
      | nil => simp [hq]
      | cons r rest => rw [List.getLast?_cons_cons]
  | case6 p q rest hp ih =>
      have hrest : walkEnded (q :: rest) = true ↔ (q :: rest).getLast? = some [] :=
        ih (by simpa [walkPieces, hp] using h)
      have hended : walkEnded (p :: q :: rest) = walkEnded (q :: rest) := by simp [walkEnded, hp]
      rw [hended, hrest, List.getLast?_cons_cons]

/-! ## Where the walk leads -/

/-- A walk through children, by the child it finds. -/
theorem Children.lookup_find (children : Children) (sub : Bytes) (next : Option Bytes) :
    (children.queryNode look sub next).1 = (children.find sub).bind fun item =>
      if item.node.delete then none
      else match next with
        | none => some item
        | some path => item.lookup path := by
  induction children with
  | empty => rfl
  | file node id rest ih =>
      simp only [queryNode, find]
      split
      next =>
        cases hdelete : node.delete with
        | true => simp [Item.node, hdelete]
        | false => cases next <;> simp [Item.node, hdelete, look, Item.lookup, Item.queryNode]
      next => exact ih
  | directory node children rest _ ih =>
      simp only [queryNode, find]
      split
      next =>
        cases hdelete : node.delete with
        | true => simp [Item.node, hdelete]
        | false =>
            cases next with
            | none => simp [Item.node, hdelete, look]
            | some path =>
                simp only [Item.node, hdelete, Option.bind_some, Item.lookup, Item.queryNode,
                  Bool.false_eq_true, if_false]
                split <;> rfl
      next => exact ih

theorem length_skipPiece (ps : List Bytes) : (skipPiece ps).length ≤ ps.length := by
  cases ps with
  | nil => exact Nat.le_refl _
  | cons p ps =>
      cases ps with
      | nil => exact Nat.le_refl _
      | cons q ps =>
          rw [skipPiece]
          split
          next => exact Nat.le_succ _
          next => exact Nat.le_refl _

/-- The walk goes by its names, and wants a directory where it ends at an empty piece. -/
theorem Item.lookup_walk (root : Item) (path : Bytes) :
    root.lookup path = (root.resolve (walkedNames path)).filter fun item =>
      !walkEnded (pieces path) || item.isDir := by
  -- induction on the pieces that are left
  generalize hn : (pieces path).length = n
  induction n using Nat.strong_induction_on generalizing root path with
  | _ n ih =>
      have hpieces := pieces_splitPath path
      rw [walkedNames_splitPath, walkEnded_skip hpieces]
      cases root with
      | file node id =>
          show none = _
          split
          next => rfl
          next => rfl
      | directory node children =>
          simp only [lookup, queryNode]
          split
          next => rfl
          next hsub =>
            rw [children.lookup_find, resolve]
            cases children.find (splitPath path).1 with
            | none => rfl
            | some child =>
                rw [Option.bind_some, Option.bind_some]
                split
                next => rfl
                next =>
                  cases hnext : (splitPath path).2 with
                  | none => rfl
                  | some next =>
                      have hshorter : (pieces next).length < n := by
                        have hlength := congrArg List.length hpieces
                        rw [hnext, Option.map_some, Option.getD_some, List.length_cons] at hlength
                        have hskip := length_skipPiece (pieces path)
                        omega
                      exact ih _ hshorter child next rfl

theorem Item.resolve_append (item : Item) (names rest : List Bytes) :
    item.resolve (names ++ rest) = (item.resolve names).bind fun found => found.resolve rest := by
  induction names generalizing item with
  | nil => rfl
  | cons name names ih =>
      cases item with
      | file node id => rfl
      | directory node children =>
          rw [List.cons_append, resolve, resolve]
          cases children.find name with
          | none => rfl
          | some child =>
              rw [Option.bind_some, Option.bind_some]
              split
              next => rfl
              next => exact ih child

theorem Children.sizeOf_find {children : Children} {name : Bytes} {item : Item}
    (h : children.find name = some item) : sizeOf item ≤ sizeOf children := by
  induction children with
  | empty => cases h
  | file node id rest ih =>
      rw [find] at h
      split at h
      next =>
        cases h
        simp
      next =>
        have hrest := ih h
        simp only [Children.file.sizeOf_spec]
        omega
  | directory node children rest _ ih =>
      rw [find] at h
      split at h
      next =>
        cases h
        simp
      next =>
        have hrest := ih h
        simp only [Children.directory.sizeOf_spec]
        omega

theorem Item.sizeOf_resolve {item found : Item} {names : List Bytes}
    (h : item.resolve names = some found) : sizeOf found + names.length ≤ sizeOf item := by
  induction names generalizing item with
  | nil =>
      cases h
      exact Nat.le_refl _
  | cons name names ih =>
      cases item with
      | file node id => cases h
      | directory node children =>
          rw [resolve, Option.bind_eq_some_iff] at h
          obtain ⟨child, hfind, hchild⟩ := h
          split at hchild
          next => cases hchild
          next =>
            have hbelow := ih hchild
            have hsize := Children.sizeOf_find hfind
            rw [List.length_cons, Item.directory.sizeOf_spec]
            omega

/-- No node is below itself. -/
theorem Item.resolve_ne {item : Item} {names : List Bytes} (h : names ≠ []) :
    item.resolve names ≠ some item := by
  intro hself
  have hsize := sizeOf_resolve hself
  have hlength := List.length_pos_iff.2 h
  omega

/-! ## Which paths are followed -/

/-- What the walk does to the node it looks up, at its names. -/
theorem follows_of_lookup {root : Item} {path : Bytes} (names : walkedNames path = components path)
    (found : root.lookup path = root.resolve (components path)) : Follows root path := by
  intro α fn keeps
  rcases root.queryNode_at keeps path with ⟨hlook, hfn⟩ | ⟨item, hlook, hfn, hreplaced⟩
  · rw [← found, hlook]
    exact hfn
  · rw [← found, hlook]
    exact ⟨hfn, names ▸ hreplaced⟩

theorem Follows.lookup {root : Item} {path : Bytes} (h : Follows root path) :
    root.lookup path = root.resolve (components path) := by
  have hlook := h Item look fun _ => rfl
  cases hresolve : root.resolve (components path) with
  | none =>
      rw [hresolve] at hlook
      rw [Item.lookup, hlook]
  | some item =>
      rw [hresolve] at hlook
      exact hlook.1

/-- A path leads by its components exactly if these are the names of the walk and it does
not lead to a file with a slash behind it, or they are not and the names of the walk lead
to no directory. -/
theorem follows_iff (node : Node) (children : Children) (path : Bytes) :
    Follows (.directory node children) path ↔
      if walkedNames path = components path then
        (pieces path).getLast? = some [] →
          ∀ item ∈ (Item.directory node children).resolve (components path), item.isDir = true
      else
        ∀ item ∈ (Item.directory node children).resolve (walkedNames path), item.isDir = false := by
  have hwalk := (Item.directory node children).lookup_walk path
  split
  next hnames =>
    rw [hnames] at hwalk
    constructor
    · intro h hslash item hitem
      rw [h.lookup, hitem, (walkEnded_iff hnames).2 hslash, eq_comm,
        Option.filter_eq_some_iff] at hwalk
      exact hwalk.2
    · intro h
      refine follows_of_lookup hnames (hwalk.trans ?_)
      cases hresolve : (Item.directory node children).resolve (components path) with
      | none => rfl
      | some item =>
          rw [Option.filter_eq_some_iff]
          refine ⟨rfl, ?_⟩
          cases hended : walkEnded (pieces path) with
          | false => rfl
          | true => exact h ((walkEnded_iff hnames).1 hended) item hresolve
  next hnames =>
    have hended : walkEnded (pieces path) = true := walkEnded_of_ne hnames
    obtain ⟨rest, hrest⟩ := walkPieces_prefix (pieces path)
    have hmore : rest ≠ [] := by
      rintro rfl
      exact hnames ((List.append_nil _).symm.trans hrest)
    have hbelow := (Item.directory node children).resolve_append (walkedNames path) rest
    rw [show walkedNames path ++ rest = components path from hrest] at hbelow
    rw [hended] at hwalk
    constructor
    · intro h item hitem
      cases hdir : item.isDir with
      | false => rfl
      | true =>
          -- the walk ends here, and the components lead below
          rw [hitem, Option.filter_some, hdir, h.lookup, hbelow, hitem] at hwalk
          exact absurd hwalk (Item.resolve_ne hmore)
    · intro h α fn keeps
      have hnone : (Item.directory node children).resolve (components path) = none := by
        rw [hbelow]
        cases hresolve : (Item.directory node children).resolve (walkedNames path) with
        | none => rfl
        | some item =>
            obtain ⟨name, names, rfl⟩ := List.exists_cons_of_ne_nil hmore
            have hfile := h item hresolve
            cases item with
            | file fileNode id => rfl
            | directory dirNode dirs => cases hfile
      have hlost : (Item.directory node children).lookup path = none := by
        rw [hwalk, Option.filter_eq_none_iff]
        intro item hitem
        simp [h item hitem]
      rw [hnone]
      rcases (Item.directory node children).queryNode_at keeps path with ⟨-, hfn⟩ | ⟨item, hlook, -⟩
      · exact hfn
      · rw [hlost] at hlook
        cases hlook

/-- A directory `d` with a file `f`. -/
def nested : Children :=
  .directory { name := [100] } (.file { name := [102] } 7 .empty) .empty

/-- `d///f` leads to `d`. -/
theorem slashes_lead_to_parent :
    ¬ ∀ (node : Node) (children : Children) (path : Bytes),
      Follows (.directory node children) path := by
  intro h
  have hlook := (h {} nested [100, 47, 47, 47, 102]).lookup
  have hother : (Item.directory {} nested).lookup [100, 47, 47, 47, 102] ≠
      (Item.directory {} nested).resolve (components [100, 47, 47, 47, 102]) := by decide +kernel
  exact hother hlook

end Ofs.Master
