import Zookeeper.Ofs.NameMap
import Zookeeper.Transition

/-!
# The namespace over runs

A collection takes entries away with all below them, in the map as in the tree
(`Shows.collect`).  So the master and the map go together through any requests and collections
(`namespace_refines`).

A removed directory keeps what is in it.  Nothing below it is found, and nothing is put there.
If it is made again before a collection takes it, all is found again as it was
(`removed_comes_back`).
-/

namespace Ofs.Master

/-! ## Collections on the map -/

/-- A collection takes an entry: its time has passed, and it is no file that is used and no
directory with one in it itself. -/
def Collection.Takes (gc : Collection) (above : List Bytes) (map : List Bytes → Option Entry)
    (names : List Bytes) : Prop :=
  ∃ e ∈ map names, gc.due e.node = true ∧
    match e.file with
    | some _ => gc.used (above ++ names) = false
    | none => ∀ name, ∀ child ∈ map (names ++ [name]), child.file.isSome = true →
        gc.used (above ++ names ++ [name]) = false

/-- A collection of the map: what is taken is gone, with all below. -/
noncomputable def Names.collect (m : Names) (gc : Collection) : Names :=
  m.prune (gc.Takes [] m.entry)

namespace Children

/-- A pass keeps a child, with what it keeps below it. -/
def keptChild (gc : Collection) (way : List Node) : Item → Option Item
  | .file node id =>
      if gc.isUsed (way ++ [node]) = false ∧ gc.due node = true then none else some (.file node id)
  | .directory node children =>
      if gc.due node = true ∧ children.holdsUsed gc (way ++ [node]) = false then none
      else some (.directory node (children.kept gc (way ++ [node])))

theorem kept_before (gc : Collection) (way : List Node) (item : Item) (rest : Children) :
    (item.before rest).kept gc way =
      match keptChild gc way item with
      | none => rest.kept gc way
      | some item => item.before (rest.kept gc way) := by
  cases item with
  | file node id =>
      rw [Item.before, kept_file, keptChild]
      split <;> rfl
  | directory node children =>
      rw [Item.before, kept_directory, keptChild]
      split <;> rfl

theorem name_keptChild {gc : Collection} {way : List Node} {item item' : Item}
    (h : keptChild gc way item = some item') : item'.node = item.node := by
  cases item with
  | file node id =>
      rw [keptChild] at h
      split at h <;> cases h
      rfl
  | directory node children =>
      rw [keptChild] at h
      split at h <;> cases h
      rfl

theorem find_kept (gc : Collection) (way : List Node) {children : Children}
    (distinct : children.distinct = true) (name : Bytes) :
    (children.kept gc way).find name = (children.find name).bind (keptChild gc way) := by
  induction children using siblings with
  | empty => rfl
  | before item rest ih =>
      rw [distinct_before, Bool.and_eq_true, Bool.and_eq_true,
        Option.isNone_iff_eq_none] at distinct
      rw [kept_before, find_before]
      cases hkept : keptChild gc way item with
      | none =>
          by_cases hname : item.node.name = name
          · rw [if_pos hname, Option.bind_some, hkept]
            rw [ih distinct.2, ← hname, distinct.1.1]
            rfl
          · rw [if_neg hname]
            exact ih distinct.2
      | some item' =>
          rw [find_before, name_keptChild hkept]
          by_cases hname : item.node.name = name
          · rw [if_pos hname, if_pos hname, Option.bind_some, hkept]
          · rw [if_neg hname, if_neg hname]
            exact ih distinct.2

theorem holdsUsed_iff (gc : Collection) (way : List Node) {children : Children}
    (distinct : children.distinct = true) :
    children.holdsUsed gc way = false ↔
      ∀ name, ∀ child ∈ children.find name, child.isDir = false →
        gc.used (way.map Node.name ++ [name]) = false := by
  induction children using siblings with
  | empty => exact iff_of_true rfl fun name child h => by cases h
  | before item rest ih =>
      rw [distinct_before, Bool.and_eq_true, Bool.and_eq_true,
        Option.isNone_iff_eq_none] at distinct
      have hitem : (item.before rest).holdsUsed gc way = false ↔
          (item.isDir = false → gc.used (way.map Node.name ++ [item.node.name]) = false) ∧
            rest.holdsUsed gc way = false := by
        cases item <;> simp [Item.before, holdsUsed, Item.isDir, Collection.isUsed, Item.node]
      rw [hitem, ih distinct.2]
      constructor
      · rintro ⟨hfirst, hrest⟩ name child hchild hfile
        rw [find_before] at hchild
        split at hchild
        next hname =>
          cases hchild
          exact hname ▸ hfirst hfile
        next => exact hrest name child hchild hfile
      · intro h
        refine ⟨fun hfile => h _ item ?_ hfile,
          fun name child hchild hfile => h name child ?_ hfile⟩
        · rw [find_before, if_pos rfl]
          rfl
        · rw [find_before, if_neg]
          · exact hchild
          · rintro rfl
            rw [distinct.1.1] at hchild
            cases hchild

end Children

/-- A pass leaves a child exactly if it does not take its entry. -/
theorem Children.keptChild_eq_none (gc : Collection) (way : List Node) (node : Node)
    {children : Children} {name : Bytes} {child : Item} (distinct : child.distinct = true)
    (hfind : children.find name = some child) :
    keptChild gc way child = none ↔
      gc.Takes (way.map Node.name) (Item.directory node children).entryAt [name] := by
  have hname := Children.name_find hfind
  have hplace : (Item.directory node children).entryAt [name] = some child.entry := by
    rw [Item.entryAt_cons, hfind]
    rfl
  rw [Collection.Takes, hplace]
  simp only [Option.mem_some_iff, exists_eq_left', Item.node_entry]
  cases child with
  | file fileNode id =>
      obtain rfl := hname
      simp [keptChild, Item.entry, Item.node, Collection.isUsed, and_comm]
  | directory dirNode dirs =>
      obtain rfl : dirNode.name = name := hname
      rw [keptChild, ite_eq_left_iff]
      simp only [reduceCtorEq, imp_false, not_not, Item.node, Item.entry]
      refine and_congr_right fun _ => ?_
      rw [Children.holdsUsed_iff gc _ distinct]
      refine forall_congr' fun n => ?_
      have hbelow : (Item.directory node children).entryAt ([dirNode.name] ++ [n]) =
          (dirs.find n).map Item.entry := by
        rw [List.singleton_append, Item.entryAt_cons, hfind, Option.bind_some, Item.entryAt_cons]
        cases dirs.find n <;> rfl
      rw [hbelow]
      cases dirs.find n with
      | none => simp
      | some found => cases found <;> simp [Item.entry, Item.isDir, Item.node]

/-- What is taken below a directory. -/
theorem Collection.takes_cons (gc : Collection) (above : List Bytes) {node : Node}
    {children : Children} {name : Bytes} {child : Item} (hfind : children.find name = some child)
    (names : List Bytes) :
    gc.Takes above (Item.directory node children).entryAt (name :: names) ↔
      gc.Takes (above ++ [name]) child.entryAt names := by
  simp only [Takes, Item.entryAt_cons, List.cons_append, hfind, Option.bind_some, List.append_assoc,
    List.nil_append]

open Classical in
/-- What a pass leaves in a directory. -/
theorem Children.entryAt_kept (gc : Collection) (node : Node) (names : List Bytes) (way : List Node)
    {children : Children} (distinct : children.distinct = true) :
    (Item.directory node (children.kept gc way)).entryAt names =
      if PathMap.Marked (gc.Takes (way.map Node.name) (Item.directory node children).entryAt) names
      then none else (Item.directory node children).entryAt names := by
  induction names generalizing node way children with
  | nil =>
      rw [if_neg PathMap.not_marked_nil]
      rfl
  | cons name names ih =>
      rw [Item.entryAt_cons, Item.entryAt_cons, find_kept gc way distinct, PathMap.marked_cons]
      cases hfind : children.find name with
      | none => simp
      | some child =>
          have hdistinct := distinct_find distinct hfind
          have htaken := keptChild_eq_none gc way node hdistinct hfind
          simp only [Option.bind_some, ← htaken, Collection.takes_cons gc _ hfind]
          cases child with
          | file fileNode id =>
              cases hkept : keptChild gc way (.file fileNode id) with
              | none => simp
              | some item =>
                  rw [keptChild] at hkept
                  split at hkept <;> cases hkept
                  cases names with
                  | nil => simp [PathMap.not_marked_nil]
                  | cons n ns => simp [Item.entryAt_file]
          | directory dirNode dirs =>
              cases hkept : keptChild gc way (.directory dirNode dirs) with
              | none => simp
              | some item =>
                  rw [keptChild] at hkept
                  split at hkept <;> cases hkept
                  obtain rfl : dirNode.name = name := name_find hfind
                  rw [Option.bind_some, ih dirNode (way ++ [dirNode]) hdistinct, List.map_append,
                    List.map_singleton]
                  simp

theorem Children.distinct_kept (gc : Collection) (way : List Node) {children : Children}
    (distinct : children.distinct = true) : (children.kept gc way).distinct = true := by
  induction children generalizing way with
  | empty => rfl
  | file node id rest ih =>
      rw [Children.distinct, Bool.and_eq_true, Option.isNone_iff_eq_none] at distinct
      rw [kept_file]
      split
      next => exact ih way distinct.2
      next =>
        rw [Children.distinct, Bool.and_eq_true, find_kept gc way distinct.2, distinct.1]
        exact ⟨rfl, ih way distinct.2⟩
  | directory node children rest ihChildren ihRest =>
      rw [Children.distinct, Bool.and_eq_true, Bool.and_eq_true,
        Option.isNone_iff_eq_none] at distinct
      rw [kept_directory]
      split
      next => exact ihRest way distinct.2
      next =>
        rw [Children.distinct, Bool.and_eq_true, Bool.and_eq_true, find_kept gc way distinct.2,
          distinct.1.1]
        exact ⟨⟨rfl, ihChildren _ distinct.1.2⟩, ihRest way distinct.2⟩

/-- A pass does to the map what it does to the tree. -/
theorem State.Shows.collect {s : State} {t : NameState} (h : s.Shows t) (gc : Collection) :
    { s with root := s.root.startGC gc : State }.Shows { t with names := t.names.collect gc } := by
  obtain ⟨hdir, hnames, hblocks, hdistinct⟩ := h
  cases hroot : s.root with
  | file node id =>
      rw [hroot] at hdir
      cases hdir
  | directory node children =>
      simp only [hroot] at hdir hnames hdistinct
      refine ⟨rfl, ?_, hblocks, Children.distinct_kept gc [] hdistinct⟩
      rw [hnames]
      exact PathMap.ext fun names =>
        (PathMap.entry_prune names).trans (Children.entryAt_kept gc node names [] hdistinct).symm

/-! ## Runs -/

/-- What happens to the namespace: a request with its response, or a collection. -/
inductive NameAct where
  | serve (c : Call) (response : Response)
  | collect (gc : Collection)

/-- A step of the master. -/
def State.Step (settings : Settings) (s : State) : NameAct → State → Prop
  | .serve c response, s' => s.serve settings c.user c.outside c.request = (s', response)
  | .collect gc, s' => s' = { s with root := s.root.startGC gc }

/-- A step of the map. -/
def NameState.Step (settings : Settings) (s : NameState) : NameAct → NameState → Prop
  | .serve c response, s' => s.Serves settings c response s'
  | .collect gc, s' => s' = { s with names := s.names.collect gc }

theorem State.Shows.step (settings : Settings) (s : State) (a : NameAct) (s' : State)
    (t : NameState) (h : s.Shows t) (hstep : s.Step settings a s') :
    ∃ t', t.Step settings a t' ∧ s'.Shows t' := by
  cases a with
  | serve c response =>
      obtain ⟨t', hserves, hshows⟩ := h.serve settings c
      rw [State.Step] at hstep
      rw [hstep] at hserves hshows
      exact ⟨t', hserves, hshows⟩
  | collect gc =>
      cases hstep
      exact ⟨_, rfl, h.collect gc⟩

/-- Whatever is asked and collected in whatever order, the map answers as the master does, and
the master shows what is in the map. -/
theorem namespace_refines (settings : Settings) {s s' : State} {t : NameState} {as : List NameAct}
    (h : s.Shows t) (hsteps : Transition.Steps (State.Step settings) s as s') :
    ∃ t', Transition.Steps (NameState.Step settings) t as t' ∧ s'.Shows t' :=
  hsteps.simulate (State.Shows.step settings) h

/-- The state a request leaves behind. -/
def State.after (s : State) (c : Call) : State := (s.serve oneServer c.user c.outside c.request).1

theorem State.step_after {s : State} {c : Call} {response : Response}
    (h : (s.serve oneServer c.user c.outside c.request).2 = response) :
    s.Step oneServer (.serve c response) (s.after c) := Prod.ext rfl h

/-- `root` asks for something. -/
def asked (request : Request) (now : Nat) : Call := ⟨superUser, request, atTime now⟩

/-- A pass that takes what was removed more than a hundred before. -/
def passAt (now : Int64) : Collection := { now := now, expire := 100, used := fun _ => false }

/-- A directory `d` with a file `f`. -/
def madeDirectory : State :=
  ((⟨freshRoot 0, []⟩ : State).after (asked (.makeDir [] [100] 511) 1)).after
    (asked (.create [47, 100] [102] 511) 2)

def removedDirectory : State := madeDirectory.after (asked (.remove [47, 100]) 3)

/-- `d` is collected, and a new one has no `f`. -/
theorem namespace_refines_collected :
    ∃ t', Transition.Steps (NameState.Step oneServer) ⟨removedDirectory.root.names rfl, []⟩
        [.collect (passAt 200), .serve (asked (.makeDir [] [100] 511) 201) { errCode := .none },
          .serve (asked (.status [47, 100, 47, 102]) 202) { errCode := .fileNotExist }] t' ∧
      ({ removedDirectory with root := removedDirectory.root.startGC (passAt 200) }.after
        (asked (.makeDir [] [100] 511) 201)).Shows t' :=
  namespace_refines oneServer ⟨rfl, rfl, rfl, by decide +kernel⟩
    (.cons rfl (.cons (State.step_after (by decide +kernel))
      (.cons (State.step_after (by decide +kernel)) .nil)))

/-! ## Removed and made again -/

theorem Names.live_of_find {m : Names} {path : Bytes} {e : Entry} (h : m.find path = some e) :
    m.Live Entry.Kept (walkedNames path) := by
  rw [find] at h
  split at h
  next hlive => exact hlive
  next => cases h

section

variable {m : Names} {names p : List Bytes} {user : User} {now id : Int64}

theorem Names.createAt_other {name : Bytes} {authority : Int16} {dir : Bool}
    (hp : p ≠ names ++ [name]) :
    (m.createAt user names name authority dir now id).2.entry p = m.entry p := by
  cases hplace : m.entry names with
  | none =>
      rw [createAt]
      split
      next => rfl
      next e he => rw [hplace] at he; cases he
  | some e =>
      by_cases hdir : e.file = none
      · cases hmay : e.node.checkAuthority user false with
        | false => rw [createAt_denied hplace hdir hmay]
        | true =>
            cases hchild : m.entry (names ++ [name]) with
            | none => rw [createAt_free hplace hdir hmay hchild, PathMap.entry_add, if_neg hp]
            | some child =>
                rw [createAt_there hplace hdir hmay hchild]
                split
                next =>
                  split
                  next => rw [PathMap.entry_alter, if_neg hp]
                  next => rfl
                next => rfl
      · rw [createAt_file hplace hdir]

theorem Names.removeAt_other (hp : p ≠ names) :
    (m.removeAt user names now).2.entry p = m.entry p := by
  rw [removeAt]
  split
  next => rfl
  next =>
    split
    next => rw [PathMap.entry_alter, if_neg hp]
    next => rfl

end

/-- The place a request makes a node at. -/
def Request.made : Request → Option (List Bytes)
  | .makeDir directory name _ | .create directory name _ =>
      some (walkedNames (cStr directory) ++ [cStr name])
  | _ => none

/-- A request changes one entry at most, at a place that is reached or that it makes in a
directory that is. -/
theorem NameState.Serves.changes {settings : Settings} {t t' : NameState} {c : Call}
    {response : Response} (h : t.Serves settings c response t') :
    ∃ place, (∀ p, p ≠ place → t'.names.entry p = t.names.entry p) ∧
      (t.names.Live Entry.Kept place ∨
        ∃ names name, place = names ++ [name] ∧ t.names.Live Entry.Kept names ∧
          c.request.made = some place) := by
  have hsame (hnames : t'.names = t.names) : ∃ place,
      (∀ p, p ≠ place → t'.names.entry p = t.names.entry p) ∧
      (t.names.Live Entry.Kept place ∨
        ∃ names name, place = names ++ [name] ∧ t.names.Live Entry.Kept names ∧
          c.request.made = some place) :=
    ⟨[], fun p _ => by rw [hnames], .inl PathMap.live_nil⟩
  have hcreate {directory name : Bytes} {authority : Int32} {dir : Bool}
      (hmade : c.request.made = some (walkedNames (cStr directory) ++ [cStr name]))
      (heq : (t', response) = t.create c.user c.outside directory name authority dir) : ∃ place,
      (∀ p, p ≠ place → t'.names.entry p = t.names.entry p) ∧
      (t.names.Live Entry.Kept place ∨
        ∃ names name, place = names ++ [name] ∧ t.names.Live Entry.Kept names ∧
          c.request.made = some place) := by
    rw [create] at heq
    split at heq
    next =>
      cases heq
      exact hsame rfl
    next e he =>
      cases heq
      exact ⟨_, fun p => Names.createAt_other, .inr ⟨_, _, rfl, Names.live_of_find he, hmade⟩⟩
  obtain ⟨user, request, outside⟩ := c
  cases request with
  | makeDir directory name authority => exact hcreate rfl h
  | create directory name authority => exact hcreate rfl h
  | remove path =>
      have heq : (t', response) = t.remove user outside path := h
      rw [remove] at heq
      split at heq
      next =>
        cases heq
        exact hsame rfl
      next e he =>
        cases heq
        exact ⟨_, fun p => Names.removeAt_other, .inl (Names.live_of_find he)⟩
  | list | status | read => exact hsame (by rw [h.1])
  | write | append =>
      cases h
      exact hsame rfl

/-- All below a place, down to some names, is there and not removed. -/
def Names.LiveBelow (m : Names) (place ms : List Bytes) : Prop :=
  ¬ PathMap.Marked (fun r => ∀ e ∈ m.entry (place ++ r), ¬ e.Kept) ms

theorem Names.live_append {m : Names} {place ms : List Bytes} :
    m.Live Entry.Kept (place ++ ms) ↔ m.Live Entry.Kept place ∧ m.LiveBelow place ms := by
  rw [PathMap.Live, PathMap.marked_append, not_or]
  rfl

/-- A removed place has what it had when it was removed, but for removed nodes that are
collected. -/
structure Names.Waits (place : List Bytes) (m m' : Names) : Prop where
  removed : ∀ e ∈ m.entry place, ¬ e.Kept
  there : m.entry place ≠ none
  same : m'.entry place = m.entry place
  below : ∀ ms, m'.entry (place ++ ms) = m.entry (place ++ ms) ∨
    m'.entry (place ++ ms) = none ∧ ¬ m.LiveBelow place ms

/-- No request makes the place, and no collection comes when its time, or that of what is above
it, has passed. -/
def Patient (place : List Bytes) (s : State) : NameAct → Prop
  | .serve c _ => c.request.made ≠ some place
  | .collect gc => ∀ names name, names ++ [name] <+: place →
      ∀ e ∈ s.root.entryAt (names ++ [name]), gc.due e.node = false

section

variable {place : List Bytes} {m m' : Names}

/-- Nothing below it is reached. -/
theorem Names.Waits.not_live (h : m.Waits place m') (hne : place ≠ []) {p : List Bytes}
    (hp : place <+: p) : ¬ m'.Live Entry.Kept p := by
  intro hlive
  obtain ⟨ms, rfl⟩ := hp
  obtain ⟨e, he, hkept⟩ := hlive.of_append.last hne
  exact h.removed e (h.same ▸ he) hkept

theorem Names.Waits.serve (hne : place ≠ []) {settings : Settings} {t t' : NameState} {c : Call}
    {response : Response} (h : m.Waits place t.names) (hmade : c.request.made ≠ some place)
    (hserves : t.Serves settings c response t') : m.Waits place t'.names := by
  obtain ⟨changed, hother, hreached⟩ := hserves.changes
  have hapart (ms : List Bytes) : place ++ ms ≠ changed := by
    rintro rfl
    rcases hreached with hlive | ⟨names, name, heq, hlive, hmakes⟩
    · exact h.not_live hne (List.prefix_append _ _) hlive
    · rcases List.prefix_concat_iff.1 (heq ▸ List.prefix_append place ms) with hplace | hplace
      · exact hmade (by rw [hmakes, heq, ← hplace])
      · exact h.not_live hne hplace hlive
  have hsame := hapart []
  rw [List.append_nil] at hsame
  refine ⟨h.removed, h.there, (hother _ hsame).trans h.same, fun ms => ?_⟩
  rw [hother _ (hapart ms)]
  exact h.below ms

theorem Names.Waits.collect {gc : Collection} (h : m.Waits place m')
    (hpatient : ∀ names name, names ++ [name] <+: place →
      ∀ e ∈ m'.entry (names ++ [name]), gc.due e.node = false) :
    m.Waits place (m'.collect gc) := by
  have hplace : ¬ PathMap.Marked (gc.Takes [] m'.entry) place := by
    rintro ⟨names, name, hprefix, e, he, hdue, -⟩
    rw [hpatient names name hprefix e he] at hdue
    cases hdue
  refine ⟨h.removed, h.there, ?_, fun ms => ?_⟩
  · rw [Names.collect, PathMap.entry_prune, if_neg hplace]
    exact h.same
  · rw [Names.collect, PathMap.entry_prune]
    split
    next hmarked =>
      rcases PathMap.marked_append.1 hmarked with habove | ⟨r, name, hprefix, e, he, hdue, -⟩
      · exact absurd habove hplace
      · -- what is taken was removed, so nothing below it is reached
        refine .inr ⟨rfl, fun hlive => hlive ⟨r, name, hprefix, fun e' he' hkept => ?_⟩⟩
        rcases h.below (r ++ [name]) with hsame | ⟨hnone, -⟩
        · rw [← hsame, he] at he'
          cases he'
          rw [Collection.due, hkept] at hdue
          cases hdue
        · rw [hnone] at he
          cases he
    next => exact h.below ms

theorem Names.Waits.step (hne : place ≠ []) {settings : Settings} {s s' : State} {t : NameState}
    {a : NameAct} (hshows : s.Shows t) (h : m.Waits place t.names) (hpatient : Patient place s a)
    (hstep : s.Step settings a s') : ∃ t', s'.Shows t' ∧ m.Waits place t'.names := by
  obtain ⟨t', ht', hshows'⟩ := State.Shows.step settings s a s' t hshows hstep
  refine ⟨t', hshows', ?_⟩
  cases a with
  | serve c response => exact h.serve hne hpatient ht'
  | collect gc =>
      cases ht'
      refine h.collect ?_
      rw [hshows.names]
      exact hpatient

end

section

variable {m m' : Names} {place : List Bytes}

theorem Names.LiveBelow.of_prefix {r ms : List Bytes} (h : m.LiveBelow place ms) (hr : r <+: ms) :
    m.LiveBelow place r := by
  obtain ⟨rest, rfl⟩ := hr
  exact fun hmarked => h (hmarked.append rest)

theorem Names.liveBelow_congr {ms : List Bytes}
    (h : ∀ r, r ≠ [] → m'.entry (place ++ r) = m.entry (place ++ r)) :
    m'.LiveBelow place ms ↔ m.LiveBelow place ms := by
  refine not_congr (PathMap.marked_congr fun r name _ => ?_)
  rw [h _ (List.append_ne_nil_of_right_ne_nil r (List.cons_ne_nil name []))]

/-- What is reached below the place by itself is the same as before. -/
theorem Names.Waits.liveBelow (h : m.Waits place m') {ms : List Bytes} :
    m'.LiveBelow place ms ↔ m.LiveBelow place ms := by
  constructor
  · intro hlive hmarked
    obtain ⟨r, name, hr, hgone⟩ := hmarked
    refine hlive ⟨r, name, hr, fun e he => ?_⟩
    rcases h.below (r ++ [name]) with hsame | ⟨hnone, -⟩
    · exact hgone e (hsame ▸ he)
    · rw [hnone] at he
      cases he
  · intro hlive hmarked
    obtain ⟨r, name, hr, hgone⟩ := hmarked
    rcases h.below (r ++ [name]) with hsame | ⟨-, hdead⟩
    · exact hlive ⟨r, name, hr, fun e he => hgone e (hsame ▸ he)⟩
    · exact hdead (hlive.of_prefix hr)

theorem Names.Waits.entry (h : m.Waits place m') {ms : List Bytes} (hlive : m.LiveBelow place ms) :
    m'.entry (place ++ ms) = m.entry (place ++ ms) :=
  (h.below ms).resolve_right fun hnone => hnone.2 hlive

/-- What a removal that succeeds does. -/
theorem NameState.remove_none {t t' : NameState} {user : User} {outside : Outside} {path : Bytes}
    (h : (t', { errCode := .none }) = t.remove user outside path) :
    t.names.Live Entry.Kept (walkedNames (cStr path)) ∧
      ∀ p, t'.names.entry p = if p = walkedNames (cStr path) then
        (t.names.entry p).map (Entry.modify fun node => node.markDelete (Int64.ofNat outside.now))
        else t.names.entry p := by
  rw [NameState.remove] at h
  split at h
  next => cases h
  next e he =>
    refine ⟨Names.live_of_find he, fun p => ?_⟩
    simp only [Names.removeAt, Names.entry_of_find he] at h
    split at h
    next =>
      cases h
      rfl
    next => cases h

/-- What a creation that succeeds does where a removed node is. -/
theorem NameState.create_none {t t' : NameState} {user : User} {outside : Outside}
    {directory name : Bytes} {authority : Int32} {kind : Bool} {place : List Bytes}
    (h : (t', { errCode := .none }) = t.create user outside directory name authority kind)
    (hplace : walkedNames (cStr directory) ++ [cStr name] = place)
    (hthere : t.names.entry place ≠ none) :
    t.names.Live Entry.Kept (walkedNames (cStr directory)) ∧
      ∀ p, t'.names.entry p = if p = place then (t.names.entry p).map (Entry.modify Node.recover)
        else t.names.entry p := by
  subst hplace
  rw [NameState.create] at h
  split at h
  next => cases h
  next e he =>
    refine ⟨Names.live_of_find he, fun p => ?_⟩
    have hdirectory := Names.entry_of_find he
    obtain ⟨child, hchild⟩ := Option.ne_none_iff_exists'.1 hthere
    obtain ⟨d, hd, hdir⟩ := t.names.above hchild
    cases hdirectory.symm.trans hd
    cases hmay : e.node.checkAuthority user false with
    | false =>
        rw [Names.createAt_denied hdirectory hdir hmay] at h
        cases h
    | true =>
        rw [Names.createAt_there hdirectory hdir hmay hchild] at h
        split at h
        next =>
          split at h
          next =>
            cases h
            rfl
          next => cases h
        next => cases h

end

/-- A directory that is removed, and made again before a collection takes it, has all that was
found in it.  It is itself as it was, but for the time of its removal. -/
theorem removed_comes_back (settings : Settings) {s₀ s₁ s₂ s₃ : State} (dir : s₀.root.isDir = true)
    (distinct : s₀.root.distinct = true) {user maker : User} {outside outside' : Outside}
    {path directory name : Bytes} {authority : Int32} {kind : Bool} {as : List NameAct}
    (hremove : s₀.serve settings user outside (.remove path) = (s₁, { errCode := .none }))
    (hsteps : Transition.Steps (fun s a s' => Patient (walkedNames (cStr path)) s a ∧
      s.Step settings a s') s₁ as s₂)
    (hplace : walkedNames (cStr directory) ++ [cStr name] = walkedNames (cStr path))
    (hmake : s₂.create maker outside' directory name authority kind = (s₃, { errCode := .none })) :
    (s₃.root.entryAt (walkedNames (cStr path)) =
        (s₀.root.entryAt (walkedNames (cStr path))).map
          (Entry.modify fun node => { node with deleteTick := Int64.ofNat outside.now })) ∧
      ∀ p, walkedNames (cStr path) <+: walkedNames p → walkedNames p ≠ walkedNames (cStr path) →
        (s₃.root.lookup p).map Item.entry = (s₀.root.lookup p).map Item.entry := by
  have hshows₀ : s₀.Shows ⟨s₀.root.names dir, s₀.blocks⟩ := ⟨dir, rfl, rfl, distinct⟩
  generalize hat : walkedNames (cStr path) = place at hsteps hplace ⊢
  have hne : place ≠ [] := hplace ▸ List.append_ne_nil_of_right_ne_nil _ (List.cons_ne_nil _ [])
  -- the removal
  obtain ⟨t₁, hremoved, hshows₁⟩ := hshows₀.remove settings user outside path
  rw [hremove] at hremoved hshows₁
  obtain ⟨hlive₀, hentry₁⟩ := NameState.remove_none hremoved
  rw [hat] at hlive₀ hentry₁
  obtain ⟨e, he, hkept⟩ := hlive₀.last hne
  have hthere₁ : t₁.names.entry place =
      some (e.modify fun node => node.markDelete (Int64.ofNat outside.now)) := by
    rw [hentry₁, if_pos rfl, Option.mem_def.1 he]
    rfl
  have hwaits₁ : t₁.names.Waits place t₁.names := by
    refine ⟨?_, by simp [hthere₁], rfl, fun ms => .inl rfl⟩
    rw [hthere₁]
    rintro _ ⟨⟩ hkept'
    cases hkept'
  -- the time between
  obtain ⟨t₂, hshows₂, hwaits₂⟩ := hsteps.invariant
    (I := fun s => ∃ t : NameState, s.Shows t ∧ t₁.names.Waits place t.names)
    (fun s a s' ⟨t, hshows, hwaits⟩ hstep => hwaits.step hne hshows hstep.1 hstep.2)
    ⟨t₁, hshows₁, hwaits₁⟩
  -- the creation
  obtain ⟨t₃, hmade, hshows₃⟩ := hshows₂.create maker outside' directory name authority kind
  rw [hmake] at hmade hshows₃
  have hthere₂ : t₂.names.entry place ≠ none := hwaits₂.same ▸ hwaits₂.there
  obtain ⟨hlive₂, hentry₃⟩ := NameState.create_none hmade hplace hthere₂
  have hthere₃ : t₃.names.entry place =
      some (e.modify fun node => { node with deleteTick := Int64.ofNat outside.now }) := by
    rw [hentry₃, if_pos rfl, hwaits₂.same, hthere₁]
    obtain ⟨⟨⟩, file⟩ := e
    cases hkept
    rfl
  refine ⟨?_, fun p hp hbelow => ?_⟩
  · rw [← hshows₃.entry, hthere₃, ← hshows₀.entry, Option.mem_def.1 he]
    rfl
  · have hlive₃ : t₃.names.Live Entry.Kept place := by
      rw [← hplace, PathMap.live_concat, hplace]
      refine ⟨?_, _, hthere₃, hkept⟩
      refine (PathMap.live_congr fun q k hq => ?_).2 hlive₂
      rw [hentry₃, if_neg]
      rintro rfl
      have hlength := hq.length_le
      rw [← hplace, List.length_append] at hlength
      simp at hlength
    have hrest (r : List Bytes) (hr : r ≠ []) : place ++ r ≠ place := by simpa using hr
    have hfirst (r : List Bytes) (hr : r ≠ []) :
        t₁.names.entry (place ++ r) = (s₀.root.names dir).entry (place ++ r) := by
      rw [hentry₁, if_neg (hrest r hr)]
    have hlast (r : List Bytes) (hr : r ≠ []) :
        t₃.names.entry (place ++ r) = t₂.names.entry (place ++ r) := by
      rw [hentry₃, if_neg (hrest r hr)]
    have hfound : t₃.names.find p = (s₀.root.names dir).find p := by
      obtain ⟨ms, hms⟩ := hp
      have hmore : ms ≠ [] := by
        rintro rfl
        exact hbelow (by rw [← hms, List.append_nil])
      have hbetween : t₃.names.LiveBelow place ms ↔ (s₀.root.names dir).LiveBelow place ms :=
        (Names.liveBelow_congr hlast).trans (hwaits₂.liveBelow.trans (Names.liveBelow_congr hfirst))
      have hreached : t₃.names.Live Entry.Kept (place ++ ms) ↔
          (s₀.root.names dir).Live Entry.Kept (place ++ ms) := by
        rw [Names.live_append, Names.live_append, and_iff_right hlive₃, and_iff_right hlive₀,
          hbetween]
      rw [Names.find, Names.find, ← hms]
      by_cases hlive : (s₀.root.names dir).Live Entry.Kept (place ++ ms)
      · have hbelow₁ := (Names.liveBelow_congr hfirst).2 (Names.live_append.1 hlive).2
        rw [if_pos (hreached.2 hlive), if_pos hlive, hlast ms hmore, hwaits₂.entry hbelow₁,
          hfirst ms hmore]
      · rw [if_neg (mt hreached.1 hlive), if_neg hlive]
    rw [hshows₃.names] at hfound
    rw [Item.lookup_entry hshows₃.dir, hfound, Item.lookup_entry dir]

/-- `d` is made again behind a request and a pass, and `f` is there. -/
theorem removed_comes_back_once :
    ((removedDirectory.after (asked (.makeDir [] [100] 511) 60)).root.lookup
        [47, 100, 47, 102]).map Item.entry =
      (madeDirectory.root.lookup [47, 100, 47, 102]).map Item.entry ∧
    (madeDirectory.root.lookup [47, 100, 47, 102]).isSome = true := by
  have hremove : madeDirectory.serve oneServer superUser (atTime 3) (.remove [47, 100]) =
      (removedDirectory, { errCode := .none }) := Prod.ext rfl (by decide +kernel)
  have hmake : removedDirectory.create superUser (atTime 60) [] [100] 511 true =
      (removedDirectory.after (asked (.makeDir [] [100] 511) 60), { errCode := .none }) :=
    Prod.ext rfl (by decide +kernel)
  have hpass : removedDirectory =
      { removedDirectory with root := removedDirectory.root.startGC (passAt 50) } := by
    decide +kernel
  have hsteps : Transition.Steps (fun s a s' => Patient [[100]] s a ∧ s.Step oneServer a s')
      removedDirectory
      [.serve (asked (.status [47, 100, 47, 102]) 20) { errCode := .fileNotExist },
        .collect (passAt 50)] removedDirectory := by
    refine .cons ⟨fun h => ?_, State.step_after (by decide +kernel)⟩
      (.cons ⟨fun names name hprefix e he => ?_, hpass⟩ .nil)
    · cases h
    · have hlength := hprefix.length_le
      obtain rfl : names = [] := by
        cases names with
        | nil => rfl
        | cons n ns => simp at hlength
      obtain ⟨rfl, -⟩ := List.cons_prefix_cons.1 hprefix
      cases he
      decide +kernel
  refine ⟨(removed_comes_back oneServer (by decide +kernel) (by decide +kernel) hremove hsteps
    (by decide +kernel) hmake).2 [47, 100, 47, 102] ?_ ?_, by decide +kernel⟩
  · exact ⟨[[102]], by decide +kernel⟩
  · decide +kernel

end Ofs.Master
