import Zookeeper.Ofs.PathWalk

/-!
# Paths of the client

`Client::FindReal` (`ofs/client/OfsClient.cpp`) makes the absolute path of what a user
types: it puts the current path in front of a relative one, and goes through the components
with a stack, from which `..` takes one.  On an empty stack it returns the parent of the
current path instead, and leaves the remaining components out.

A path denotes the place that its components lead to, one after the other, where `..` stays
at the root.  `normalises_iff` says which paths come out as the place they denote.
-/

namespace Ofs.Client

open Ofs.Master (components pieces)

/-- `.`. -/
def dot : Bytes := [46]

/-- `..`. -/
def dotdot : Bytes := [46, 46]

/-- `Split` with the separator `/`. -/
def split (line : Bytes) : List Bytes := (line.splitOn 47).filter (· ≠ [])

/-- `Client::FindParentPathWithReal`. -/
def findParentPathWithReal (path : Bytes) : Bytes :=
  if 47 ∈ path then (path.reverse.dropWhile (· ≠ 47)).tail.reverse else path

/-- The loop over the components.  It ends early where `..` finds the stack empty. -/
def stackUnits : List Bytes → List Bytes → Option (List Bytes)
  | stack, [] => some stack
  | stack, str :: units =>
      if str = dotdot then
        if stack = [] then none else stackUnits stack.dropLast units
      else if str ≠ dot then stackUnits (stack ++ [str]) units
      else stackUnits stack units

/-- The components with a slash in front of each, or a slash alone. -/
def render (stack : List Bytes) : Bytes :=
  let ret := stack.flatMap fun str => 47 :: str
  if ret = [] then [47] else ret

/-- `Client::FindReal` of a path that begins with a slash. -/
def findAbsolute (currentPath path : Bytes) : Bytes :=
  match stackUnits [] (split path) with
  | none => findParentPathWithReal currentPath
  | some stack => render stack

/-- `Client::FindReal`.  It has no result for the empty path, which has no first byte, and
would not end with a current path that begins with another byte. -/
def findReal (currentPath path : Bytes) : Option Bytes :=
  if path = [] then none
  else if path.head? = some 47 then some (findAbsolute currentPath path)
  else if (currentPath ++ 47 :: path).head? = some 47 then
    some (findAbsolute currentPath (currentPath ++ 47 :: path))
  else none

/-- The current paths: the empty one at first, and then what `FindReal` returns. -/
inductive IsCurrent : Bytes → Prop where
  | start : IsCurrent []
  | found {currentPath path real : Bytes} : IsCurrent currentPath →
      findReal currentPath path = some real → IsCurrent real

/-! ## What a path denotes -/

/-- Going by components from a place, which is the list of names that lead to it. -/
def walk : List Bytes → List Bytes → List Bytes
  | place, [] => place
  | place, str :: units =>
      if str = dotdot then walk place.dropLast units
      else if str = dot then walk place units
      else walk (place ++ [str]) units

/-- A relative path starts from the current one. -/
def startOf (currentPath path : Bytes) : List Bytes :=
  if path.head? = some 47 then [] else components currentPath

def denotes (currentPath path : Bytes) : List Bytes :=
  walk (startOf currentPath path) (components path)

/-- What may be the components of a path, without `.` and `..`. -/
def AllNames (names : List Bytes) : Prop :=
  ∀ name ∈ names, name ≠ [] ∧ 47 ∉ name ∧ name ≠ dot ∧ name ≠ dotdot

/-- An absolute path, each of whose components is a name. -/
def IsReal (real : Bytes) : Prop := ∃ names, AllNames names ∧ real = render names

/-- `FindReal` makes a real path of the place that a path denotes, and of this the same. -/
def Normalises (currentPath path : Bytes) : Prop :=
  ∃ real, findReal currentPath path = some real ∧ IsReal real ∧
    components real = denotes currentPath path ∧ findReal currentPath real = some real

/-- Some beginning of the components has more `..` than there are names to leave. -/
def Climbs (place units : List Bytes) : Prop :=
  ∃ front, front <+: units ∧
    place.length + (front.filter fun str => str ≠ dotdot ∧ str ≠ dot).length < front.count dotdot

/-! ## The stack -/

theorem climbs_cons {place units : List Bytes} {str : Bytes} : Climbs place (str :: units) ↔
    ∃ front, front <+: units ∧
      place.length + ((str :: front).filter fun str => str ≠ dotdot ∧ str ≠ dot).length <
        (str :: front).count dotdot := by
  constructor
  · rintro ⟨front, hbegin, hlt⟩
    rcases List.prefix_cons_iff.1 hbegin with rfl | ⟨front, rfl, hrest⟩
    · exact absurd hlt (Nat.not_lt_zero _)
    · exact ⟨front, hrest, hlt⟩
  · rintro ⟨front, hbegin, hlt⟩
    exact ⟨str :: front, List.cons_prefix_cons.2 ⟨rfl, hbegin⟩, hlt⟩

theorem climbs_dotdot {place units : List Bytes} (hplace : place ≠ []) :
    Climbs place (dotdot :: units) ↔ Climbs place.dropLast units := by
  have hlength := List.length_pos_iff.2 hplace
  rw [climbs_cons, Climbs]
  refine exists_congr fun front => and_congr_right fun _ => ?_
  rw [List.filter_cons_of_neg (by simp), List.count_cons_self, List.length_dropLast]
  omega

theorem climbs_root (units : List Bytes) : Climbs [] (dotdot :: units) :=
  climbs_cons.2 ⟨[], List.nil_prefix, by decide⟩

theorem climbs_dot {place units : List Bytes} :
    Climbs place (dot :: units) ↔ Climbs place units := by
  rw [climbs_cons, Climbs]
  refine exists_congr fun front => and_congr_right fun _ => ?_
  rw [List.filter_cons_of_neg (by simp), List.count_cons_of_ne (by decide)]

theorem climbs_name {place units : List Bytes} {str : Bytes} (hup : str ≠ dotdot)
    (hdot : str ≠ dot) : Climbs place (str :: units) ↔ Climbs (place ++ [str]) units := by
  rw [climbs_cons, Climbs]
  refine exists_congr fun front => and_congr_right fun _ => ?_
  rw [List.filter_cons_of_pos (by simp [hup, hdot]), List.count_cons_of_ne hup, List.length_cons,
    List.length_append, List.length_singleton]
  omega

/-- The loop goes as the walk does until `..` is met on an empty stack. -/
theorem stackUnits_eq (stack units : List Bytes) :
    (Climbs stack units → stackUnits stack units = none) ∧
      (¬ Climbs stack units → stackUnits stack units = some (walk stack units)) := by
  induction units generalizing stack with
  | nil =>
      refine ⟨fun h => ?_, fun _ => rfl⟩
      obtain ⟨front, hbegin, hlt⟩ := h
      obtain rfl := List.prefix_nil.1 hbegin
      exact absurd hlt (Nat.not_lt_zero _)
  | cons str units ih =>
      rw [stackUnits, walk]
      split
      next hup =>
          subst hup
          split
          next hempty =>
              subst hempty
              exact ⟨fun _ => rfl, fun h => absurd (climbs_root units) h⟩
          next hstack =>
              rw [climbs_dotdot hstack]
              exact ih _
      next hup =>
          split
          next hname =>
              rw [climbs_name hup hname]
              exact ih _
          next hdot =>
              obtain rfl := not_not.1 hdot
              rw [climbs_dot]
              exact ih _

/-! ## Rendered paths -/

theorem components_append (path rest : Bytes) :
    components (path ++ 47 :: rest) = components path ++ components rest := by
  rw [components, pieces, List.splitOn_append_cons_self, List.filter_append]
  rfl

theorem components_slash (path : Bytes) : components (47 :: path) = components path :=
  components_append [] path

theorem components_name {name : Bytes} (hne : name ≠ []) (hslash : 47 ∉ name) :
    components name = [name] := by
  rw [components, pieces, List.splitOn_eq_singleton hslash]
  simp [hne]

/-- The components with a slash in front of each. -/
def slashed (names : List Bytes) : Bytes := names.flatMap fun name => 47 :: name

theorem render_eq (names : List Bytes) :
    render names = if slashed names = [] then [47] else slashed names := rfl

theorem components_slashed {names : List Bytes} (h : AllNames names) :
    components (slashed names) = names := by
  induction names with
  | nil => rfl
  | cons name names ih =>
      obtain ⟨hname, hnames⟩ := List.forall_mem_cons.1 h
      have hrest := ih hnames
      have hone := components_name hname.1 hname.2.1
      rw [slashed, List.flatMap_cons, List.cons_append, components_slash]
      cases names with
      | nil => rw [List.flatMap_nil, List.append_nil, hone]
      | cons next names =>
          rw [slashed, List.flatMap_cons, List.cons_append, components_slash] at hrest
          rw [List.flatMap_cons, List.cons_append, components_append, hrest, hone]
          rfl

theorem components_render {names : List Bytes} (h : AllNames names) :
    components (render names) = names := by
  have hslashed := components_slashed h
  rw [render_eq]
  split
  next hempty =>
      rw [hempty] at hslashed
      exact hslashed
  next => exact hslashed

theorem head?_render (names : List Bytes) : (render names).head? = some 47 := by
  rw [render_eq]
  cases names with
  | nil => rfl
  | cons name names => rfl

theorem render_ne_nil (names : List Bytes) : render names ≠ [] := by
  intro h
  have hhead := head?_render names
  rw [h] at hhead
  cases hhead

/-- The parent of a path with two components or more. -/
theorem findParent_slashed {names : List Bytes} {name : Bytes} (h : 47 ∉ name) :
    findParentPathWithReal (slashed (names ++ [name])) = slashed names := by
  have hsplit : slashed (names ++ [name]) = slashed names ++ 47 :: name := by
    rw [slashed, List.flatMap_append]
    simp [slashed]
  have hdrop : (name.reverse ++ 47 :: (slashed names).reverse).dropWhile (· ≠ 47) =
      47 :: (slashed names).reverse := by
    rw [List.dropWhile_append_of_pos]
    · rw [List.dropWhile_cons_of_neg (by simp)]
    · intro c hc
      have hne : c ≠ 47 := fun heq => h (heq ▸ List.mem_reverse.1 hc)
      simpa using hne
  rw [findParentPathWithReal, hsplit, if_pos (by simp), List.reverse_append, List.reverse_cons,
    List.append_assoc, List.singleton_append, hdrop, List.tail_cons, List.reverse_reverse]

theorem findParent_render {names : List Bytes} (h : AllNames names) :
    findParentPathWithReal (render names) =
      if 2 ≤ names.length then render names.dropLast else [] := by
  cases hlast : names.getLast? with
  | none =>
      obtain rfl := List.getLast?_eq_none_iff.1 hlast
      rfl
  | some name =>
      obtain ⟨front, rfl⟩ := List.getLast?_eq_some_iff.1 hlast
      have hslash := (h name (List.mem_append_right _ List.mem_cons_self)).2.1
      have hrender : render (front ++ [name]) = slashed (front ++ [name]) := by
        rw [render_eq, if_neg]
        simp [slashed]
      rw [hrender, findParent_slashed hslash, List.dropLast_concat, render_eq]
      cases front with
      | nil => rfl
      | cons first front =>
          rw [if_pos (by simp), if_neg]
          simp [slashed]

/-- The components of a path are not empty and have no slash. -/
theorem mem_components {path name : Bytes} (h : name ∈ components path) :
    name ≠ [] ∧ 47 ∉ name := by
  rw [components, List.mem_filter] at h
  refine ⟨of_decide_eq_true h.2, fun hmem => ?_⟩
  exact (Bytes.mem_splitOn.1 ⟨name, h.1, hmem⟩).2 rfl

/-- A walk leads to names only. -/
theorem allNames_walk {place units : List Bytes} (hplace : AllNames place)
    (hunits : ∀ name ∈ units, name ≠ [] ∧ 47 ∉ name) : AllNames (walk place units) := by
  induction units generalizing place with
  | nil => exact hplace
  | cons str units ih =>
      obtain ⟨hstr, hunits⟩ := List.forall_mem_cons.1 hunits
      rw [walk]
      split
      next => exact ih (fun name hname => hplace name (List.dropLast_subset _ hname)) hunits
      next hup =>
          split
          next => exact ih hplace hunits
          next hdot =>
              refine ih (fun name hname => ?_) hunits
              rcases List.mem_append.1 hname with hname | hname
              · exact hplace name hname
              · obtain rfl := List.mem_singleton.1 hname
                exact ⟨hstr.1, hstr.2, hdot, hup⟩

/-- Names are walked as they are. -/
theorem walk_names {place names : List Bytes} (h : AllNames names) :
    walk place names = place ++ names := by
  induction names generalizing place with
  | nil => rw [walk, List.append_nil]
  | cons name names ih =>
      obtain ⟨hname, hnames⟩ := List.forall_mem_cons.1 h
      rw [walk, if_neg hname.2.2.2, if_neg hname.2.2.1, ih hnames, List.append_assoc]
      rfl

theorem not_climbs_names {place names : List Bytes} (h : AllNames names) :
    ¬ Climbs place names := by
  rintro ⟨front, hbegin, hlt⟩
  have hcount : front.count dotdot = 0 :=
    List.count_eq_zero.2 fun hmem => (h dotdot (hbegin.subset hmem)).2.2.2 rfl
  omega

theorem walk_append (place units more : List Bytes) :
    walk place (units ++ more) = walk (walk place units) more := by
  induction units generalizing place with
  | nil => rfl
  | cons str units ih =>
      rw [List.cons_append, walk, walk]
      split
      next => exact ih _
      next => split <;> exact ih _

/-- Names in front are a place to start from. -/
theorem climbs_append {place names units : List Bytes} (h : AllNames names) :
    Climbs place (names ++ units) ↔ Climbs (place ++ names) units := by
  induction names generalizing place with
  | nil => rw [List.nil_append, List.append_nil]
  | cons name names ih =>
      obtain ⟨hname, hnames⟩ := List.forall_mem_cons.1 h
      rw [List.cons_append, climbs_name hname.2.2.2 hname.2.2.1, ih hnames, List.append_assoc]
      rfl

/-! ## The real path -/

section Current

variable {currentPath path : Bytes}

/-- An empty or a real path, as all current paths are. -/
def Shaped (path : Bytes) : Prop := path = [] ∨ IsReal path

theorem Shaped.allNames (h : Shaped path) : AllNames (components path) := by
  rcases h with rfl | ⟨names, hnames, rfl⟩
  · intro name hname
    cases hname
  · rw [components_render hnames]
    exact hnames

theorem findAbsolute_eq (currentPath path : Bytes) :
    (Climbs [] (components path) →
        findAbsolute currentPath path = findParentPathWithReal currentPath) ∧
      (¬ Climbs [] (components path) →
        findAbsolute currentPath path = render (walk [] (components path))) := by
  obtain ⟨hclimbs, hwalk⟩ := stackUnits_eq [] (components path)
  have hsplit : split path = components path := rfl
  constructor
  · intro h
    rw [findAbsolute, hsplit, hclimbs h]
  · intro h
    rw [findAbsolute, hsplit, hwalk h]

/-- From a current path, `FindReal` makes a path of what is denoted, if `..` is not met at
the root, and else takes the parent of the current path. -/
theorem findReal_eq (hcur : Shaped currentPath) (hpath : path ≠ []) :
    (Climbs (startOf currentPath path) (components path) →
        findReal currentPath path = some (findParentPathWithReal currentPath)) ∧
      (¬ Climbs (startOf currentPath path) (components path) →
        findReal currentPath path = some (render (denotes currentPath path))) := by
  rw [findReal, if_neg hpath, denotes, startOf]
  split
  next =>
      obtain ⟨hclimbs, hwalk⟩ := findAbsolute_eq currentPath path
      exact ⟨fun h => congrArg some (hclimbs h), fun h => congrArg some (hwalk h)⟩
  next =>
      have hhead : (currentPath ++ 47 :: path).head? = some 47 := by
        rcases hcur with rfl | ⟨names, -, rfl⟩
        · rfl
        · rw [List.head?_append, head?_render]
          rfl
      have hnames := hcur.allNames
      obtain ⟨hclimbs, hwalk⟩ := findAbsolute_eq currentPath (currentPath ++ 47 :: path)
      rw [components_append, climbs_append hnames, List.nil_append] at hclimbs hwalk
      rw [walk_append, walk_names hnames, List.nil_append] at hwalk
      rw [if_pos hhead]
      exact ⟨fun h => congrArg some (hclimbs h), fun h => congrArg some (hwalk h)⟩

/-- What is denoted has only names. -/
theorem allNames_denotes (hcur : Shaped currentPath) : AllNames (denotes currentPath path) := by
  refine allNames_walk ?_ fun name hname => mem_components hname
  rw [startOf]
  split
  next =>
      intro name hname
      cases hname
  next => exact hcur.allNames

/-- The parent of a current path. -/
theorem findParent_eq (hcur : Shaped currentPath) : findParentPathWithReal currentPath =
    if 2 ≤ (components currentPath).length then render (components currentPath).dropLast
    else [] := by
  rcases hcur with rfl | ⟨names, hnames, rfl⟩
  · rfl
  · rw [components_render hnames, findParent_render hnames]

theorem AllNames.dropLast {names : List Bytes} (h : AllNames names) : AllNames names.dropLast :=
  fun name hname => h name (List.dropLast_subset _ hname)

/-- A current path is empty or real. -/
theorem IsCurrent.shaped (h : IsCurrent currentPath) : Shaped currentPath := by
  induction h with
  | start => exact .inl rfl
  | @found currentPath path real _ hreal ih =>
      have hpath : path ≠ [] := by
        rintro rfl
        cases hreal
      obtain ⟨hclimbs, hwalk⟩ := findReal_eq ih hpath
      by_cases h : Climbs (startOf currentPath path) (components path)
      · rw [hclimbs h, Option.some.injEq, findParent_eq ih] at hreal
        split at hreal
        next => exact .inr ⟨_, ih.allNames.dropLast, hreal.symm⟩
        next => exact .inl hreal.symm
      · rw [hwalk h, Option.some.injEq] at hreal
        exact .inr ⟨_, allNames_denotes ih, hreal.symm⟩

/-- A real path is found again. -/
theorem findReal_render (hcur : Shaped currentPath) {names : List Bytes} (h : AllNames names) :
    findReal currentPath (render names) = some (render names) := by
  have hdenotes : denotes currentPath (render names) = names := by
    rw [denotes, startOf, if_pos (head?_render names), components_render h, walk_names h]
    rfl
  have hnot : ¬ Climbs (startOf currentPath (render names)) (components (render names)) := by
    rw [startOf, if_pos (head?_render names), components_render h]
    exact not_climbs_names h
  rw [(findReal_eq hcur (render_ne_nil names)).2 hnot, hdenotes]

/-- From every current path, a path is normalised exactly if it does not climb above the
root, or if what it denotes is the parent of the current path and not the root. -/
theorem normalises_iff (hcur : IsCurrent currentPath) (hpath : path ≠ []) :
    Normalises currentPath path ↔
      ¬ Climbs (startOf currentPath path) (components path) ∨
        2 ≤ (components currentPath).length ∧
          denotes currentPath path = (components currentPath).dropLast := by
  have hshaped := hcur.shaped
  obtain ⟨hclimbs, hwalk⟩ := findReal_eq hshaped hpath
  by_cases h : Climbs (startOf currentPath path) (components path)
  · have hparent := hclimbs h
    rw [findParent_eq hshaped] at hparent
    have hnames := hshaped.allNames.dropLast
    constructor
    · rintro ⟨real, hreal, ⟨names, -, hrender⟩, hcomponents, -⟩
      rw [hparent, Option.some.injEq] at hreal
      split at hreal
      next htwo =>
          rw [← hreal, components_render hnames] at hcomponents
          exact .inr ⟨htwo, hcomponents.symm⟩
      next => exact absurd (hrender.symm.trans hreal.symm) (render_ne_nil names)
    · rintro (hnot | ⟨htwo, hdenotes⟩)
      · exact absurd h hnot
      · rw [if_pos htwo] at hparent
        refine ⟨_, hparent, ⟨_, hnames, rfl⟩, ?_, findReal_render hshaped hnames⟩
        rw [components_render hnames, hdenotes]
  · refine iff_of_true ?_ (.inl h)
    have hnames := @allNames_denotes currentPath path hshaped
    exact ⟨_, hwalk h, ⟨_, hnames, rfl⟩, components_render hnames, findReal_render hshaped hnames⟩

end Current

/-- `a/../b/.` from the root. -/
theorem normalises_relative : Normalises [] [97, 47, 46, 46, 47, 98, 47, 46] :=
  (normalises_iff .start (by decide)).2 (.inl fun h => by
    have hnone := (stackUnits_eq _ _).1 h
    exact absurd hnone (by decide))

/-- `/../a` is `/a`, but comes out empty. -/
theorem above_root_empty : ¬ ∀ currentPath path, IsCurrent currentPath → path ≠ [] →
    Normalises currentPath path := by
  intro h
  obtain ⟨real, hreal, ⟨names, -, hrender⟩, -⟩ := h [] [47, 46, 46, 47, 97] .start (by decide)
  have hempty : findReal [] [47, 46, 46, 47, 97] = some [] := by decide
  rw [hempty, Option.some.injEq] at hreal
  exact absurd (hrender.symm.trans hreal.symm) (render_ne_nil names)

end Ofs.Client
