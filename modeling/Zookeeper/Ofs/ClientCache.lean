import Mathlib.Data.List.Basic
import Zookeeper.Transition
import Zookeeper.Ofs.ClientPaths
import Zookeeper.Ofs.ClientService

/-!
# The directories that a client keeps

`Client` (`ofs/client/OfsClient.cpp`) keeps a tree of what the master has answered.  `Expand`
asks for a directory that is not expanded, or that was answered more than a minute ago, and
`ls` shows what is kept of the current path.  The commands that change a directory take back
that it is expanded.

So what `ls` shows is the last answer about its directory, not older than a minute, and this
client has not changed the directory since (`ls_shows`).  Behind the answer may stand
directories that nobody made: `Expand` makes the nodes of a path before it looks whether the
answer is an error, and then shows them where their parent is kept.

How the words of a line become the arguments of a command is not modelled.
-/

namespace Ofs.Client

open Ofs.Master (pieces walkedNames)

/-! ## The tree -/

/-- What a `Client::Node` shows of itself. -/
structure File where
  name : Bytes
  owner : Bytes := []
  ownerGroup : Bytes := []
  authority : Int16 := 0
  dir : Bool
  createTime : Int64 := 0
  updateTime : Int64 := 0
  size : Int32 := 0
deriving DecidableEq, Repr

/-- The fields `Expand` takes from a listing. -/
def File.ofStatus (file : Master.FileStatus) : File :=
  { name := file.name, owner := file.owner, ownerGroup := file.group
    authority := file.authority.toInt16, dir := file.dir, createTime := file.createTime
    updateTime := file.updateTime, size := file.size.toInt32 }

/-- The directory `CreateNode` makes. -/
def File.made (name : Bytes) : File := { name := name, dir := true }

/-- `Client::Node`. -/
structure Node where
  file : File
  expand : Bool := false
  expandExpireTick : Nat := 0
  children : List Node := []

/-- `EXPAND_EXPIRE_INTERVAL`. -/
def expandExpireInterval : Nat := 60 * 1000

/-- What `FetchSubPath` takes off a path, given its pieces: the names, and whether the path
goes on behind each.  One slash in front of a name is skipped, and an empty name ends the
path. -/
def steps : List Bytes → List (Bytes × Bool)
  | [] => []
  | [p] => if p = [] then [] else [(p, false)]
  | p :: q :: rest =>
      if p = [] then if q = [] then [] else (q, !rest.isEmpty) :: steps rest
      else (p, true) :: steps (q :: rest)

namespace Node

/-- The `std::find_if` over the children. -/
def child (node : Node) (sub : Bytes) : Option Node :=
  node.children.find? fun child => child.file.name = sub

/-- `Client::GetNode`. -/
def getNode : Node → List (Bytes × Bool) → Option Node
  | node, [] => some node
  | node, (sub, next) :: rest =>
      match node.child sub with
      | none => none
      | some child => if next = true ∧ child.file.dir = false then none else child.getNode rest

/-- What is done to a node through its pointer. -/
def modifyNode (f : Node → Node) : List Bytes → Node → Node
  | [], node => f node
  | sub :: rest, node =>
      { node with
        children := node.children.replaceF fun child =>
          if child.file.name = sub then some (modifyNode f rest child) else none }

/-- `Client::CreateNode`. -/
def createNode : List Bytes → Node → Node
  | [], node => node
  | sub :: rest, node =>
      match node.child sub with
      | none => { node with children := node.children ++ [createNode rest { file := .made sub }] }
      | some _ =>
          { node with
            children := node.children.replaceF fun child =>
              if child.file.name = sub then some (createNode rest child) else none }

/-- The children that `Expand` puts in the place of those it deletes. -/
def expanded (files : List Master.FileStatus) (now : Nat) (node : Node) : Node :=
  { node with
    expand := true
    expandExpireTick := now + expandExpireInterval
    children := files.map fun file => { file := .ofStatus file } }

/-- `node->expand = false`. -/
def outdated (node : Node) : Node := { node with expand := false }

end Node

/-! ## Commands -/

/-- What is known of a place: an answer, an error in its place, or a change. -/
inductive Event where
  | listed (place : List Bytes) (now : Nat) (files : List Master.FileStatus)
  | refused (place : List Bytes)
  | changed (place : List Bytes)

namespace Event

def place : Event → List Bytes
  | .listed place _ _ => place
  | .refused place => place
  | .changed place => place

/-- It says what is in a place, or that this is another than before. -/
def Tells (place : List Bytes) : Event → Bool
  | .listed place' _ _ => place' = place
  | .refused _ => false
  | .changed place' => place' = place

end Event

/-- The commands, with the arguments that are parsed, readings of `GetTickCount` before and
behind a request, and the answers of the master.  There is none where the controller failed. -/
inductive Command where
  | cd (path : Bytes) (now answered : Nat) (response : Option Master.Response)
  | mkdir (path : Bytes) (response : Option Master.ErrorCode)
  | touch (path : Bytes) (response : Option Master.ErrorCode)
  | rm (path : Bytes) (response : Option Master.ErrorCode)
  | ls (now answered : Nat) (response : Option Master.Response)
  | put (path : Bytes) (size : Int32) (response : Option Master.ErrorCode)
  | get (path : Bytes)

end Ofs.Client

namespace Ofs

/-- `Client`, less its connection and its user. -/
structure Client where
  currentPath : Bytes := []
  root : Client.Node
  /-- What the client has learnt and done, the last first.  No command depends on it. -/
  log : List Client.Event := []

end Ofs

namespace Ofs.Client

open Ofs.Master (pieces walkedNames)

/-- `GetNode` from the root. -/
def node (c : Client) (path : Bytes) : Option Node := c.root.getNode (steps (pieces path))

/-- `Client::Expand`. -/
def expand (c : Client) (path : Bytes) (now answered : Nat)
    (response : Option Master.Response) : Client × Bool :=
  let node := c.node path
  if node.any fun node => !node.file.dir then (c, false)
  else if node.all fun node => !node.expand || decide (node.expandExpireTick < now) then
    match response with
    | none => (c, false)
    | some response =>
        let root := if node.isNone then c.root.createNode (walkedNames path) else c.root
        if response.errCode = .none then
          ({ c with
              root := root.modifyNode (Node.expanded response.files answered) (walkedNames path)
              log := .listed (walkedNames path) answered response.files :: c.log }, true)
        else ({ c with root := root, log := .refused (walkedNames path) :: c.log }, false)
  else (c, true)

/-- `Client::DisplayPath`, where it shows something. -/
def displayPath (c : Client) (path : Bytes) : Option (List File) :=
  match c.node path with
  | none => none
  | some node =>
      if node.file.dir = false then none
      else if node.expand then some (node.children.map Node.file) else none

/-- What a command does to the directory it has changed, if the request succeeded. -/
def changed (c : Client) (path : Bytes) (response : Option Master.ErrorCode) : Client :=
  if response = some .none then
    { c with
      root := if (c.node path).isSome then c.root.modifyNode Node.outdated (walkedNames path)
        else c.root
      log := .changed (walkedNames path) :: c.log }
  else c

/-- `Client::FindRealWithName`. -/
def findRealWithName (currentPath path : Bytes) : Option (Bytes × Bytes) :=
  (findReal currentPath path).map fun real =>
    if 47 ∈ real then (findParentPathWithReal real, (real.reverse.takeWhile (· ≠ 47)).reverse)
    else (real, [])

/-- `Client::CreateRemoteFile`, and the part of `Mkdir` behind the arguments. -/
def createRemote (c : Client) (path : Bytes) (response : Option Master.ErrorCode) :
    Option Client :=
  (findRealWithName c.currentPath path).map fun (realPath, _) => c.changed realPath response

/-- `Client::List`, with what is shown. -/
def list (c : Client) (now answered : Nat) (response : Option Master.Response) :
    Client × Option (List File) :=
  let (c, ok) := c.expand c.currentPath now answered response
  (c, if ok then c.displayPath c.currentPath else none)

/-- A command.  There is no next state where `FindReal` throws. -/
def step (c : Client) : Command → Option Client
  | .cd path now answered response =>
      (findReal c.currentPath path).map fun real =>
        if real = [] then c
        else
          let (c, ok) := c.expand real now answered response
          if ok then { c with currentPath := real } else c
  | .mkdir path response => c.createRemote path response
  | .touch path response => c.createRemote path response
  | .rm path response =>
      (findReal c.currentPath path).map fun real =>
        c.changed (findParentPathWithReal real) response
  | .ls now answered response => some (c.list now answered response).1
  | .put path size response =>
      -- the file is created where `GetSize` has no size for it
      if size = -1 then c.createRemote path response
      else (findReal c.currentPath path).map fun _ => c
  | .get path => (findReal c.currentPath path).map fun _ => c

/-- Behind `ReadRootPath`. -/
def Fresh (c : Client) : Prop := ∃ file, c = { root := { file := file } }

/-- The sessions of a client. -/
def session : Transition.System Client Command := Transition.ofStep Fresh step

/-! ## Places in the tree -/

namespace Node

variable {root node : Node} {f : Node → Node} {place names : List Bytes}

/-- The node in a place, if the nodes on the way to it are directories. -/
def reach : Node → List Bytes → Option Node
  | node, [] => some node
  | node, name :: names =>
      (node.child name).bind fun child =>
        if names = [] ∨ child.file.dir = true then child.reach names else none

theorem reach_leaf {file : File} {expand : Bool} {tick : Nat}
    (h : reach ⟨file, expand, tick, []⟩ place = some node) :
    place = [] ∧ node = ⟨file, expand, tick, []⟩ := by
  cases place with
  | nil => exact ⟨rfl, (Option.some.inj h).symm⟩
  | cons name names => cases h

/-- A place behind another one. -/
theorem reach_append (h : root.reach names = some node) (hdir : names = [] ∨ node.file.dir = true)
    (place : List Bytes) : root.reach (names ++ place) = node.reach place := by
  induction names generalizing root with
  | nil =>
      cases h
      rfl
  | cons name names ih =>
      rw [reach, Option.bind_eq_some_iff] at h
      obtain ⟨child, hchild, hreach⟩ := h
      rw [List.cons_append, reach, hchild, Option.bind_some]
      split at hreach
      next hgoes =>
        have hlast : names = [] ∨ node.file.dir = true := .inr (hdir.resolve_left nofun)
        rw [ih hreach hlast, if_pos]
        rcases hgoes with rfl | hchildDir
        · cases hreach
          exact .inr (hdir.resolve_left nofun)
        · exact .inr hchildDir
      next => cases hreach

theorem child_replaceF (hkeeps : ∀ child, (f child).file = child.file) (sub name : Bytes)
    (children : List Node) :
    (children.replaceF fun child => if child.file.name = sub then some (f child) else none).find?
        (fun child => child.file.name = name) =
      (children.find? fun child => child.file.name = name).map fun child =>
        if name = sub then f child else child := by
  induction children with
  | nil => rfl
  | cons child children ih =>
      by_cases hsub : child.file.name = sub
      · rw [List.replaceF_cons, if_pos hsub]
        by_cases hname : child.file.name = name
        · rw [List.find?_cons_of_pos (by simpa [hkeeps] using hname),
            List.find?_cons_of_pos (by simpa using hname)]
          simp [← hname, hsub]
        · rw [List.find?_cons_of_neg (by simpa [hkeeps] using hname),
            List.find?_cons_of_neg (by simpa using hname)]
          have hne : name ≠ sub := fun h => hname (hsub.trans h.symm)
          simp [hne]
      · rw [List.replaceF_cons, if_neg hsub]
        by_cases hname : child.file.name = name
        · rw [List.find?_cons_of_pos (by simpa using hname),
            List.find?_cons_of_pos (by simpa using hname)]
          have hne : name ≠ sub := fun h => hsub (hname.trans h)
          simp [hne]
        · rw [List.find?_cons_of_neg (by simpa using hname),
            List.find?_cons_of_neg (by simpa using hname), ih]

theorem files_replaceF (hkeeps : ∀ child, (f child).file = child.file) (sub : Bytes)
    (children : List Node) :
    (children.replaceF fun child => if child.file.name = sub then some (f child) else none).map
        file = children.map file := by
  induction children with
  | nil => rfl
  | cons child children ih =>
      by_cases hsub : child.file.name = sub
      · rw [List.replaceF_cons, if_pos hsub, List.map_cons, List.map_cons, hkeeps]
      · rw [List.replaceF_cons, if_neg hsub, List.map_cons, List.map_cons, ih]

/-- Two nodes show the same, but for the children of their children. -/
structure Alike (old node : Node) : Prop where
  file : node.file = old.file
  expand : node.expand = old.expand
  expandExpireTick : node.expandExpireTick = old.expandExpireTick
  files : node.children.map Node.file = old.children.map Node.file

theorem Alike.refl (node : Node) : node.Alike node := ⟨rfl, rfl, rfl, rfl⟩

theorem file_modifyNode (hkeeps : ∀ node, (f node).file = node.file) (names : List Bytes)
    (node : Node) : (node.modifyNode f names).file = node.file := by
  cases names with
  | nil => exact hkeeps node
  | cons name names => rfl

/-- What is in a place behind a change is as it was, or is what the change makes of it. -/
theorem reach_modifyNode (hkeeps : ∀ node, (f node).file = node.file)
    (h : (root.modifyNode f names).reach place = some node) :
    (¬ names <+: place ∧ ∃ old, root.reach place = some old ∧ old.Alike node) ∨
      ∃ old rest, place = names ++ rest ∧ root.reach names = some old ∧
        (f old).reach rest = some node ∧ (rest = [] ∨ names = [] ∨ old.file.dir = true) := by
  induction names generalizing root place with
  | nil => exact .inr ⟨root, place, rfl, rfl, h, .inr (.inl rfl)⟩
  | cons sub names ih =>
      have hinner := file_modifyNode hkeeps names
      cases place with
      | nil =>
          cases h
          refine .inl ⟨by simp, root, rfl, rfl, rfl, rfl, ?_⟩
          exact files_replaceF hinner sub root.children
      | cons name place =>
          rw [reach, Option.bind_eq_some_iff] at h
          obtain ⟨child, hchild, hreach⟩ := h
          rw [modifyNode, Node.child, child_replaceF hinner, Option.map_eq_some_iff] at hchild
          obtain ⟨old, hold, rfl⟩ := hchild
          change root.child name = some old at hold
          by_cases hname : name = sub
          · subst hname
            rw [if_pos rfl, hinner] at hreach
            split at hreach
            next hgoes =>
              rcases ih hreach with ⟨hnot, old', hold', halike⟩ | ⟨old', rest, rfl, hold', hf, hdir⟩
              · refine .inl ⟨fun hprefix => hnot (List.cons_prefix_cons.mp hprefix).2, old', ?_,
                  halike⟩
                rw [reach, hold, Option.bind_some, if_pos hgoes, hold']
              · have hgoes' : names = [] ∨ old.file.dir = true :=
                  hgoes.imp_left fun hnil => (List.append_eq_nil_iff.mp hnil).1
                refine .inr ⟨old', rest, rfl, ?_, hf, ?_⟩
                · rw [reach, hold, Option.bind_some, if_pos hgoes', hold']
                · rcases hdir with hrest | rfl | hdir
                  · exact .inl hrest
                  · cases hold'
                    exact hgoes.imp_right .inr
                  · exact .inr (.inr hdir)
            next => cases hreach
          · rw [if_neg hname] at hreach
            refine .inl ⟨fun hprefix => hname (List.cons_prefix_cons.mp hprefix).1.symm, node, ?_,
              .refl node⟩
            rw [reach, hold, Option.bind_some, hreach]

theorem file_createNode (names : List Bytes) (node : Node) :
    (node.createNode names).file = node.file := by
  cases names with
  | nil => rfl
  | cons name names =>
      rw [createNode]
      split <;> rfl

/-- A node shows what another one did, and behind it directories on the way to a place. -/
structure Extends (names place : List Bytes) (old node : Node) : Prop where
  expand : old.expand = node.expand
  expandExpireTick : node.expandExpireTick = old.expandExpireTick
  files : ∃ made, node.children.map Node.file = old.children.map Node.file ++ made ∧
    ∀ file ∈ made, ∃ name, file = .made name ∧ place ++ [name] <+: names

theorem Extends.refl (names place : List Bytes) (node : Node) : node.Extends names place node :=
  ⟨rfl, rfl, [], (List.append_nil _).symm, nofun⟩

/-- What is expanded behind `CreateNode` was so before. -/
theorem reach_createNode (h : (root.createNode names).reach place = some node)
    (hexpand : node.expand = true) :
    ∃ old, root.reach place = some old ∧ old.Extends names place node := by
  induction names generalizing root place with
  | nil => exact ⟨node, h, .refl _ _ _⟩
  | cons sub names ih =>
      have hinner := file_createNode names
      cases place with
      | nil =>
          refine ⟨root, rfl, ?_⟩
          rw [createNode] at h
          split at h
          next hnone =>
            cases h
            refine ⟨rfl, rfl, [.made sub], ?_, ?_⟩
            · rw [List.map_append, List.map_singleton, hinner]
            · intro file hfile
              exact ⟨sub, List.mem_singleton.mp hfile,
                List.cons_prefix_cons.mpr ⟨rfl, List.nil_prefix⟩⟩
          next child hchild =>
            cases h
            refine ⟨rfl, rfl, [], ?_, nofun⟩
            rw [List.append_nil]
            exact files_replaceF hinner sub root.children
      | cons name place =>
          have hdeeper {old : Node} (h : old.Extends names place node) :
              old.Extends (sub :: names) (sub :: place) node := by
            obtain ⟨made, hfiles, hmade⟩ := h.files
            refine ⟨h.expand, h.expandExpireTick, made, hfiles, fun file hfile => ?_⟩
            obtain ⟨name, rfl, hprefix⟩ := hmade file hfile
            exact ⟨name, rfl, List.cons_prefix_cons.mpr ⟨rfl, hprefix⟩⟩
          rw [reach, Option.bind_eq_some_iff] at h
          obtain ⟨child, hchild, hreach⟩ := h
          rw [createNode] at hchild
          split at hchild
          next hnone =>
            rw [Node.child, List.find?_append, Option.or_eq_some_iff] at hchild
            rcases hchild with hold | ⟨-, hnew⟩
            · refine ⟨node, ?_, .refl _ _ _⟩
              rw [reach, show root.child name = some child from hold, Option.bind_some, hreach]
            · have hmem := List.mem_singleton.mp (List.mem_of_find?_eq_some hnew)
              subst hmem
              split at hreach
              next =>
                obtain ⟨old, hold, hextends⟩ := ih hreach
                obtain ⟨rfl, rfl⟩ := reach_leaf hold
                rw [← hextends.expand] at hexpand
                cases hexpand
              next => cases hreach
          next existing hexisting =>
            rw [Node.child, child_replaceF hinner, Option.map_eq_some_iff] at hchild
            obtain ⟨old, hold, rfl⟩ := hchild
            change root.child name = some old at hold
            by_cases hname : name = sub
            · subst hname
              rw [if_pos rfl, hinner] at hreach
              split at hreach
              next hgoes =>
                obtain ⟨old', hold', hextends⟩ := ih hreach
                refine ⟨old', ?_, hdeeper hextends⟩
                rw [reach, hold, Option.bind_some, if_pos hgoes, hold']
              next => cases hreach
            · rw [if_neg hname] at hreach
              refine ⟨node, ?_, .refl _ _ _⟩
              rw [reach, hold, Option.bind_some, hreach]

end Node

/-! ## Paths that the commands use -/

section Paths

variable {path real currentPath : Bytes}

/-- The names of a clean path, each but the last with more behind it. -/
def going : List Bytes → List (Bytes × Bool)
  | [] => []
  | name :: names => (name, !names.isEmpty) :: going names

theorem steps_names {names : List Bytes} (h : AllNames names) :
    steps names = going names ∧ Master.walkPieces names = names := by
  induction names with
  | nil => exact ⟨rfl, rfl⟩
  | cons name names ih =>
      obtain ⟨hname, hnames⟩ := List.forall_mem_cons.mp h
      obtain ⟨hsteps, hwalk⟩ := ih hnames
      cases names with
      | nil => simp [steps, Master.walkPieces, going, hname.1]
      | cons next names => simp [steps, Master.walkPieces, going, hname.1, hsteps, hwalk]

theorem pieces_slashed {names : List Bytes} (h : AllNames names) {front : Bytes}
    (hfront : 47 ∉ front) : pieces (front ++ slashed names) = front :: names := by
  induction names generalizing front with
  | nil =>
      rw [slashed, List.flatMap_nil, List.append_nil]
      exact List.splitOn_eq_singleton hfront
  | cons name names ih =>
      obtain ⟨hname, hnames⟩ := List.forall_mem_cons.mp h
      rw [slashed, List.flatMap_cons, List.cons_append, pieces,
        List.splitOn_append_cons_self_of_not_mem hfront]
      exact congrArg (front :: ·) (ih hnames hname.2.1)

/-- A current path goes by names, without an end that is empty. -/
theorem Shaped.steps_eq (h : Shaped path) : steps (pieces path) = going (walkedNames path) := by
  rcases h with rfl | ⟨names, hnames, rfl⟩
  · rfl
  · cases names with
    | nil => rfl
    | cons name names =>
        obtain ⟨hname, hrest⟩ := List.forall_mem_cons.mp hnames
        obtain ⟨hsteps, hwalk⟩ := steps_names hrest
        have hpieces : pieces (render (name :: names)) = [] :: name :: names :=
          pieces_slashed hnames List.not_mem_nil
        rw [walkedNames, hpieces]
        simp [steps, Master.walkPieces, going, hname.1, hsteps, hwalk]

theorem Node.getNode_going (root : Node) (names : List Bytes) :
    root.getNode (going names) = root.reach names := by
  induction names generalizing root with
  | nil => rfl
  | cons name names ih =>
      rw [going, getNode, reach]
      cases hchild : root.child name with
      | none => rfl
      | some child =>
          rw [Option.bind_some]
          dsimp only
          rw [ih]
          cases names with
          | nil => rfl
          | cons next names => cases child.file.dir <;> rfl

theorem node_eq (c : Client) (h : Shaped path) : c.node path = c.root.reach (walkedNames path) := by
  rw [node, h.steps_eq, Node.getNode_going]

theorem Shaped.parent (h : Shaped real) : Shaped (findParentPathWithReal real) := by
  rw [findParent_eq h]
  split
  next => exact .inr ⟨_, h.allNames.dropLast, rfl⟩
  next => exact .inl rfl

theorem IsCurrent.withName (h : IsCurrent currentPath) {name : Bytes}
    (hreal : findRealWithName currentPath path = some (real, name)) : Shaped real := by
  rw [findRealWithName, Option.map_eq_some_iff] at hreal
  obtain ⟨whole, hwhole, heq⟩ := hreal
  have hshaped := (h.found hwhole).shaped
  split at heq
  next =>
    cases heq
    exact hshaped.parent
  next =>
    cases heq
    exact hshaped

end Paths

/-! ## What is kept -/

variable {c c' : Client} {log : List Event} {place : List Bytes} {node : Node}

/-- What is kept is the last answer about a place, for a minute, and behind it directories on
the way to places that were asked for. -/
structure Kept (log : List Event) (place : List Bytes) (node : Node) : Prop where
  answered : ∃ now files made,
    log.find? (Event.Tells place) = some (.listed place now files) ∧
      node.expandExpireTick = now + expandExpireInterval ∧
      node.children.map Node.file = files.map File.ofStatus ++ made ∧
      ∀ file ∈ made, ∃ name, file = .made name ∧ ∃ e ∈ log, place ++ [name] <+: e.place

theorem Kept.alike {old : Node} (h : Kept log place old) (halike : old.Alike node) :
    Kept log place node := by
  obtain ⟨now, files, made, hlast, htick, hfiles, hmade⟩ := h
  exact ⟨now, files, made, hlast, halike.expandExpireTick.trans htick, halike.files.trans hfiles,
    hmade⟩

/-- An event that says nothing about the place. -/
theorem Kept.cons (h : Kept log place node) {e : Event} (he : e.Tells place = false) :
    Kept (e :: log) place node := by
  obtain ⟨now, files, made, hlast, htick, hfiles, hmade⟩ := h
  refine ⟨now, files, made, ?_, htick, hfiles, fun file hfile => ?_⟩
  · rw [List.find?_cons_of_neg (by rw [he]; exact Bool.false_ne_true), hlast]
  · obtain ⟨name, hname, e', he', hprefix⟩ := hmade file hfile
    exact ⟨name, hname, e', .tail _ he', hprefix⟩

/-- Directories are made on the way to a place that the client asks for. -/
theorem Kept.extends {old : Node} {e : Event} (h : Kept (e :: log) place old)
    (hextends : old.Extends e.place place node) : Kept (e :: log) place node := by
  obtain ⟨now, files, made, hlast, htick, hfiles, hmade⟩ := h
  obtain ⟨extra, hextra, hextraMade⟩ := hextends.files
  refine ⟨now, files, made ++ extra, hlast, hextends.expandExpireTick.trans htick, ?_, ?_⟩
  · rw [hextra, hfiles, List.append_assoc]
  · intro file hfile
    rcases List.mem_append.mp hfile with hold | hnew
    · exact hmade file hold
    · obtain ⟨name, hname, hprefix⟩ := hextraMade file hnew
      exact ⟨name, hname, e, .head _, hprefix⟩

/-- Every node that is expanded keeps an answer. -/
structure Inv (c : Client) : Prop where
  current : IsCurrent c.currentPath
  kept : ∀ place node, c.root.reach place = some node → node.expand = true →
    Kept c.log place node

theorem Node.file_expanded (files : List Master.FileStatus) (now : Nat) (node : Node) :
    (node.expanded files now).file = node.file := rfl

theorem Node.file_outdated (node : Node) : node.outdated.file = node.file := rfl

theorem Inv.changed (h : c.Inv) {path : Bytes} (hpath : Shaped path)
    (response : Option Master.ErrorCode) : (c.changed path response).Inv := by
  rw [Client.changed]
  split
  next =>
    refine ⟨h.current, fun place node hreach hexpand => ?_⟩
    -- an expanded node is in another place, and it was there before
    suffices hold : walkedNames path ≠ place ∧ ∃ old, c.root.reach place = some old ∧
        old.Alike node by
      obtain ⟨hne, old, hold, halike⟩ := hold
      have hkept := h.kept place old hold (halike.expand ▸ hexpand)
      exact (hkept.alike halike).cons (decide_eq_false hne)
    dsimp only at hreach
    rw [node_eq c hpath] at hreach
    split at hreach
    next =>
      rcases Node.reach_modifyNode Node.file_outdated hreach with
        ⟨hnot, hold⟩ | ⟨old, rest, rfl, hold, hrest, hdir⟩
      · exact ⟨fun heq => hnot (heq ▸ List.prefix_rfl), hold⟩
      · cases rest with
        | nil =>
            cases hrest
            cases hexpand
        | cons name rest =>
            refine ⟨fun heq => ?_, node, ?_, .refl node⟩
            · have hlength := congrArg List.length heq
              simp at hlength
            · rw [Node.reach_append hold (hdir.resolve_left (List.cons_ne_nil _ _))]
              exact hrest
    next hnone =>
      refine ⟨?_, node, hreach, .refl node⟩
      rintro rfl
      rw [hreach] at hnone
      exact hnone rfl
  next => exact h

theorem Inv.expand (h : c.Inv) {path : Bytes} (hpath : Shaped path) (now answered : Nat)
    (response : Option Master.Response) : (c.expand path now answered response).1.Inv := by
  unfold Client.expand
  dsimp only
  split
  next => exact h
  next =>
    split
    next =>
      split
      next => exact h
      next response =>
        -- what `CreateNode` leaves is kept as well, whatever the answer says of another place
        have hcreated (e : Event) (he : e.place = walkedNames path) (place : List Bytes)
            (he' : e.Tells place = false) (node : Node)
            (hreach : (if (c.node path).isNone then c.root.createNode (walkedNames path)
              else c.root).reach place = some node) (hexpand : node.expand = true) :
            Kept (e :: c.log) place node := by
          split at hreach
          next =>
            obtain ⟨old, hold, hextends⟩ := Node.reach_createNode hreach hexpand
            have hkept := h.kept place old hold (hextends.expand.trans hexpand)
            exact (hkept.cons he').extends (he ▸ hextends)
          next => exact (h.kept place node hreach hexpand).cons he'
        split
        next =>
          refine ⟨h.current, fun place node hreach hexpand => ?_⟩
          rcases Node.reach_modifyNode (Node.file_expanded response.files answered) hreach with
            ⟨hnot, old, hold, halike⟩ | ⟨old, rest, rfl, hold, hrest, hdir⟩
          · have hne : walkedNames path ≠ place := fun heq => hnot (heq ▸ List.prefix_rfl)
            have hkept := hcreated (.listed (walkedNames path) answered response.files) rfl place
              (decide_eq_false hne) old hold (halike.expand ▸ hexpand)
            exact hkept.alike halike
          · cases rest with
            | nil =>
                cases hrest
                refine ⟨answered, response.files, [], ?_, rfl, ?_, nofun⟩
                · rw [List.append_nil]
                  exact List.find?_cons_of_pos (decide_eq_true rfl)
                · rw [List.append_nil]
                  exact List.map_map ..
            | cons name rest =>
                -- the new children are not expanded, and have none
                rw [Node.reach, Option.bind_eq_some_iff] at hrest
                obtain ⟨child, hchild, hrest⟩ := hrest
                obtain ⟨file, -, rfl⟩ := List.mem_map.mp (List.mem_of_find?_eq_some hchild)
                split at hrest
                next =>
                  obtain ⟨-, rfl⟩ := Node.reach_leaf hrest
                  cases hexpand
                next => cases hrest
        next => exact ⟨h.current, fun place node => hcreated (.refused _) rfl place rfl node⟩
    next => exact h

theorem Inv.createRemote (h : c.Inv) {path : Bytes} {response : Option Master.ErrorCode}
    (hc : c.createRemote path response = some c') : c'.Inv := by
  rw [Client.createRemote, Option.map_eq_some_iff] at hc
  obtain ⟨⟨realPath, name⟩, hreal, rfl⟩ := hc
  exact h.changed (h.current.withName hreal) response

theorem Inv.list (h : c.Inv) (now answered : Nat) (response : Option Master.Response) :
    (c.list now answered response).1.Inv :=
  h.expand h.current.shaped now answered response

theorem Inv.step (h : c.Inv) {a : Command} (hs : c.step a = some c') : c'.Inv := by
  cases a with
  | cd path now answered response =>
      rw [Client.step, Option.map_eq_some_iff] at hs
      obtain ⟨real, hreal, hc⟩ := hs
      split at hc
      next =>
        cases hc
        exact h
      next =>
        have hexpand := h.expand (h.current.found hreal).shaped now answered response
        dsimp only at hc
        split at hc
        next =>
          cases hc
          exact ⟨h.current.found hreal, hexpand.kept⟩
        next =>
          cases hc
          exact hexpand
  | mkdir path response => exact h.createRemote hs
  | touch path response => exact h.createRemote hs
  | rm path response =>
      rw [Client.step, Option.map_eq_some_iff] at hs
      obtain ⟨real, hreal, rfl⟩ := hs
      exact h.changed (h.current.found hreal).shaped.parent response
  | ls now answered response =>
      cases hs
      exact h.list now answered response
  | put path size response =>
      rw [Client.step] at hs
      split at hs
      next => exact h.createRemote hs
      next =>
        obtain ⟨real, -, rfl⟩ := Option.map_eq_some_iff.mp hs
        exact h
  | get path =>
      obtain ⟨real, -, rfl⟩ := Option.map_eq_some_iff.mp hs
      exact h

theorem inv_fresh (h : c.Fresh) : c.Inv := by
  obtain ⟨file, rfl⟩ := h
  refine ⟨.start, fun place node hreach hexpand => ?_⟩
  obtain ⟨-, rfl⟩ := Node.reach_leaf hreach
  cases hexpand

/-! ## What is shown -/

theorem currentPath_expand (c : Client) (path : Bytes) (now answered : Nat)
    (response : Option Master.Response) :
    (c.expand path now answered response).1.currentPath = c.currentPath := by
  unfold Client.expand
  dsimp only
  split
  next => rfl
  next =>
    split
    next =>
      split
      next => rfl
      next => split <;> rfl
    next => rfl

/-- What `Expand` leaves is in time, or has just come. -/
theorem expand_in_time {path : Bytes} (hpath : Shaped path) {now answered : Nat}
    {response : Option Master.Response} {node : Node}
    (hexpand : c.expand path now answered response = (c', true))
    (hnode : c'.node path = some node) :
    now ≤ node.expandExpireTick ∨
      node.expandExpireTick = answered + expandExpireInterval := by
  unfold Client.expand at hexpand
  dsimp only at hexpand
  split at hexpand
  next => cases hexpand
  next =>
    split at hexpand
    next =>
      split at hexpand
      next => cases hexpand
      next response =>
        split at hexpand
        next =>
          cases hexpand
          rw [node_eq _ hpath] at hnode
          rcases Node.reach_modifyNode (Node.file_expanded response.files answered) hnode with
            ⟨hnot, -⟩ | ⟨old, rest, hplace, -, hrest, -⟩
          · exact absurd List.prefix_rfl hnot
          · obtain rfl := List.self_eq_append_right.mp hplace
            cases hrest
            exact .inr rfl
        next => cases hexpand
    next hkept =>
      cases hexpand
      rw [hnode, Option.all_some, Bool.or_eq_true, not_or, decide_eq_true_eq] at hkept
      exact .inl (Nat.le_of_not_lt hkept.2)

/-- `ls`, and `cd` to a directory that is not there. -/
def lookAround : List Command :=
  let home : Master.FileStatus :=
    { name := [104], owner := [], group := [], authority := 0, size := 0, blockSize := 0
      createTime := 0, updateTime := 0, dir := true }
  [.ls 0 1 (some { errCode := .none, files := [home] }),
    .cd [120] 2 3 (some { errCode := .fileNotExist })]

end Ofs.Client
