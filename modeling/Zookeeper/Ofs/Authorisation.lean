import Zookeeper.Ofs.ClientService
import Zookeeper.Transition

/-!
# Authorisation of requests

What a request may do on behalf of a user: mark a node only with write authority on it,
put a node into a directory only with write authority on that, hand out a lease only
with write authority on the file, and the place of a block only with read authority.

Creating a node asks for the write bits of the directory.  Removing one asks for the
read bits of the node.  `Read`, `Write` and `Append` ask for nothing.  So a request
keeps to what it may do exactly if the check it does not make would pass
(`authorised_iff`).
-/

namespace Ofs.Master

/-! ## What may be done -/

/-- A node that is there and not removed. -/
def Present (node : Option Node) : Prop := ∃ n, node = some n ∧ n.delete = false

/-- Nodes marked and nodes that appear, between two trees, are as the user may have them. -/
structure TreeAuthorised (user : User) (tree tree' : List Bytes → Option Node) : Prop where
  removed : ∀ names node node', tree names = some node → tree' names = some node' →
    node.delete = false → node'.delete = true → node.checkAuthority user false = true
  gained : ∀ names name, Present (tree' (names ++ [name])) → ¬ Present (tree (names ++ [name])) →
    ∃ dir, tree names = some dir ∧ dir.checkAuthority user false = true

/-- A request that was served. -/
structure Served where
  before : State
  user : User
  request : Request
  after : State
  response : Response
deriving DecidableEq, Repr

/-- The path a request goes to. -/
def Request.path : Request → Bytes
  | .makeDir directory _ _ => cStr directory
  | .create directory _ _ => cStr directory
  | .list path => cStr path
  | .remove path => cStr path
  | .status path => cStr path
  | .read path _ => cStr path
  | .write path _ => cStr path
  | .append path => cStr path

/-- The request did nothing that its user may not do. -/
structure Authorised (e : Served) : Prop where
  tree : TreeAuthorised e.user e.before.root.nodeAt e.after.root.nodeAt
  leased : e.response.lease.isSome = true → ∃ item,
    e.before.root.lookup e.request.path = some item ∧
      item.node.checkAuthority e.user false = true
  located : e.response.id.isSome = true ∨ e.response.eps ≠ [] → ∃ item,
    e.before.root.lookup e.request.path = some item ∧
      item.node.checkAuthority e.user true = true

/-! ## The checks that are not made -/

/-- The block of a file that a read or a write is about. -/
def Item.block (settings : Settings) (blocks : Blocks) (blockIndex : Int32) :
    Item → Option Block
  | .directory .. => none
  | .file node fileId =>
      if blockIndex < 1 ∨ calcBlockCount settings.blockSize node.size < blockIndex then none
      else blocks.lookup (blockId fileId blockIndex)

/-- The block of a file that is appended to. -/
def Item.lastBlock (settings : Settings) (blocks : Blocks) : Item → Option Block
  | .directory .. => none
  | .file node fileId =>
      some (blocks.getOrCreate (blockId fileId (calcAppendBlock settings.blockSize node.size)))

/-- A replica of the block can be written through. -/
def Block.ready (settings : Settings) (outside : Outside) (b : Block) : Bool :=
  (b.write settings.block outside.useAble outside.distributed outside.now).2.isSome

/-- The node the request would mark, lease or locate passes the check for that. -/
def MayServe (settings : Settings) (s : State) (user : User) (outside : Outside) :
    Request → Prop
  | .remove path => ∀ item ∈ s.root.lookup (cStr path),
      item.node.checkAuthority user true = true ∧ item.node.root = false ∧
        item.node.delete = false → item.node.checkAuthority user false = true
  | .read path blockIndex => ∀ item ∈ s.root.lookup (cStr path),
      (item.block settings s.blocks blockIndex).isSome = true →
        item.node.checkAuthority user true = true
  | .write path blockIndex => ∀ item ∈ s.root.lookup (cStr path),
      ((item.block settings s.blocks blockIndex).any (Block.ready settings outside)) = true →
        item.node.checkAuthority user false = true
  | .append path => ∀ item ∈ s.root.lookup (cStr path),
      ((item.lastBlock settings s.blocks).any (Block.ready settings outside)) = true →
        item.node.checkAuthority user false = true
  | _ => True

instance (settings : Settings) (s : State) (user : User) (outside : Outside) :
    ∀ r, Decidable (MayServe settings s user outside r)
  | .makeDir .. => inferInstanceAs (Decidable True)
  | .create .. => inferInstanceAs (Decidable True)
  | .list .. => inferInstanceAs (Decidable True)
  | .remove .. => inferInstanceAs (Decidable (∀ item ∈ _, _))
  | .status .. => inferInstanceAs (Decidable True)
  | .read .. => inferInstanceAs (Decidable (∀ item ∈ _, _))
  | .write .. => inferInstanceAs (Decidable (∀ item ∈ _, _))
  | .append .. => inferInstanceAs (Decidable (∀ item ∈ _, _))

/-! ## The namespace -/

namespace TreeAuthorised

variable {user : User} {tree tree' : List Bytes → Option Node}

theorem same (h : tree' = tree) : TreeAuthorised user tree tree' := by
  subst h
  refine ⟨fun names node node' hnode hnode' hkept hmarked => ?_, fun names name hnew hold => ?_⟩
  · rw [Option.some.inj (hnode.symm.trans hnode'), hmarked] at hkept
    cases hkept
  · exact absurd hnew hold

/-- Only one node may change, and it does as it may. -/
theorem replaced {names : List Bytes} {old new : Item} (h : ReplacedAt names old new tree tree')
    (removed : ∀ ms node node', old.nodeAt ms = some node → new.nodeAt ms = some node' →
      node.delete = false → node'.delete = true → node.checkAuthority user false = true)
    (gained : ∀ ms, Present (new.nodeAt ms) → ¬ Present (old.nodeAt ms) →
      (∃ name, ms = [name]) ∧ old.node.checkAuthority user false = true) :
    TreeAuthorised user tree tree' where
  removed ms node node' hnode hnode' hkept hmarked := by
    by_cases hms : names <+: ms
    · obtain ⟨rest, rfl⟩ := hms
      exact removed rest node node' ((h.old rest).symm.trans hnode)
        ((h.new rest).symm.trans hnode') hkept hmarked
    · have hsame := h.other ms hms
      rw [hnode, hnode', Option.some.injEq] at hsame
      rw [hsame, hkept] at hmarked
      cases hmarked
  gained ms name hnew hold := by
    by_cases hms : names <+: ms ++ [name]
    · obtain ⟨rest, hrest⟩ := hms
      rw [← hrest, h.new] at hnew
      rw [← hrest, h.old] at hold
      obtain ⟨⟨m, rfl⟩, hcheck⟩ := gained rest hnew hold
      obtain ⟨rfl, -⟩ := List.append_inj' hrest rfl
      have hdir := h.old []
      rw [List.append_nil] at hdir
      exact ⟨old.node, hdir, hcheck⟩
    · rw [h.other _ hms] at hnew
      exact absurd hnew hold

end TreeAuthorised

section Tree

variable (user : User) (root : Item) (path : Bytes)

/-- Creating a node asks for what it needs. -/
theorem create_authorised (name : Bytes) (authority : Int16) (dir : Bool) (now id : Int64) :
    TreeAuthorised user root.nodeAt
      (root.queryNode (Item.createNode user name authority dir now id) path).2.nodeAt := by
  rcases Item.queryNode_spec (Item.name_createNode user name authority dir now id) root path with
    ⟨-, -, hsame⟩ | ⟨item, names, -, -, hreplaced⟩
  · exact .same hsame
  · rcases item.createNode_cases user name authority dir now id with
      hsame | ⟨hcheck, hnode, ⟨child, hchild, hkept⟩, hother⟩
    · exact .same (hsame ▸ hreplaced).same
    · refine .replaced hreplaced (fun ms node node' hold hnew hthere hmarked => ?_) ?_
      · by_cases hms : ms = [name]
        · rw [hms, hchild, Option.some.injEq] at hnew
          rw [← hnew, hkept] at hmarked
          cases hmarked
        · rw [hother ms hms, hold, Option.some.injEq] at hnew
          rw [← hnew, hthere] at hmarked
          cases hmarked
      · intro ms hnew hold
        by_cases hms : ms = [name]
        · exact ⟨⟨name, hms⟩, hcheck⟩
        · rw [hother ms hms] at hnew
          exact absurd hnew hold

/-- Removing a node asks for the read bits in the place of the write bits. -/
theorem remove_authorised_iff (now : Int64) :
    TreeAuthorised user root.nodeAt (root.queryNode (Item.remove user now) path).2.nodeAt ↔
      ∀ item ∈ root.lookup path,
        item.node.checkAuthority user true = true ∧ item.node.root = false ∧
          item.node.delete = false → item.node.checkAuthority user false = true := by
  rcases Item.queryNode_spec (Item.name_remove user now) root path with
    ⟨hlook, -, hsame⟩ | ⟨item, names, hlook, -, hreplaced⟩
  · refine ⟨fun _ item hitem => ?_, fun _ => .same hsame⟩
    rw [hlook] at hitem
    cases hitem
  · have honly : ∀ item' ∈ root.lookup path, item' = item := fun item' hitem' =>
      Option.some.inj (hitem'.symm.trans hlook)
    rcases item.remove_cases user now with ⟨hsame, hdenied⟩ | ⟨hmarked, hread, hroot⟩
    · refine ⟨fun _ item' hitem' hpass => ?_, fun _ => .same (hsame ▸ hreplaced).same⟩
      rw [honly item' hitem'] at hpass
      exact absurd ⟨hpass.1, hpass.2.1⟩ hdenied
    · rw [hmarked] at hreplaced
      constructor
      · intro h item' hitem' hpass
        rw [honly item' hitem'] at hpass ⊢
        have hold := hreplaced.old []
        have hnew := hreplaced.new []
        rw [Item.nodeAt_modify, if_pos rfl] at hnew
        exact h.removed _ _ _ hold hnew hpass.2.2 rfl
      · intro hmay
        refine .replaced hreplaced (fun ms node node' hold hnew hthere hgone => ?_) ?_
        · rw [Item.nodeAt_modify] at hnew
          split at hnew
          next hms =>
            rw [hms] at hold
            obtain rfl := Option.some.inj hold
            exact hmay item hlook ⟨hread, hroot, hthere⟩
          next =>
            rw [hold, Option.some.injEq] at hnew
            rw [← hnew, hthere] at hgone
            cases hgone
        · intro ms hnew hold
          rw [Item.nodeAt_modify] at hnew
          split at hnew
          next =>
            obtain ⟨node, hnode, hthere⟩ := hnew
            obtain rfl := Option.some.inj hnode
            cases hthere
          next => exact absurd hnew hold

end Tree

/-! ## Leases and places -/

/-- A request that leaves the namespace as it is asks the node its path leads to. -/
theorem Item.ask_eq {α : Type} (root : Item) (path : Bytes) (fn : Item → α) :
    root.ask path fn = (root.lookup (cStr path)).map fn := by
  rcases @Item.queryNode_spec α (fun item => (fn item, item)) (fun _ => rfl) root (cStr path)
    with ⟨hlook, hask, -⟩ | ⟨item, -, hlook, hask, -⟩
  · rw [ask, hask, hlook]
    rfl
  · rw [ask, hask, hlook]
    rfl

theorem readBlock_located (settings : Settings) (blocks : Blocks) (blockIndex : Int32)
    (item : Item) :
    ((readBlock settings blocks blockIndex item).id.isSome = true ∨
      (readBlock settings blocks blockIndex item).eps ≠ []) ↔
      (item.block settings blocks blockIndex).isSome = true := by
  cases item with
  | directory node children => simp [readBlock, Item.block]
  | file node fileId =>
      rw [readBlock, Item.block]
      split
      next => simp
      next => cases blocks.lookup (blockId fileId blockIndex) <;> simp

theorem readBlock_lease (settings : Settings) (blocks : Blocks) (blockIndex : Int32)
    (item : Item) : (readBlock settings blocks blockIndex item).lease = none := by
  cases item with
  | directory node children => rfl
  | file node fileId =>
      rw [readBlock]
      split
      next => rfl
      next => cases blocks.lookup (blockId fileId blockIndex) <;> rfl

/-- A lease, if any, and nothing else is handed out. -/
structure Grants (response : Response) (granted : Bool) : Prop where
  lease : response.lease.isSome = granted
  id : response.id = none
  eps : response.eps = []

theorem leaseBlock_grants (settings : Settings) (outside : Outside) (blocks : Blocks) (id : Int64)
    (block : Block) :
    Grants (leaseBlock settings outside blocks id block).1 (block.ready settings outside) := by
  rw [leaseBlock, Block.ready]
  split
  next h => rw [h]; exact ⟨rfl, rfl, rfl⟩
  next h => rw [h]; exact ⟨rfl, rfl, rfl⟩

theorem writeBlock_grants (settings : Settings) (outside : Outside) (blocks : Blocks)
    (blockIndex : Int32) (item : Item) :
    Grants (writeBlock settings outside blocks blockIndex item).1
      ((item.block settings blocks blockIndex).any (Block.ready settings outside)) := by
  cases item with
  | directory node children => exact ⟨rfl, rfl, rfl⟩
  | file node fileId =>
      rw [writeBlock, Item.block]
      split
      next => exact ⟨rfl, rfl, rfl⟩
      next =>
        cases blocks.lookup (blockId fileId blockIndex) with
        | none => exact ⟨rfl, rfl, rfl⟩
        | some block => exact leaseBlock_grants settings outside blocks _ block

theorem appendBlock_grants (settings : Settings) (outside : Outside) (blocks : Blocks)
    (item : Item) :
    Grants (appendBlock settings outside blocks item).1
      ((item.lastBlock settings blocks).any (Block.ready settings outside)) := by
  cases item with
  | directory node children => exact ⟨rfl, rfl, rfl⟩
  | file node fileId => exact leaseBlock_grants settings outside blocks _ _

/-! ## Requests -/

/-- The record of a request served in a state. -/
def State.record (settings : Settings) (s : State) (user : User) (outside : Outside)
    (request : Request) : Served :=
  { before := s, user := user, request := request,
    after := (s.serve settings user outside request).1,
    response := (s.serve settings user outside request).2 }

variable {settings : Settings} {s : State} {user : User} {outside : Outside}

/-- What hands out nothing is authorised by the namespace alone. -/
theorem Authorised.of_tree {e : Served}
    (h : TreeAuthorised e.user e.before.root.nodeAt e.after.root.nodeAt)
    (lease : e.response.lease = none) (id : e.response.id = none) (eps : e.response.eps = []) :
    Authorised e where
  tree := h
  leased hsome := by rw [lease] at hsome; cases hsome
  located hsome := by
    rw [id, eps] at hsome
    rcases hsome with hid | heps
    · cases hid
    · exact absurd rfl heps

theorem answer_code (r : Option ErrorCode) :
    (answer (r.map fun code => { errCode := code })).lease = none ∧
      (answer (r.map fun code => { errCode := code })).id = none ∧
        (answer (r.map fun code => { errCode := code })).eps = [] := by
  cases r <;> exact ⟨rfl, rfl, rfl⟩

/-- A lease is authorised where the file it is for may be written. -/
theorem grant_authorised_iff {path : Bytes} {fn : Item → Response × Blocks}
    {granted : Item → Bool} {e : Served} (grants : ∀ item, Grants (fn item).1 (granted item))
    (tree : e.after.root = e.before.root) (hpath : e.request.path = cStr path)
    (response : e.response = answer ((e.before.root.ask path fn).map Prod.fst)) :
    Authorised e ↔ ∀ item ∈ e.before.root.lookup (cStr path), granted item = true →
      item.node.checkAuthority e.user false = true := by
  rw [Item.ask_eq, Option.map_map] at response
  constructor
  · intro h item hitem hgranted
    have hlease : e.response.lease.isSome = true := by
      rw [response, hitem]
      exact (grants item).lease.trans hgranted
    obtain ⟨item', hitem', hcheck⟩ := h.leased hlease
    rw [hpath, hitem, Option.some.injEq] at hitem'
    exact hitem' ▸ hcheck
  · intro h
    have hsame : TreeAuthorised e.user e.before.root.nodeAt e.after.root.nodeAt :=
      .same (by rw [tree])
    cases hlook : e.before.root.lookup (cStr path) with
    | none =>
        rw [hlook] at response
        exact .of_tree hsame (by rw [response]; rfl) (by rw [response]; rfl) (by rw [response]; rfl)
    | some item =>
        rw [hlook] at response
        refine ⟨hsame, fun hlease => ⟨item, hpath ▸ hlook, ?_⟩, fun hlocated => ?_⟩
        · rw [response] at hlease
          exact h item hlook ((grants item).lease.symm.trans hlease)
        · rw [response] at hlocated
          rcases hlocated with hid | heps
          · rw [show (answer ((some item).map (Prod.fst ∘ fn))).id = none from
              (grants item).id] at hid
            cases hid
          · exact absurd (grants item).eps heps

/-- A request does nothing that its user may not do, exactly if the node it would mark,
lease or locate passes the check for that. -/
theorem authorised_iff (request : Request) :
    Authorised (s.record settings user outside request) ↔
      MayServe settings s user outside request := by
  cases request with
  | makeDir directory name authority =>
      obtain ⟨hlease, hid, heps⟩ := answer_code (s.root.queryNode (Item.createNode user (cStr name)
        authority.toInt16 true (Int64.ofNat outside.now) outside.nextId) (cStr directory)).1
      exact iff_of_true (.of_tree (create_authorised ..) hlease hid heps) trivial
  | create directory name authority =>
      obtain ⟨hlease, hid, heps⟩ := answer_code (s.root.queryNode (Item.createNode user (cStr name)
        authority.toInt16 false (Int64.ofNat outside.now) outside.nextId) (cStr directory)).1
      exact iff_of_true (.of_tree (create_authorised ..) hlease hid heps) trivial
  | list path => exact iff_of_true (.of_tree (.same rfl) rfl rfl rfl) trivial
  | remove path =>
      obtain ⟨hlease, hid, heps⟩ := answer_code (s.root.queryNode
        (Item.remove user (Int64.ofNat outside.now)) (cStr path)).1
      rw [MayServe, ← remove_authorised_iff user s.root (cStr path) (Int64.ofNat outside.now)]
      exact ⟨fun h => h.tree, fun h => .of_tree h hlease hid heps⟩
  | status path =>
      refine iff_of_true (.of_tree (.same rfl) ?_ ?_ ?_) trivial <;>
        simp only [State.record, State.serve, Item.ask_eq] <;>
        cases s.root.lookup (cStr path) <;> rfl
  | read path blockIndex =>
      have hresponse : (s.record settings user outside (.read path blockIndex)).response =
          answer ((s.root.lookup (cStr path)).map (readBlock settings s.blocks blockIndex)) := by
        rw [← Item.ask_eq]
        rfl
      constructor
      · intro h item hitem hblock
        have hlocated := (readBlock_located settings s.blocks blockIndex item).2 hblock
        rw [hitem] at hresponse
        obtain ⟨item', hitem', hcheck⟩ := h.located (by rw [hresponse]; exact hlocated)
        obtain rfl := Option.some.inj (hitem.symm.trans hitem')
        exact hcheck
      · intro h
        cases hlook : s.root.lookup (cStr path) with
        | none =>
            rw [hlook] at hresponse
            exact .of_tree (.same rfl) (by rw [hresponse]; rfl) (by rw [hresponse]; rfl)
              (by rw [hresponse]; rfl)
        | some item =>
            rw [hlook] at hresponse
            refine ⟨.same rfl, fun hlease => ?_, fun hlocated => ⟨item, hlook, ?_⟩⟩
            · rw [hresponse] at hlease
              have hnone := readBlock_lease settings s.blocks blockIndex item
              rw [show (answer ((some item).map (readBlock settings s.blocks blockIndex))).lease =
                none from hnone] at hlease
              cases hlease
            · rw [hresponse] at hlocated
              exact h item hlook ((readBlock_located ..).1 hlocated)
  | write path blockIndex =>
      exact grant_authorised_iff (writeBlock_grants settings outside s.blocks blockIndex)
        rfl rfl rfl
  | append path =>
      exact grant_authorised_iff (appendBlock_grants settings outside s.blocks) rfl rfl rfl

/-! ## Runs -/

/-- The state and the requests served so far, the last one first. -/
structure Service where
  state : State
  log : List Served := []
deriving DecidableEq, Repr

/-- A request, its user, and what it finds outside. -/
structure Call where
  user : User
  request : Request
  outside : Outside

namespace Service

def serve (settings : Settings) (s : Service) (c : Call) : Service :=
  let e := s.state.record settings c.user c.outside c.request
  { state := e.after, log := e :: s.log }

/-- Any directory and any blocks, and nothing served yet. -/
def Init (s : Service) : Prop := s.state.root.isDir = true ∧ s.log = []

end Service

/-- The runs of the service. -/
def serviceSystem (settings : Settings) : Transition.System Service Call :=
  Transition.ofStep Service.Init fun s c => some (s.serve settings c)

/-- The check for a call would pass. -/
def Checked (settings : Settings) (s : Service) (c : Call) : Prop :=
  MayServe settings s.state c.user c.outside c.request

instance (settings : Settings) (s : Service) (c : Call) : Decidable (Checked settings s c) :=
  inferInstanceAs (Decidable (MayServe ..))

/-- Along a run whose requests would pass the checks, every request is authorised, and the
next one is exactly if it would pass, too. -/
theorem requests_authorised (settings : Settings) {s : Service}
    (h : (serviceSystem settings).Run (Checked settings) s) :
    (∀ e ∈ s.log, Authorised e) ∧
      ∀ c : Call, Authorised (s.state.record settings c.user c.outside c.request) ↔
        Checked settings s c := by
  refine ⟨?_, fun c => authorised_iff c.request⟩
  refine Transition.System.Run.invariant (I := fun s => ∀ e ∈ s.log, Authorised e) ?_ ?_ h
  · intro s hs e he
    rw [hs.2] at he
    cases he
  · intro s c s' hs hc hstep
    cases hstep
    exact List.forall_mem_cons.2 ⟨(authorised_iff c.request).2 hc, hs⟩

/-- Blocks of one megabyte on one server. -/
def oneServer : Settings :=
  { block := { blockCount := 1, writeLease := 60000, recoverLease := 60000,
               recoverAndWriteInterval := 1000 }
    blockSize := 1048576 }

/-- What a request finds at a clock reading. -/
def atTime (now : Nat) : Outside :=
  { now := now, useAble := fun _ => true, distributed := [1],
    nextId := Int64.ofNat (now * 2147483648) }

/-- A root that everybody may read, with a file `f` of `root` that everybody may read. -/
def readableFile : Service :=
  { state :=
      { root := .directory
          { owner := rootName, ownerGroup := rootName, authority := 75, root := true }
          (.file { name := [102], owner := rootName, ownerGroup := rootName, authority := 75 } 5
            .empty) } }

/-- A user without authority of its own. -/
def visitor : User := { name := [118], group := [118] }

/-- The user of `root`. -/
def superUser : User := { name := rootName, group := rootName, super := true }

/-- `root` makes a directory that everybody may write, the visitor a file there that only
it may read and write.  It appends, reads nothing yet, and removes it. -/
def ownFile : List Call :=
  [⟨superUser, .makeDir [] [100] 511, atTime 1⟩, ⟨visitor, .create [47, 100] [103] 3, atTime 2⟩,
   ⟨visitor, .append [47, 100, 47, 103], atTime 3⟩, ⟨visitor, .create [47] [104] 3, atTime 4⟩,
   ⟨{ name := [119], group := [119] }, .remove [47, 100, 47, 103], atTime 5⟩,
   ⟨visitor, .read [47, 100, 47, 103] 1, atTime 6⟩,
   ⟨visitor, .remove [47, 100, 47, 103], atTime 7⟩]

/-- The state `ownFile` reaches. -/
def afterOwnFile : Service :=
  (Transition.exec (fun s c => some (Service.serve oneServer s c)) readableFile ownFile).getD
    readableFile

/-- All of it is authorised. -/
theorem requests_authorised_own :
    afterOwnFile.log.length = ownFile.length ∧ ∀ e ∈ afterOwnFile.log, Authorised e := by
  have hexec : Transition.exec (fun s c => some (Service.serve oneServer s c)) readableFile
      ownFile = some afterOwnFile := by
    decide +kernel
  have hrun : (serviceSystem oneServer).Run (Checked oneServer) afterOwnFile :=
    Transition.exec_run (.start ⟨rfl, rfl⟩) (by decide +kernel) hexec
  exact ⟨by decide +kernel, (requests_authorised oneServer hrun).1⟩

/-- The visitor removes the file of `root`, which it may only read. -/
theorem reader_removes :
    ¬ ∀ s, (serviceSystem oneServer).Reachable s → ∀ e ∈ s.log, Authorised e := by
  intro h
  have hrun : (serviceSystem oneServer).Reachable
      (readableFile.serve oneServer ⟨visitor, .remove [47, 102], atTime 1⟩) :=
    .next (.start ⟨rfl, rfl⟩) trivial rfl
  have hserved := h _ hrun _ List.mem_cons_self
  have hdenied : ¬ Checked oneServer readableFile ⟨visitor, .remove [47, 102], atTime 1⟩ := by
    decide +kernel
  exact hdenied ((authorised_iff _).1 hserved)

end Ofs.Master
