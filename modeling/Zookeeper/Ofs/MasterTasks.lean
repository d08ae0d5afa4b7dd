import Zookeeper.References
import Zookeeper.Ofs.BlockIds
import Zookeeper.Ofs.ReplicaList

/-!
# Handlers of the master

`DataNodeService` handles the messages of chunk servers and `ClientService` the requests of
clients, each in a coroutine of its own (`ofs/master/chunk`, `ofs/master/client`).  A handler
gets its file from `FileSystem::_files` and its block from `BlockManager::_blocks`, and
releases them.  Its steps come between those of all others.

`OnUpdate` takes a block whose file is not there out of the table and deletes it, and both it
and `OnReport` look at their block behind its `Release`.  `handlers_safe` says that neither
does any harm.  A block comes into the table for a file that is there, and no file leaves the
index, so no block is ever deleted, and the counts are those of the handlers.

What `StartGC` does to files is in `Zookeeper.Ofs.Collector`.
-/

namespace Ofs.Master

open References Transition

/-- `c2m::BlockStatus`. -/
structure BlockStatus where
  id : Int64
  version : Int64
  size : Int
  fault : Bool
deriving DecidableEq, Repr

/-- `ofs::Block` with its `RefObject`. -/
structure BlockObject where
  block : Block
  used : Int32 := 0
  /-- It was deleted. -/
  freed : Bool := false

/-- The report that `OnReport` or `OnUpdate` makes of a call, and its size. -/
def Block.grown (b : Block) : BlockCall → Int
  | .updateReplica server version size fault => (b.updateReplica server version size fault).2
  | .reportReplica server version size fault => (b.reportReplica server version size fault).2
  | _ => 0

/-! ## Tasks -/

/-- Where a handler is.  The rest of a report is what its loop still has to go over, and
there is none behind an update. -/
inductive Job where
  /-- `OnReport`, at the top of its loop. -/
  | report (server : Nat) (infos : List BlockStatus)
  /-- Behind `GetFile`. -/
  | reported (fileId : Int64) (server : Nat) (info : BlockStatus) (infos : List BlockStatus)
  /-- `OnUpdate`. -/
  | update (server : Nat) (info : BlockStatus)
  /-- Behind `Get`. -/
  | updated (p : Nat) (server : Nat) (info : BlockStatus)
  /-- Before `ReportReplica`, or `UpdateReplica`. -/
  | note (p : Nat) (fileId : Int64) (server : Nat) (info : BlockStatus)
      (rest : Option (List BlockStatus))
  /-- Before the `Release` of the block. -/
  | noted (p : Nat) (fileId : Int64) (server : Nat) (newSize : Int)
      (rest : Option (List BlockStatus))
  /-- Before `UpdateSize`. -/
  | grow (p : Nat) (fileId : Int64) (server : Nat) (newSize : Int)
      (rest : Option (List BlockStatus))
  /-- Before the `Release` of the file. -/
  | leave (fileId : Int64) (server : Nat) (rest : Option (List BlockStatus))
  /-- `OnUpdate`, where there is no file. -/
  | drop (p : Nat)
  /-- `BlockManager::Clean`, before it takes the lock. -/
  | clean (p : Nat)
  | cleanLocked (p : Nat)
  /-- `OnClean` and the requests, before `Get` or `GetOrCreate`. -/
  | get (id : Int64) (create : Bool) (call : Option BlockCall)
  | call (p : Nat) (call : Option BlockCall)
  | finish (p : Nat)

namespace Job

/-- The blocks that a handler has acquired. -/
def blocks : Job → List Nat
  | .updated p .. | .note p .. | .noted p .. | .drop p | .call p _ | .finish p => [p]
  | _ => []

/-- The files that a handler has acquired. -/
def files : Job → List Int64
  | .reported fileId .. | .note _ fileId .. | .noted _ fileId .. | .grow _ fileId ..
  | .leave fileId .. => [fileId]
  | _ => []

/-- The block that a handler looks at, acquired or not. -/
def object : Job → Option Nat
  | .updated p .. | .note p .. | .noted p .. | .grow p .. | .drop p | .clean p | .cleanLocked p
  | .call p _ | .finish p => some p
  | _ => none

end Job

/-- What a step of a handler does to the tables, the blocks and the files. -/
inductive Effect where
  | idle
  | acquire (p : Nat)
  /-- `new Block` with its `Acquire`. -/
  | create (id : Int64)
  | call (p : Nat) (call : BlockCall)
  | release (p : Nat)
  | acquireFile (fileId : Int64)
  | releaseFile (fileId : Int64)
  /-- `UpdateSize`, whose loop takes effect with its exchange. -/
  | grow (fileId : Int64) (size : UInt32)
  /-- The `CleanBlock` that answers a report. -/
  | refuse (server : Nat) (info : BlockStatus)
  /-- The end of `Clean`. -/
  | delete (p : Nat)

/-- `BlockManager` and `FileSystem` with the handlers, and a record of what went through them:
the reports that came, those that were refused, and the calls of each block. -/
structure MasterState where
  objects : Nat → BlockObject := fun _ => { block := { id := 0 } }
  /-- The number of the next object. -/
  next : Nat := 0
  /-- `BlockManager::_blocks`. -/
  blocks : Int64 → Option Nat := fun _ => none
  /-- The sizes in `FileSystem::_files`. -/
  files : Int64 → Option UInt32 := fun _ => none
  fileUsed : Int64 → Int32 := fun _ => 0
  tasks : List Job := []
  heard : List (Nat × BlockStatus) := []
  refused : List (Nat × BlockStatus) := []
  calls : List (Int64 × BlockCall) := []

/-- What comes to the master, and what goes on. -/
inductive MasterAct where
  /-- `FileSystem::AddFile`. -/
  | addFile (fileId : Int64)
  | onReport (server : Nat) (infos : List BlockStatus)
  | onUpdate (server : Nat) (info : BlockStatus)
  | onClean (server : Nat) (blockId : Int64)
  /-- The requests of a client that has found its file. -/
  | read (fileId : Int64) (index : Int32)
  | write (fileId : Int64) (index : Int32) (e : Surroundings)
  | append (fileId : Int64) (e : Surroundings)
  /-- `CheckReplica`, of a block that the ticker comes to. -/
  | checkReplica (blockId : Int64) (e : Surroundings)
  /-- The `i`th handler goes on. -/
  | run (i : Nat)

namespace MasterState

/-! ## Steps -/

/-- An object is changed in place. -/
def modify (s : MasterState) (p : Nat) (f : BlockObject → BlockObject) : MasterState :=
  { s with objects := Function.update s.objects p (f (s.objects p)) }

def apply (s : MasterState) : Effect → MasterState
  | .idle => s
  | .acquire p => s.modify p fun r => { r with used := r.used + 1 }
  | .create id =>
      { s with
        objects := Function.update s.objects s.next { block := { id := id }, used := 1 }
        next := s.next + 1
        blocks := Function.update s.blocks id (some s.next) }
  | .call p c =>
      { s.modify p fun r => { r with block := r.block.call c } with
        calls := s.calls ++ [((s.objects p).block.id, c)] }
  | .release p => s.modify p fun r => { r with used := r.used - 1 }
  | .acquireFile fileId =>
      { s with fileUsed := Function.update s.fileUsed fileId (s.fileUsed fileId + 1) }
  | .releaseFile fileId =>
      { s with fileUsed := Function.update s.fileUsed fileId (s.fileUsed fileId - 1) }
  | .grow fileId size =>
      { s with
        files := Function.update s.files fileId
          ((s.files fileId).map fun old => (FileSystem.updateSize.propose old size).getD old) }
  | .refuse server info => { s with refused := s.refused ++ [(server, info)] }
  | .delete p =>
      { s.modify p fun r => { r with freed := true } with
        blocks := Function.update s.blocks (s.objects p).block.id none }

/-- `BlockManager::Get` and `GetOrCreate`, with the object that is returned. -/
def get (s : MasterState) (id : Int64) (create : Bool) : Effect × Option Nat :=
  match s.blocks id with
  | some p => (.acquire p, some p)
  | none => if create then (.create id, some s.next) else (.idle, none)

/-- The call of `OnReport` or `OnUpdate`. -/
def noteCall (server : Nat) (info : BlockStatus) : Option (List BlockStatus) → BlockCall
  | some _ => .reportReplica server info.version info.size info.fault
  | none => .updateReplica server info.version info.size info.fault

/-- What a handler does next, and what it is left with. -/
def plan (blockSize : Int32) (s : MasterState) : Job → Effect × List Job
  | .report _ [] => (.idle, [])
  | .report server (info :: infos) =>
      if (s.files (fileIdFromBlock info.id)).isSome then
        (.acquireFile (fileIdFromBlock info.id),
          [.reported (fileIdFromBlock info.id) server info infos])
      else (.refuse server info, [.report server infos])
  | .reported fileId server info infos =>
      match s.get info.id true with
      | (e, some p) => (e, [.note p fileId server info (some infos)])
      | (e, none) => (e, [.leave fileId server none])
  | .update server info =>
      match s.get info.id false with
      | (e, some p) => (e, [.updated p server info])
      | (e, none) => (e, [])
  | .updated p server info =>
      let fileId := fileIdFromBlock (s.objects p).block.id
      if (s.files fileId).isSome then (.acquireFile fileId, [.note p fileId server info none])
      else (.idle, [.drop p])
  | .note p fileId server info rest =>
      (.call p (noteCall server info rest),
        [.noted p fileId server ((s.objects p).block.grown (noteCall server info rest)) rest])
  | .noted p fileId server newSize rest =>
      (.release p, [.grow p fileId server newSize rest])
  | .grow p fileId server newSize rest =>
      (if 0 < newSize then
        .grow fileId (FileSystem.reportedSize blockSize (s.objects p).block.id (.ofInt newSize))
        else .idle,
        [.leave fileId server rest])
  | .leave fileId server rest =>
      (.releaseFile fileId, (rest.map fun infos => .report server infos).toList)
  | .drop p => (.release p, [.clean p])
  | .clean p => (.idle, if 0 < (s.objects p).used then [] else [.cleanLocked p])
  | .cleanLocked p => (if 0 < (s.objects p).used then .idle else .delete p, [])
  | .get id create c =>
      match s.get id create with
      | (e, some p) => (e, [.call p c])
      | (e, none) => (e, [])
  | .call p c => ((c.map fun c => .call p c).getD .idle, [.finish p])
  | .finish p => (.release p, [])

/-- A handler goes on, with the handlers beside it. -/
def resume (blockSize : Int32) (s : MasterState) (job : Job) (rest : List Job) : MasterState :=
  { s.apply (s.plan blockSize job).1 with tasks := (s.plan blockSize job).2 ++ rest }

/-- A new handler, with the report that it is for. -/
def fork (s : MasterState) (job : Job) (heard : List (Nat × BlockStatus) := []) : MasterState :=
  { s with tasks := job :: s.tasks, heard := s.heard ++ heard }

/-- A request for a block with the index that the client gives. -/
def request (blockSize : Int32) (s : MasterState) (fileId : Int64) (index : Int32)
    (c : Option BlockCall) : Option MasterState :=
  (s.files fileId).map fun size =>
    if index < 1 ∨ FileSystem.calcBlockCount blockSize size < index then s
    else s.fork (.get (blockId fileId index) false c)

def step (blockSize : Int32) (s : MasterState) : MasterAct → Option MasterState
  | .addFile fileId =>
      some { s with files := Function.update s.files fileId (some ((s.files fileId).getD 0)) }
  | .onReport server infos =>
      some (s.fork (.report server infos) (infos.map fun info => (server, info)))
  | .onUpdate server info => some (s.fork (.update server info))
  | .onClean server blockId => some (s.fork (.get blockId false (some (.clearReplica server))))
  | .read fileId index => s.request blockSize fileId index none
  | .write fileId index e => s.request blockSize fileId index (some (.write e))
  | .append fileId e =>
      (s.files fileId).map fun size =>
        s.fork (.get (blockId fileId (FileSystem.calcAppendBlock blockSize size)) true
          (some (.write e)))
  | .checkReplica blockId e => (s.blocks blockId).map fun p => s.apply (.call p (.checkReplica e))
  | .run i => (s.tasks[i]?).map fun job => s.resume blockSize job (s.tasks.eraseIdx i)

/-- The ids that files are added with leave the index free, as those of `GenerateId` do. -/
def Named (_ : MasterState) : MasterAct → Prop
  | .addFile fileId => FileSystem.IndexClear fileId
  | _ => True

instance (s : MasterState) : DecidablePred s.Named
  | .addFile fileId =>
      inferInstanceAs (Decidable (fileId.toBitVec &&& BitField.mask 64 10 21 = 0))
  | .onReport .. => isTrue trivial
  | .onUpdate .. => isTrue trivial
  | .onClean .. => isTrue trivial
  | .read .. => isTrue trivial
  | .write .. => isTrue trivial
  | .append .. => isTrue trivial
  | .checkReplica .. => isTrue trivial
  | .run _ => isTrue trivial

/-! ## What the steps do -/

/-- `Get` acquires the block of the table, or a new one, or there is none. -/
theorem get_cases (s : MasterState) (id : Int64) (create : Bool) :
    (∃ p, s.blocks id = some p ∧ s.get id create = (.acquire p, some p)) ∨
      (s.blocks id = none ∧ create = true ∧ s.get id create = (.create id, some s.next)) ∨
      (s.blocks id = none ∧ create = false ∧ s.get id create = (.idle, none)) := by
  cases hid : s.blocks id with
  | some p => exact .inl ⟨p, rfl, by simp only [get, hid]⟩
  | none =>
      cases create with
      | true => exact .inr (.inl ⟨rfl, rfl, by simp only [get, hid, if_true]⟩)
      | false =>
          exact .inr (.inr ⟨rfl, rfl, by simp only [get, hid, Bool.false_eq_true, if_false]⟩)

/-- The references to blocks that a step adds and takes away. -/
def gained (s : MasterState) : Effect → List Nat
  | .acquire p => [p]
  | .create _ => [s.next]
  | _ => []

def lost : Effect → List Nat
  | .release p => [p]
  | _ => []

def gainedFiles : Effect → List Int64
  | .acquireFile fileId => [fileId]
  | _ => []

def lostFiles : Effect → List Int64
  | .releaseFile fileId => [fileId]
  | _ => []

/-- A step leaves a handler with the references that it had, with what it adds and without
what it takes away. -/
theorem plan_refs (blockSize : Int32) (s : MasterState) (job : Job) :
    lost (s.plan blockSize job).1 ++ (s.plan blockSize job).2.flatMap Job.blocks =
        s.gained (s.plan blockSize job).1 ++ job.blocks ∧
      lostFiles (s.plan blockSize job).1 ++ (s.plan blockSize job).2.flatMap Job.files =
        gainedFiles (s.plan blockSize job).1 ++ job.files := by
  cases job with
  | report server infos =>
      cases infos with
      | nil => exact ⟨rfl, rfl⟩
      | cons info infos => simp only [plan]; split <;> exact ⟨rfl, rfl⟩
  | reported fileId server info infos =>
      rcases s.get_cases info.id true with ⟨p, -, hget⟩ | ⟨-, -, hget⟩ | ⟨-, hcreate, -⟩
      · simp only [plan, hget]; exact ⟨rfl, rfl⟩
      · simp only [plan, hget]; exact ⟨rfl, rfl⟩
      · cases hcreate
  | update server info =>
      rcases s.get_cases info.id false with ⟨p, -, hget⟩ | ⟨-, hcreate, -⟩ | ⟨-, -, hget⟩
      · simp only [plan, hget]; exact ⟨rfl, rfl⟩
      · cases hcreate
      · simp only [plan, hget]; exact ⟨rfl, rfl⟩
  | get id create c =>
      rcases s.get_cases id create with ⟨p, -, hget⟩ | ⟨-, -, hget⟩ | ⟨-, -, hget⟩
      all_goals simp only [plan, hget]; exact ⟨rfl, rfl⟩
  | updated | grow | clean | cleanLocked => simp only [plan]; split <;> exact ⟨rfl, rfl⟩
  | leave fileId server rest => cases rest <;> exact ⟨rfl, rfl⟩
  | call p c => cases c <;> exact ⟨rfl, rfl⟩
  | note | noted | drop | finish => exact ⟨rfl, rfl⟩

/-! ## Counting -/

theorem used_modify (s : MasterState) (p : Nat) (f : BlockObject → BlockObject) :
    (fun q => ((s.modify p f).objects q).used) =
      Function.update (fun q => (s.objects q).used) p (f (s.objects p)).used := by
  funext q
  rcases eq_or_ne q p with rfl | hne
  · simp only [modify, Function.update_self]
  · simp only [modify, Function.update_of_ne hne]

/-- What a step does keeps the counts of the blocks. -/
theorem counted_apply {s : MasterState} {e : Effect} {refs refs' : List Nat}
    (h : Counted (fun p => (s.objects p).used) refs) (hnew : s.next ∉ refs)
    (hrefs : (lost e ++ refs').Perm (s.gained e ++ refs)) :
    Counted (fun p => ((s.apply e).objects p).used) refs' := by
  cases e with
  | acquire p =>
      rw [apply, used_modify]
      exact (h.acquire p).perm hrefs.symm
  | release p =>
      rw [apply, used_modify]
      exact (h.perm hrefs.symm).release
  | create id =>
      have hcount : (fun p => ((s.apply (.create id)).objects p).used) =
          Function.update (fun p => (s.objects p).used) s.next 1 := by
        funext q
        rcases eq_or_ne q s.next with rfl | hne
        · simp only [apply, Function.update_self]
        · simp only [apply, Function.update_of_ne hne]
      rw [hcount]
      exact (h.fresh hnew).perm hrefs.symm
  | call p c =>
      rw [apply, used_modify, Function.update_eq_self_iff.2 rfl]
      exact h.perm hrefs.symm
  | delete p =>
      rw [apply, used_modify, Function.update_eq_self_iff.2 rfl]
      exact h.perm hrefs.symm
  | idle | acquireFile | releaseFile | grow | refuse => exact h.perm hrefs.symm

theorem counted_applyFiles {s : MasterState} {e : Effect} {refs refs' : List Int64}
    (h : Counted s.fileUsed refs) (hrefs : (lostFiles e ++ refs').Perm (gainedFiles e ++ refs)) :
    Counted (s.apply e).fileUsed refs' := by
  cases e with
  | acquireFile fileId => exact (h.acquire fileId).perm hrefs.symm
  | releaseFile fileId => exact (h.perm hrefs.symm).release
  | idle | acquire | create | call | release | grow | refuse | delete => exact h.perm hrefs.symm

/-! ## Ids of blocks -/

theorem id_note (b : Block) (i : Nat) (version : Int64) (size : Int) (fault : Bool) :
    (b.note i version size fault).1.id = b.id := by
  rw [Block.note]
  dsimp only
  split
  next => rfl
  next => split <;> split <;> split <;> rfl

theorem id_grant (b : Block) (i : Nat) (r : Replica) (tick : Nat) :
    (b.grant i r tick).id = b.id := by
  simp only [Block.grant]

theorem id_write (cfg : Config) (b : Block) (useAble : Nat → Bool) (ds : List Nat) (now : Nat) :
    (b.write cfg useAble ds now).1.id = b.id := by
  have hplace : (b.place ds).id = b.id := by
    rw [Block.place]
    split <;> rfl
  rw [Block.write_eq]
  split
  next => rw [id_grant, hplace]
  next => exact hplace

/-- A block keeps its id. -/
theorem id_call (b : Block) (c : BlockCall) : (b.call c).id = b.id := by
  cases c with
  | write e => exact id_write ..
  | updateReplica server version size fault =>
      rw [Block.call, Block.updateReplica]
      split
      next => exact id_note ..
      next => rfl
  | reportReplica server version size fault =>
      rw [Block.call, Block.reportReplica]
      split
      next => exact id_note ..
      next => exact id_note ..
  | clearReplica server => rfl
  | checkReplica e =>
      rw [Block.call, Block.checkReplica]
      split
      next => rfl
      next =>
        split
        next => rfl
        next =>
          split
          next => rfl
          next =>
            dsimp only
            split
            next => split <;> rfl
            next => split <;> rfl

/-! ## The invariant -/

/-- What the tables have stays in them. -/
structure Extends (s t : MasterState) : Prop where
  files : ∀ fileId, (s.files fileId).isSome → (t.files fileId).isSome
  blocks : ∀ id p, s.blocks id = some p → t.blocks id = some p

/-- What a handler has come from the tables is in them, and its file is there. -/
def Sound (s : MasterState) : Job → Prop
  | .report .. | .update .. | .leave .. => True
  | .reported fileId _ info _ =>
      fileId = fileIdFromBlock info.id ∧ (s.files fileId).isSome
  | .updated p _ info => s.blocks info.id = some p
  | .note p fileId _ info _ => s.blocks info.id = some p ∧ fileId = fileIdFromBlock info.id
  | .noted p fileId .. | .grow p fileId .. =>
      ∃ id, s.blocks id = some p ∧ fileId = fileIdFromBlock id
  | .drop _ | .clean _ | .cleanLocked _ => False
  | .get id create _ => create = true → (s.files (fileIdFromBlock id)).isSome
  | .call p _ | .finish p => ∃ id, s.blocks id = some p

/-- Every block in the table has its file in the index and was not deleted, the handlers are
sound, and the counts are those of the handlers. -/
structure Inv (s : MasterState) : Prop where
  blockCounts : Counted (fun p => (s.objects p).used) (s.tasks.flatMap Job.blocks)
  fileCounts : Counted s.fileUsed (s.tasks.flatMap Job.files)
  known : ∀ id p, s.blocks id = some p → p < s.next
  ids : ∀ id p, s.blocks id = some p → (s.objects p).block.id = id
  indexed : ∀ id p, s.blocks id = some p → (s.files (fileIdFromBlock id)).isSome
  clear : ∀ fileId, (s.files fileId).isSome → FileSystem.IndexClear fileId
  sound : ∀ job ∈ s.tasks, s.Sound job
  live : ∀ p, (s.objects p).freed = false

variable {blockSize : Int32} {s t : MasterState} {job : Job}

theorem Extends.sound (h : Extends s t) (hjob : s.Sound job) : t.Sound job := by
  cases job with
  | report | update | leave => trivial
  | reported fileId server info infos => exact ⟨hjob.1, h.files _ hjob.2⟩
  | updated p server info => exact h.blocks _ _ hjob
  | note p fileId server info rest => exact ⟨h.blocks _ _ hjob.1, hjob.2⟩
  | noted | grow =>
      obtain ⟨id, hid, hfile⟩ := hjob
      exact ⟨id, h.blocks _ _ hid, hfile⟩
  | drop | clean | cleanLocked => exact hjob.elim
  | get id create c => exact fun hcreate => h.files _ (hjob hcreate)
  | call | finish =>
      obtain ⟨id, hid⟩ := hjob
      exact ⟨id, h.blocks _ _ hid⟩

/-- What a handler refers to is in the table. -/
theorem Sound.stored (hjob : s.Sound job) {p : Nat} (hp : p ∈ job.blocks) :
    ∃ id, s.blocks id = some p := by
  cases job with
  | updated q server info => exact List.mem_singleton.1 hp ▸ ⟨info.id, hjob⟩
  | note q fileId server info rest => exact List.mem_singleton.1 hp ▸ ⟨info.id, hjob.1⟩
  | noted q fileId server newSize rest =>
      obtain ⟨id, hid, -⟩ := hjob
      exact List.mem_singleton.1 hp ▸ ⟨id, hid⟩
  | call | finish => exact List.mem_singleton.1 hp ▸ hjob
  | drop => exact hjob.elim
  | report | reported | update | grow | leave | clean | cleanLocked | get => cases hp

theorem Inv.next_not_mem (h : s.Inv) : s.next ∉ s.tasks.flatMap Job.blocks := by
  intro hmem
  obtain ⟨job, hjob, hp⟩ := List.mem_flatMap.1 hmem
  obtain ⟨id, hid⟩ := (h.sound job hjob).stored hp
  exact absurd (h.known id _ hid) (Nat.lt_irrefl _)

/-- The step of a sound handler deletes no block, and the block that it makes is new and has a
file. -/
inductive Mild (s : MasterState) : Effect → Prop where
  | idle : Mild s .idle
  | acquire (p : Nat) : Mild s (.acquire p)
  | create {id : Int64} : s.blocks id = none → (s.files (fileIdFromBlock id)).isSome →
      Mild s (.create id)
  | call (p : Nat) (c : BlockCall) : Mild s (.call p c)
  | release (p : Nat) : Mild s (.release p)
  | acquireFile (fileId : Int64) : Mild s (.acquireFile fileId)
  | releaseFile (fileId : Int64) : Mild s (.releaseFile fileId)
  | grow (fileId : Int64) (size : UInt32) : Mild s (.grow fileId size)
  | refuse (server : Nat) (info : BlockStatus) : Mild s (.refuse server info)


theorem Mild.extends {e : Effect} (h : Mild s e) : Extends s (s.apply e) := by
  cases h with
  | @create id hnone _ =>
      refine ⟨fun _ hfile => hfile, fun id' p hp => ?_⟩
      rcases eq_or_ne id' id with rfl | hne
      · rw [hnone] at hp
        cases hp
      · simpa only [apply, Function.update_of_ne hne] using hp
  | grow fileId size =>
      refine ⟨fun fileId' hfile => ?_, fun _ _ hp => hp⟩
      rcases eq_or_ne fileId' fileId with rfl | hne
      · simpa only [apply, Function.update_self, Option.isSome_map] using hfile
      · simpa only [apply, Function.update_of_ne hne] using hfile
  | idle | acquire | call | release | acquireFile | releaseFile | refuse =>
      exact ⟨fun _ hfile => hfile, fun _ _ hp => hp⟩

/-- `Get` returns a block of the table. -/
theorem get_stored (s : MasterState) (id : Int64) (create : Bool) (hfile : create = true →
    (s.files (fileIdFromBlock id)).isSome) :
    Mild s (s.get id create).1 ∧
      ∀ p ∈ (s.get id create).2, (s.apply (s.get id create).1).blocks id = some p := by
  rcases s.get_cases id create with ⟨p, hid, hget⟩ | ⟨hid, hcreate, hget⟩ | ⟨-, -, hget⟩
  · rw [hget]
    refine ⟨.acquire p, fun q hq => ?_⟩
    exact hid.trans hq
  · rw [hget]
    refine ⟨.create hid (hfile hcreate), fun q hq => ?_⟩
    simpa only [apply, Function.update_self, Option.mem_def] using hq
  · rw [hget]
    exact ⟨.idle, fun q hq => by cases hq⟩

/-- A sound handler goes on as a sound one, and its step is a mild one. -/
theorem plan_sound (blockSize : Int32) (h : s.Inv) (hjob : s.Sound job) :
    Mild s (s.plan blockSize job).1 ∧
      ∀ job' ∈ (s.plan blockSize job).2, (s.apply (s.plan blockSize job).1).Sound job' := by
  cases job with
  | report server infos =>
      cases infos with
      | nil => exact ⟨.idle, fun job' hmem => by cases hmem⟩
      | cons info infos =>
          simp only [plan]
          split
          next hfile =>
            refine ⟨.acquireFile _, fun job' hmem => ?_⟩
            rw [List.mem_singleton.1 hmem]
            exact ⟨rfl, hfile⟩
          next =>
            refine ⟨.refuse _ _, fun job' hmem => ?_⟩
            rw [List.mem_singleton.1 hmem]
            trivial
  | reported fileId server info infos =>
      obtain ⟨rfl, hfile⟩ := hjob
      obtain ⟨hmild, hstored⟩ := get_stored s info.id true fun _ => hfile
      simp only [plan]
      split
      next e p hget =>
        rw [hget] at hmild hstored
        refine ⟨hmild, fun job' hmem => ?_⟩
        rw [List.mem_singleton.1 hmem]
        exact ⟨hstored p rfl, rfl⟩
      next e hget =>
        rw [hget] at hmild
        refine ⟨hmild, fun job' hmem => ?_⟩
        rw [List.mem_singleton.1 hmem]
        trivial
  | update server info =>
      obtain ⟨hmild, hstored⟩ := get_stored s info.id false
        fun hcreate => by cases hcreate
      simp only [plan]
      split
      next e p hget =>
        rw [hget] at hmild hstored
        refine ⟨hmild, fun job' hmem => ?_⟩
        rw [List.mem_singleton.1 hmem]
        exact hstored p rfl
      next e hget =>
        rw [hget] at hmild
        exact ⟨hmild, fun job' hmem => by cases hmem⟩
  | updated p server info =>
      -- the block is in the table, so its file is in the index
      have hfile := h.indexed _ p hjob
      rw [← h.ids _ p hjob] at hfile
      simp only [plan, if_pos hfile]
      refine ⟨.acquireFile _, fun job' hmem => ?_⟩
      rw [List.mem_singleton.1 hmem, h.ids _ p hjob]
      exact ⟨hjob, rfl⟩
  | note p fileId server info rest =>
      refine ⟨.call p _, fun job' hmem => ?_⟩
      rw [List.mem_singleton.1 hmem]
      exact ⟨info.id, hjob.1, hjob.2⟩
  | noted p fileId server newSize rest =>
      refine ⟨.release p, fun job' hmem => ?_⟩
      rw [List.mem_singleton.1 hmem]
      exact hjob
  | grow p fileId server newSize rest =>
      simp only [plan]
      refine ⟨?_, fun job' hmem => ?_⟩
      · split
        · exact .grow _ _
        · exact .idle
      · rw [List.mem_singleton.1 hmem]
        trivial
  | leave fileId server rest =>
      refine ⟨.releaseFile fileId, fun job' hmem => ?_⟩
      cases rest with
      | none => cases hmem
      | some infos =>
          rw [List.mem_singleton.1 hmem]
          trivial
  | drop | clean | cleanLocked => exact hjob.elim
  | get id create c =>
      obtain ⟨hmild, hstored⟩ := get_stored s id create hjob
      simp only [plan]
      split
      next e p hget =>
        rw [hget] at hmild hstored
        refine ⟨hmild, fun job' hmem => ?_⟩
        rw [List.mem_singleton.1 hmem]
        exact ⟨id, hstored p rfl⟩
      next e hget =>
        rw [hget] at hmild
        exact ⟨hmild, fun job' hmem => by cases hmem⟩
  | call p c =>
      refine ⟨?_, fun job' hmem => ?_⟩
      · cases c with
        | none => exact .idle
        | some c => exact .call p c
      · rw [List.mem_singleton.1 hmem]
        cases c <;> exact hjob
  | finish p => exact ⟨.release p, fun job' hmem => by cases hmem⟩

/-- What is said about a block in the table stays so where an object is changed in place. -/
theorem modify_objects {P : BlockObject → Prop} {p : Nat} {f : BlockObject → BlockObject}
    (hf : ∀ r, P r → P (f r)) {q : Nat} (h : P (s.objects q)) : P ((s.modify p f).objects q) := by
  rcases eq_or_ne q p with rfl | hne
  · simpa only [modify, Function.update_self] using hf _ h
  · simpa only [modify, Function.update_of_ne hne] using h

/-- A mild step keeps what holds of the objects that there are, if it holds of a new one. -/
theorem Mild.objects {e : Effect} (h : Mild s e) {P : BlockObject → Prop}
    (hused : ∀ r used, P r → P { r with used := used })
    (hcall : ∀ r c, P r → P { r with block := r.block.call c }) {q : Nat}
    (hq : P (s.objects q)) (hnew : ∀ id, e = .create id → q = s.next →
      P { block := { id := id }, used := 1 }) : P ((s.apply e).objects q) := by
  cases h with
  | acquire p => exact modify_objects (fun r => hused r _) hq
  | call p c => exact modify_objects (fun r => hcall r c) hq
  | release p => exact modify_objects (fun r => hused r _) hq
  | @create id _ _ =>
      rcases eq_or_ne q s.next with rfl | hne
      · simpa only [apply, Function.update_self] using hnew id rfl rfl
      · simpa only [apply, Function.update_of_ne hne] using hq
  | idle | acquireFile | releaseFile | grow | refuse => exact hq

/-- Behind a mild step a block is in the table as before, or is the new one. -/
theorem Mild.blocks {e : Effect} (h : Mild s e) {id : Int64} {p : Nat}
    (hp : (s.apply e).blocks id = some p) :
    s.blocks id = some p ∨
      (e = .create id ∧ p = s.next ∧ (s.files (fileIdFromBlock id)).isSome) := by
  cases h with
  | @create id' _ hfile =>
      rcases eq_or_ne id id' with rfl | hne
      · simp only [apply, Function.update_self, Option.some.injEq] at hp
        exact .inr ⟨rfl, hp.symm, hfile⟩
      · simp only [apply, Function.update_of_ne hne] at hp
        exact .inl hp
  | idle | acquire | call | release | acquireFile | releaseFile | grow | refuse => exact .inl hp

theorem Mild.next_le {e : Effect} (h : Mild s e) : s.next ≤ (s.apply e).next := by
  cases h with
  | create => exact Nat.le_succ _
  | idle | acquire | call | release | acquireFile | releaseFile | grow | refuse =>
      exact Nat.le_refl _

/-- A mild step that leaves the references balanced keeps the invariant. -/
theorem Inv.apply (h : s.Inv) {e : Effect} (hmild : Mild s e) {tasks : List Job}
    (hblocks : (lost e ++ tasks.flatMap Job.blocks).Perm
      (s.gained e ++ s.tasks.flatMap Job.blocks))
    (hfiles : (lostFiles e ++ tasks.flatMap Job.files).Perm
      (gainedFiles e ++ s.tasks.flatMap Job.files))
    (hsound : ∀ job ∈ tasks, (s.apply e).Sound job) :
    Inv { s.apply e with tasks := tasks } where
  blockCounts := counted_apply h.blockCounts h.next_not_mem hblocks
  fileCounts := counted_applyFiles h.fileCounts hfiles
  known id p hp := by
    rcases hmild.blocks hp with hold | ⟨rfl, rfl, -⟩
    · exact (h.known id p hold).trans_le hmild.next_le
    · exact Nat.lt_succ_self _
  ids id p hp := by
    have hid : ∀ r : BlockObject, r.block.id = id → ∀ c, (r.block.call c).id = id :=
      fun r hr c => (id_call r.block c).trans hr
    rcases hmild.blocks hp with hold | ⟨rfl, rfl, -⟩
    · refine hmild.objects (P := fun r => r.block.id = id) (fun r used hr => hr)
        (fun r c hr => hid r hr c) (h.ids id p hold) fun id' _ hnext => ?_
      exact absurd (h.known id p hold) (hnext ▸ Nat.lt_irrefl _)
    · simp only [MasterState.apply, Function.update_self]
  indexed id p hp := by
    rcases hmild.blocks hp with hold | ⟨-, -, hfile⟩
    · exact hmild.extends.files _ (h.indexed id p hold)
    · exact hmild.extends.files _ hfile
  clear fileId hfile := by
    refine h.clear fileId ?_
    cases hmild with
    | grow fileId' size =>
        rcases eq_or_ne fileId fileId' with rfl | hne
        · simpa only [MasterState.apply, Function.update_self, Option.isSome_map] using hfile
        · simpa only [MasterState.apply, Function.update_of_ne hne] using hfile
    | idle | acquire | create | call | release | acquireFile | releaseFile | refuse => exact hfile
  sound := hsound
  live p := by
    refine hmild.objects (P := fun r => r.freed = false) (fun r used hr => hr) (fun r c hr => hr)
      (h.live p) fun id _ _ => rfl

/-- A sound handler that goes on keeps the invariant. -/
theorem Inv.resume (h : s.Inv) {rest : List Job} (hperm : s.tasks.Perm (job :: rest)) :
    (s.resume blockSize job rest).Inv := by
  have hsound : ∀ job' ∈ job :: rest, s.Sound job' :=
    fun job' hmem => h.sound job' (hperm.mem_iff.2 hmem)
  obtain ⟨hmild, hplan⟩ := plan_sound blockSize h (hsound job List.mem_cons_self)
  obtain ⟨hblocks, hfiles⟩ := plan_refs blockSize s job
  refine h.apply hmild ?_ ?_ fun job' hmem => ?_
  · rw [List.flatMap_append, ← List.append_assoc, hblocks, List.append_assoc]
    exact ((hperm.flatMap_right _).symm).append_left _
  · rw [List.flatMap_append, ← List.append_assoc, hfiles, List.append_assoc]
    exact ((hperm.flatMap_right _).symm).append_left _
  · rcases List.mem_append.1 hmem with hnew | hold
    · exact hplan job' hnew
    · exact hmild.extends.sound (hsound job' (List.mem_cons_of_mem _ hold))

/-- A new handler that has nothing yet keeps the invariant. -/
theorem Inv.fork (h : s.Inv) {heard : List (Nat × BlockStatus)} (hblocks : job.blocks = [])
    (hfiles : job.files = []) (hjob : s.Sound job) : (s.fork job heard).Inv where
  blockCounts := by
    rw [MasterState.fork, List.flatMap_cons, hblocks, List.nil_append]
    exact h.blockCounts
  fileCounts := by
    rw [MasterState.fork, List.flatMap_cons, hfiles, List.nil_append]
    exact h.fileCounts
  known := h.known
  ids := h.ids
  indexed := h.indexed
  clear := h.clear
  sound job' hmem := by
    rcases List.mem_cons.1 hmem with rfl | hold
    · exact hjob
    · exact h.sound job' hold
  live := h.live

/-- A new file in the index keeps the invariant. -/
theorem Inv.addFile (h : s.Inv) {fileId : Int64} (hclear : FileSystem.IndexClear fileId)
    (size : UInt32) :
    Inv { s with files := Function.update s.files fileId (some size) } := by
  have hextends : Extends s { s with files := Function.update s.files fileId (some size) } := by
    refine ⟨fun fileId' hfile => ?_, fun _ _ hp => hp⟩
    rcases eq_or_ne fileId' fileId with rfl | hne
    · simp only [Function.update_self, Option.isSome_some]
    · simpa only [Function.update_of_ne hne] using hfile
  exact {
    blockCounts := h.blockCounts
    fileCounts := h.fileCounts
    known := h.known
    ids := h.ids
    indexed := fun id p hp => hextends.files _ (h.indexed id p hp)
    clear := fun fileId' hfile => by
      rcases eq_or_ne fileId' fileId with rfl | hne
      · exact hclear
      · exact h.clear fileId' (by simpa only [Function.update_of_ne hne] using hfile)
    sound := fun job hmem => hextends.sound (h.sound job hmem)
    live := h.live }

/-- A request for a block that there is. -/
theorem Inv.request (h : s.Inv) {fileId : Int64} {index : Int32} {c : Option BlockCall}
    (hstep : s.request blockSize fileId index c = some t) : t.Inv := by
  rw [MasterState.request, Option.map_eq_some_iff] at hstep
  obtain ⟨size, -, rfl⟩ := hstep
  split
  next => exact h
  next => exact h.fork rfl rfl fun hcreate => by cases hcreate

theorem Inv.step (h : s.Inv) {a : MasterAct} (hnamed : s.Named a)
    (hstep : s.step blockSize a = some t) : t.Inv := by
  cases a with
  | addFile fileId =>
      cases hstep
      exact h.addFile hnamed _
  | onReport | onUpdate =>
      cases hstep
      exact h.fork rfl rfl trivial
  | onClean server blockId =>
      cases hstep
      exact h.fork rfl rfl fun hcreate => by cases hcreate
  | read fileId index => exact h.request hstep
  | write fileId index e => exact h.request hstep
  | append fileId e =>
      simp only [MasterState.step, Option.map_eq_some_iff] at hstep
      obtain ⟨size, hfile, rfl⟩ := hstep
      have hsome : (s.files fileId).isSome := Option.isSome_of_eq_some hfile
      refine h.fork rfl rfl fun _ => ?_
      -- the block to append to is one of the file
      rw [fileIdFromBlock_blockId (h.clear fileId hsome)]
      exact hsome
  | checkReplica blockId e =>
      simp only [MasterState.step, Option.map_eq_some_iff] at hstep
      obtain ⟨p, -, rfl⟩ := hstep
      exact h.apply (.call p _) (.refl _) (.refl _)
        fun job hmem => (Mild.call p _).extends.sound (h.sound job hmem)
  | run i =>
      simp only [MasterState.step, Option.map_eq_some_iff] at hstep
      obtain ⟨job, hjob, rfl⟩ := hstep
      obtain ⟨hlt, rfl⟩ := List.getElem?_eq_some_iff.1 hjob
      exact h.resume (List.getElem_cons_eraseIdx_perm hlt).symm

/-- What is in the tables is not taken out. -/
theorem Inv.extends_step (h : s.Inv) {a : MasterAct} (hstep : s.step blockSize a = some t) :
    Extends s t := by
  have hfork : ∀ job heard, Extends s (s.fork job heard) :=
    fun job heard => ⟨fun _ hfile => hfile, fun _ _ hp => hp⟩
  have hrequest : ∀ fileId index c, s.request blockSize fileId index c = some t →
      Extends s t := by
    intro fileId index c hrequest
    rw [MasterState.request, Option.map_eq_some_iff] at hrequest
    obtain ⟨size, -, rfl⟩ := hrequest
    split
    next => exact ⟨fun _ hfile => hfile, fun _ _ hp => hp⟩
    next => exact hfork _ _
  cases a with
  | addFile fileId =>
      cases hstep
      refine ⟨fun fileId' hfile => ?_, fun _ _ hp => hp⟩
      rcases eq_or_ne fileId' fileId with rfl | hne
      · simp only [Function.update_self, Option.isSome_some]
      · simpa only [Function.update_of_ne hne] using hfile
  | onReport | onUpdate | onClean =>
      cases hstep
      exact hfork _ _
  | read fileId index => exact hrequest _ _ _ hstep
  | write fileId index e => exact hrequest _ _ _ hstep
  | append fileId e =>
      simp only [MasterState.step, Option.map_eq_some_iff] at hstep
      obtain ⟨size, -, rfl⟩ := hstep
      exact hfork _ _
  | checkReplica blockId e =>
      simp only [MasterState.step, Option.map_eq_some_iff] at hstep
      obtain ⟨p, -, rfl⟩ := hstep
      exact (Mild.call p _).extends
  | run i =>
      simp only [MasterState.step, Option.map_eq_some_iff] at hstep
      obtain ⟨job, hjob, rfl⟩ := hstep
      have hmild := (plan_sound blockSize h (h.sound job (List.mem_of_getElem? hjob))).1
      exact ⟨hmild.extends.files, hmild.extends.blocks⟩

end MasterState

/-- A master that has started: the files that were loaded, without a size and a block. -/
structure MasterState.Started (s : MasterState) : Prop where
  fresh : s = { files := s.files }
  loaded : ∀ fileId size, s.files fileId = some size → size = 0 ∧ FileSystem.IndexClear fileId

/-- The runs of the master. -/
def masterSystem (blockSize : Int32) : System MasterState MasterAct :=
  ofStep MasterState.Started (MasterState.step blockSize)

namespace MasterState

/-- No block was deleted or leaves the table, and the counts are the numbers of the handlers
that have the block or the file. -/
structure Safe (blockSize : Int32) (s : MasterState) : Prop where
  live : ∀ p, (s.objects p).freed = false
  stay : ∀ a t, s.step blockSize a = some t → ∀ id p, s.blocks id = some p → t.blocks id = some p
  used : ∀ p, (s.objects p).used = Int32.ofNat (s.tasks.countP (p ∈ ·.blocks))
  fileUsed : ∀ f, s.fileUsed f = Int32.ofNat (s.tasks.countP (f ∈ ·.files))

theorem Inv.of_started {s : MasterState} (h : s.Started) : s.Inv := by
  obtain ⟨hfresh, hloaded⟩ := h
  rw [hfresh]
  exact {
    blockCounts := fun _ => rfl
    fileCounts := fun _ => rfl
    known := fun _ _ hp => by cases hp
    ids := fun _ _ hp => by cases hp
    indexed := fun _ _ hp => by cases hp
    clear := fun fileId hfile => by
      obtain ⟨size, hsize⟩ := Option.isSome_iff_exists.1 hfile
      exact (hloaded fileId size hsize).2
    sound := fun _ hmem => by cases hmem
    live := fun _ => rfl }

/-- Nothing is loaded where there is no file to load from. -/
theorem started_empty : Started {} where
  fresh := rfl
  loaded _ _ hfile := by cases hfile

theorem inv_of_run {blockSize : Int32} {s : MasterState}
    (hr : (masterSystem blockSize).Run Named s) : s.Inv := by
  exact hr.invariant (fun _ hstarted => .of_started hstarted)
    fun _ _ _ h hnamed hstep => h.step hnamed hstep

/-- A handler has a block or a file once. -/
theorem count_flatMap {α : Type} [DecidableEq α] {f : Job → List α}
    (hf : ∀ job, (f job).length ≤ 1) (tasks : List Job) (x : α) :
    (tasks.flatMap f).count x = tasks.countP (x ∈ f ·) := by
  induction tasks with
  | nil => rfl
  | cons job tasks ih =>
      rw [List.flatMap_cons, List.count_append, ih, List.countP_cons, Nat.add_comm]
      have hone := hf job
      rcases hlist : f job with _ | ⟨y, _ | ⟨z, ys⟩⟩
      · simp
      · rcases eq_or_ne x y with rfl | hne
        · simp
        · simp [hne, hne.symm]
      · simp [hlist] at hone

end MasterState

open MasterState

/-- However the handlers of the master come between each other, none deletes a block, none
leaves one acquired, and so each looks at a block that is there. -/
theorem handlers_safe {blockSize : Int32} {s : MasterState}
    (hr : (masterSystem blockSize).Run Named s) : s.Safe blockSize where
  live := (inv_of_run hr).live
  stay a t hstep := ((inv_of_run hr).extends_step hstep).blocks
  used p := by
    have hone : ∀ job : Job, job.blocks.length ≤ 1 := by
      intro job
      cases job <;> simp [Job.blocks]
    exact ((inv_of_run hr).blockCounts p).trans (by rw [count_flatMap hone])
  fileUsed f := by
    have hone : ∀ job : Job, job.files.length ≤ 1 := by
      intro job
      cases job <;> simp [Job.files]
    exact ((inv_of_run hr).fileCounts f).trans (by rw [count_flatMap hone])

/-- A file, a report of its first block by one server, and an update by another one that comes
while the report still has the block. -/
def reportAndUpdate : List MasterAct :=
  [.addFile 0x80000000, .onReport 1 [⟨0x80000400, 1, 10, false⟩], .run 0, .run 0,
    .onUpdate 2 ⟨0x80000400, 2, 20, false⟩, .run 0, .run 1]

theorem handlers_safe_report :
    ∃ s, exec (MasterState.step 4096) {} reportAndUpdate = some s ∧ s.Safe 4096 ∧
      (s.objects 0).used = 2 := by
  have hg : Guarded (MasterState.step 4096) Named {} reportAndUpdate := by decide
  exact ⟨_, rfl, handlers_safe (exec_run (.start started_empty) hg rfl), by decide⟩

end Ofs.Master
