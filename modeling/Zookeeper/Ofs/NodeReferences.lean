import Zookeeper.Ofs.BlockRecovery
import Zookeeper.References

/-!
# References to the blocks of a chunk server

A handler of `NodeService` or `ClientService` acquires its block with
`BlockManager::Get` and releases it at its end.  `Block::StartRecover` acquires it once
more for a coroutine that copies it, and `BlockManager::Clean` removes a block that is not
used.  Every object has a number, and what refers to it is the list of the tasks that run.

The coroutine returns early, without its `Release`, if the block is behind the version or
the lease is over, and an exception leaves a task without one too.  Such a block is used
for ever (`stale_recover_leaks`).  `references_balance` says that in a run without these
the counts are those of the tasks, and a block without one can be removed.
-/

namespace Ofs.Node

/-! ## Blocks and calls -/

/-- `ofs::Block` with its `RefObject`. -/
structure RefBlock where
  block : RecoverableBlock
  fault : Bool := false
  used : Int32 := 0

namespace RefBlock

/-- `RefObject::IsUsed`. -/
def isUsed (r : RefBlock) : Bool := decide (0 < r.used)

/-- `RefObject::Acquire`. -/
def acquire (r : RefBlock) : RefBlock := { r with used := r.used + 1 }

/-- `RefObject::Release`. -/
def release (r : RefBlock) : RefBlock := { r with used := r.used - 1 }

end RefBlock

/-- The sizes `BlockManager` reads from the configuration. -/
structure BlockSizes where
  batchSize : Nat
  blockSize : Int32

/-- What a task finds outside: the clock, the size it saw before it took the lock, and how
its file calls end. -/
structure TaskEnv where
  now : Int64 := 0
  seen : Int32 := 0
  dataIo : FileIo := {}
  metaIo : FileIo := {}
  resized : Bool := true

/-- The call of a handler on its block. -/
inductive BlockCall where
  | read (offset : Int32)
  | write (exceptVersion newVersion : Int64) (offset : Int32) (data : Payload) (strict : Bool)
  | append (exceptVersion newVersion : Int64) (data : Payload) (strict : Bool)
  /-- The loop of `OnRecoverBlock`, for the rest of `copyto`. -/
  | startRecover (version lease : Int64) (copyTo : List Int32)
  | resize (version : Int64) (size : Int32)
  | recoverData (version : Int64) (offset : Int32) (data : Bytes)
  | completeRecover (version : Int64)

namespace BlockCall

variable (sizes : BlockSizes) (env : TaskEnv) (b : RecoverableBlock)

/-- The block behind the call. -/
def perform : BlockCall → RecoverableBlock
  | .read _ => b
  | .write exceptVersion newVersion offset data strict =>
      (b.write env.seen exceptVersion newVersion offset data strict env.dataIo env.metaIo).1
  | .append exceptVersion newVersion data strict =>
      (b.append sizes.blockSize exceptVersion newVersion data strict env.dataIo env.metaIo).1
  | .startRecover _ _ _ => b
  | .resize version size => b.resize sizes.batchSize version size env.resized
  | .recoverData version offset data => b.recoverData sizes.batchSize version offset data env.dataIo
  | .completeRecover version => (b.completeRecover version env.metaIo).1

/-- The call ends with an exception: from the buffer of a read, or, where a recovery begins
or is replaced, from its flags or from `fs::resize_file`. -/
def throws : BlockCall → Bool
  | .read offset =>
      ((b.stored env.seen).read offset (Int32.ofNat sizes.batchSize) env.dataIo).1.isNone
  | .resize version size =>
      decide (b.info.version < version ∧ (∀ r ∈ b.recover, r.version < version) ∧
        (size < 0 ∨ env.resized = false))
  | _ => false

end BlockCall

/-! ## Requests -/

/-- `api::chunk::BlockLease`, what the handlers read of it. -/
structure ChunkLease where
  id : Int64
  leaseUntil : Int64
  version : Int64
  newVersion : Int64

/-- The messages of `NodeService`, apart from `OnCleanBlock`, and the requests of
`ClientService`. -/
inductive NodeRequest where
  | onWrite (blockId version newVersion : Int64) (offset : Int32) (data : Payload)
  | onAppend (blockId version newVersion : Int64) (data : Payload)
  | onRecoverBlock (blockId version lease : Int64) (copyTo : List Int32)
  | onRecoverBlockStart (blockId version : Int64) (size : Int32)
  | onRecoverBlockData (blockId version : Int64) (offset : Int32) (data : Bytes)
  | onRecoverBlockComplete (blockId version : Int64)
  | read (blockId : Int64) (offset : Int32)
  | write (lease : ChunkLease) (offset : Int32) (data : Payload)
  | append (lease : ChunkLease) (data : Payload)

/-- The block that a handler gets, whether it creates it, and its call. -/
def NodeRequest.target (sizes : BlockSizes) (now : Int64) :
    NodeRequest → Option (Int64 × Bool × BlockCall)
  | .onWrite blockId version newVersion offset data =>
      some (blockId, false, .write version newVersion offset data true)
  | .onAppend blockId version newVersion data =>
      some (blockId, true, .append version newVersion data true)
  | .onRecoverBlock blockId version lease copyTo =>
      some (blockId, false, .startRecover version lease copyTo)
  | .onRecoverBlockStart blockId version size => some (blockId, true, .resize version size)
  | .onRecoverBlockData blockId version offset data =>
      some (blockId, false, .recoverData version offset data)
  | .onRecoverBlockComplete blockId version => some (blockId, false, .completeRecover version)
  | .read blockId offset => some (blockId, false, .read offset)
  | .write lease offset data =>
      if lease.leaseUntil < now then none
      else if data.bytes.length ≠ sizes.batchSize then none
      else some (lease.id, false, .write lease.version lease.newVersion offset data false)
  | .append lease data =>
      if lease.leaseUntil < now then none
      else if data.bytes.length ≠ sizes.batchSize then none
      else some (lease.id, true, .append lease.version lease.newVersion data false)

/-! ## Tasks -/

/-- What a task still has to do. -/
inductive Job where
  | call (c : BlockCall)
  /-- The end of a handler, its `Release`. -/
  | finish
  /-- The coroutine of `StartRecover`. -/
  | copy (version lease : Int64) (copyTo : Int32)

/-- A handler or a coroutine, with its object. -/
structure Task where
  object : Nat
  job : Job

/-- A chunk server: its objects, `BlockManager::_blocks` and the tasks. -/
structure NodeState where
  objects : Nat → RefBlock
  /-- The number of the next object. -/
  next : Nat
  blocks : Int64 → Option Nat
  tasks : List Task := []

inductive NodeStep where
  /-- A handler gets its block.  The data file of a block that it creates may be there. -/
  | enter (req : NodeRequest) (now : Int64) (file : Option Bytes)
  /-- The `i`th task goes on. -/
  | run (i : Nat) (env : TaskEnv)
  /-- `OnCleanBlock`. -/
  | clean (blockId : Int64)

namespace NodeState

/-- An object is changed in place. -/
def modify (s : NodeState) (p : Nat) (f : RefBlock → RefBlock) : NodeState :=
  { s with objects := Function.update s.objects p (f (s.objects p)) }

/-- A new block in the table. -/
def create (s : NodeState) (blockId : Int64) (file : Option Bytes) : NodeState :=
  { s with
    objects := Function.update s.objects s.next { block := { info := { id := blockId }, file } }
    next := s.next + 1
    blocks := Function.update s.blocks blockId (some s.next) }

/-- `BlockManager::Get`. -/
def get (s : NodeState) (blockId : Int64) (create : Bool) (file : Option Bytes) :
    NodeState × Option Nat :=
  match s.blocks blockId with
  | some p => (s.modify p RefBlock.acquire, some p)
  | none =>
      if create then ((s.create blockId file).modify s.next RefBlock.acquire, some s.next)
      else (s, none)

/-- A handler, up to its call. -/
def enter (sizes : BlockSizes) (s : NodeState) (req : NodeRequest) (now : Int64)
    (file : Option Bytes) : NodeState :=
  match req.target sizes now with
  | none => s
  | some (blockId, create, call) =>
      match s.get blockId create file with
      | (s, some p) => { s with tasks := ⟨p, .call call⟩ :: s.tasks }
      | (s, none) => s

/-- A task goes on, with the tasks beside it. -/
def resume (sizes : BlockSizes) (env : TaskEnv) (s : NodeState) (t : Task) (rest : List Task) :
    NodeState :=
  match t.job with
  | .call (.startRecover version lease (copyTo :: more)) =>
      let s := { s with tasks := ⟨t.object, .call (.startRecover version lease more)⟩ :: rest }
      if (s.objects t.object).fault then s
      else
        { s.modify t.object RefBlock.acquire with
          tasks := ⟨t.object, .copy version lease copyTo⟩ :: s.tasks }
  | .call c =>
      let b := (s.objects t.object).block
      { s.modify t.object (fun r => { r with block := c.perform sizes env b }) with
        tasks := if c.throws sizes env b then rest else ⟨t.object, .finish⟩ :: rest }
  | .finish => { s.modify t.object RefBlock.release with tasks := rest }
  | .copy version lease _ =>
      let b := (s.objects t.object).block
      -- two early returns, and an exception of `fs::file_size`
      if b.info.version < version ∨ lease ≤ env.now ∨ b.file = none then { s with tasks := rest }
      else { s.modify t.object RefBlock.release with tasks := rest }

/-- `BlockManager::Clean`.  The object of a block that is removed is in no table. -/
def clean (s : NodeState) (blockId : Int64) : NodeState :=
  match s.blocks blockId with
  | none => s
  | some p =>
      if (s.objects p).isUsed then s
      else { s with blocks := Function.update s.blocks blockId none }

def step (sizes : BlockSizes) (s : NodeState) : NodeStep → Option NodeState
  | .enter req now file => some (s.enter sizes req now file)
  | .run i env =>
      match s.tasks[i]? with
      | none => none
      | some t => some (s.resume sizes env t (s.tasks.eraseIdx i))
  | .clean blockId => some (s.clean blockId)

/-- The blocks that are loaded.  Nothing runs yet. -/
structure Loaded (s : NodeState) : Prop where
  tasks : s.tasks = []
  used : ∀ p, (s.objects p).used = 0
  known : ∀ blockId, ∀ p ∈ s.blocks blockId, p < s.next

end NodeState

/-- The runs of a chunk server. -/
def nodeSystem (sizes : BlockSizes) : Transition.System NodeState NodeStep :=
  Transition.ofStep NodeState.Loaded (NodeState.step sizes)

/-! ## What is to hold -/

/-- A task goes on to its `Release`: a call does not end with an exception, and a coroutine
finds a block that is not behind the version, a lease that is not over and a data file. -/
def Job.Orderly (sizes : BlockSizes) (env : TaskEnv) (b : RecoverableBlock) : Job → Prop
  | .call c => c.throws sizes env b = false
  | .finish => True
  | .copy version lease _ => version ≤ b.info.version ∧ env.now < lease ∧ b.file ≠ none

instance (sizes : BlockSizes) (env : TaskEnv) (b : RecoverableBlock) :
    ∀ job : Job, Decidable (job.Orderly sizes env b)
  | .call _ => inferInstanceAs (Decidable (_ = false))
  | .finish => inferInstanceAs (Decidable True)
  | .copy _ _ _ => inferInstanceAs (Decidable (_ ∧ _ ∧ _))

namespace NodeState

/-- The task that goes on does so orderly. -/
def Orderly (sizes : BlockSizes) (s : NodeState) : NodeStep → Prop
  | .run i env => ∀ t ∈ s.tasks[i]?, t.job.Orderly sizes env (s.objects t.object).block
  | _ => True

instance (sizes : BlockSizes) (s : NodeState) : ∀ a, Decidable (s.Orderly sizes a)
  | .run i _ => inferInstanceAs (Decidable (∀ t ∈ s.tasks[i]?, _))
  | .enter _ _ _ => inferInstanceAs (Decidable True)
  | .clean _ => inferInstanceAs (Decidable True)

/-- No task has the object. -/
def Unheld (s : NodeState) (p : Nat) : Prop := ∀ t ∈ s.tasks, t.object ≠ p

instance (s : NodeState) (p : Nat) : Decidable (s.Unheld p) :=
  inferInstanceAs (Decidable (∀ t ∈ s.tasks, _))

/-- What is not held is not used, and `Clean` removes a block that is not held. -/
structure Balanced (s : NodeState) : Prop where
  unused : ∀ p, s.Unheld p → (s.objects p).used = 0
  cleaned : ∀ blockId, ∀ p ∈ s.blocks blockId, s.Unheld p →
    (s.clean blockId).blocks blockId = none

/-! ## Counting -/

/-- The counts of the objects are the numbers of the references. -/
def Counts (s : NodeState) (refs : List Nat) : Prop :=
  References.Counted (fun p => (s.objects p).used) refs

variable {s : NodeState} {refs : List Nat} {p : Nat} {sizes : BlockSizes}

theorem used_modify (s : NodeState) (p : Nat) (f : RefBlock → RefBlock) :
    (fun q => ((s.modify p f).objects q).used) =
      Function.update (fun q => (s.objects q).used) p (f (s.objects p)).used := by
  funext q
  rcases eq_or_ne q p with rfl | hne
  · simp only [modify, Function.update_self]
  · simp only [modify, Function.update_of_ne hne]

theorem Counts.acquire (h : s.Counts refs) (p : Nat) :
    (s.modify p RefBlock.acquire).Counts (p :: refs) := by
  rw [Counts, used_modify]
  exact References.Counted.acquire h p

theorem Counts.release (h : s.Counts (p :: refs)) : (s.modify p RefBlock.release).Counts refs := by
  rw [Counts, used_modify]
  exact References.Counted.release h

/-- A call leaves the count. -/
theorem Counts.call (h : s.Counts refs) (p : Nat) (f : RefBlock → RecoverableBlock) :
    (s.modify p fun r => { r with block := f r }).Counts refs := by
  rw [Counts, used_modify, Function.update_eq_self_iff.2 rfl]
  exact h

/-- The counts are those of the tasks, and objects have numbers below the next one. -/
structure Inv (s : NodeState) : Prop where
  counts : s.Counts (s.tasks.map Task.object)
  known : ∀ blockId, ∀ p ∈ s.blocks blockId, p < s.next
  held : ∀ t ∈ s.tasks, t.object < s.next

theorem Inv.of_loaded (h : s.Loaded) : s.Inv where
  counts p := by
    rw [h.tasks]
    exact h.used p
  known := h.known
  held t ht := by
    rw [h.tasks] at ht
    cases ht

theorem Inv.not_mem (h : s.Inv) : s.next ∉ s.tasks.map Task.object := by
  intro hmem
  obtain ⟨t, ht, hnext⟩ := List.mem_map.1 hmem
  exact absurd hnext (h.held t ht).ne

/-- Nothing refers to a new object. -/
theorem Inv.create (h : s.Inv) (blockId : Int64) (file : Option Bytes) :
    (s.create blockId file).Inv where
  counts q := by
    rcases eq_or_ne q s.next with rfl | hne
    · simp only [NodeState.create, Function.update_self]
      rw [List.count_eq_zero_of_not_mem h.not_mem]
      rfl
    · simp only [NodeState.create, Function.update_of_ne hne]
      exact h.counts q
  known id q hq := by
    rcases eq_or_ne id blockId with rfl | hne
    · simp only [NodeState.create, Function.update_self, Option.mem_def, Option.some.injEq] at hq
      exact hq ▸ Nat.lt_succ_self _
    · simp only [NodeState.create, Function.update_of_ne hne] at hq
      exact Nat.lt_succ_of_lt (h.known id q hq)
  held t ht := Nat.lt_succ_of_lt (h.held t ht)

/-- A task gets one more reference to an object. -/
theorem Inv.acquire (h : s.Inv) (hp : p < s.next) (job : Job) :
    Inv { s.modify p RefBlock.acquire with tasks := ⟨p, job⟩ :: s.tasks } where
  counts := h.counts.acquire p
  known := h.known
  held t ht := by
    rcases List.mem_cons.1 ht with rfl | hrest
    · exact hp
    · exact h.held t hrest

/-- A handler acquires its block for its task. -/
theorem Inv.enter (h : s.Inv) (req : NodeRequest) (now : Int64) (file : Option Bytes) :
    (s.enter sizes req now file).Inv := by
  rw [NodeState.enter]
  cases req.target sizes now with
  | none => exact h
  | some target =>
      obtain ⟨blockId, create, call⟩ := target
      cases hblock : s.blocks blockId with
      | some p =>
          simp only [NodeState.get, hblock]
          exact h.acquire (h.known blockId p hblock) (.call call)
      | none =>
          simp only [NodeState.get, hblock]
          cases create with
          | true => exact (h.create blockId file).acquire (Nat.lt_succ_self _) (.call call)
          | false => exact h

theorem Inv.clean (h : s.Inv) (blockId : Int64) : (s.clean blockId).Inv := by
  rw [NodeState.clean]
  split
  next => exact h
  next =>
    split
    next => exact h
    next =>
      refine ⟨h.counts, fun id q hq => ?_, h.held⟩
      rcases eq_or_ne id blockId with rfl | hne
      · simp [Function.update_self] at hq
      · simp only [Function.update_of_ne hne] at hq
        exact h.known id q hq

/-- The task that goes on is one of the tasks. -/
theorem Inv.front (h : s.Inv) {t : Task} {rest : List Task} (hperm : s.tasks.Perm (t :: rest)) :
    Inv { s with tasks := t :: rest } where
  counts := h.counts.perm (hperm.map _)
  known := h.known
  held u hu := h.held u (hperm.mem_iff.2 hu)

/-- The task in front goes on with the same object. -/
theorem Inv.job {t : Task} {rest : List Task} (h : Inv { s with tasks := t :: rest }) (job : Job) :
    Inv { s with tasks := ⟨t.object, job⟩ :: rest } where
  counts := h.counts
  known := h.known
  held u hu := by
    rcases List.mem_cons.1 hu with rfl | hrest
    · exact h.held t List.mem_cons_self
    · exact h.held u (List.mem_cons_of_mem _ hrest)

/-- A call leaves the references. -/
theorem Inv.call (h : s.Inv) (p : Nat) (f : RefBlock → RecoverableBlock) :
    (s.modify p fun r => { r with block := f r }).Inv where
  counts := h.counts.call p f
  known := h.known
  held := h.held

/-- The task in front ends with a `Release`. -/
theorem Inv.release {t : Task} {rest : List Task} (h : Inv { s with tasks := t :: rest }) :
    Inv { s.modify t.object RefBlock.release with tasks := rest } where
  counts := h.counts.release
  known := h.known
  held u hu := h.held u (List.mem_cons_of_mem _ hu)

/-- A task that goes on orderly keeps its reference until it releases it. -/
theorem Inv.resume (h : s.Inv) {t : Task} {rest : List Task} (hperm : s.tasks.Perm (t :: rest))
    {env : TaskEnv} (horderly : t.job.Orderly sizes env (s.objects t.object).block) :
    (s.resume sizes env t rest).Inv := by
  have hfront := h.front hperm
  rw [NodeState.resume]
  split
  next version lease copyTo more hjob =>
    have hmore := hfront.job (.call (.startRecover version lease more))
    dsimp only
    split
    next => exact hmore
    next => exact hmore.acquire (hfront.held t List.mem_cons_self) (.copy version lease copyTo)
  next c _ hjob =>
    rw [hjob, Job.Orderly] at horderly
    simp only [horderly, Bool.false_eq_true, if_false]
    exact (hfront.job .finish).call t.object fun _ => c.perform sizes env (s.objects t.object).block
  next hjob => exact hfront.release
  next version lease copyTo hjob =>
    rw [hjob] at horderly
    obtain ⟨hversion, hlease, hfile⟩ := horderly
    rw [if_neg]
    · exact hfront.release
    · rintro (hbehind | hover | hnone)
      · exact Int64.not_lt.2 hversion hbehind
      · exact Int64.not_le.2 hlease hover
      · exact hfile hnone

end NodeState

namespace NodeState

variable {s s' : NodeState} {sizes : BlockSizes}

/-- A step whose task goes on orderly keeps the counts. -/
theorem Inv.step (h : s.Inv) {a : NodeStep} (horderly : s.Orderly sizes a)
    (hstep : s.step sizes a = some s') : s'.Inv := by
  cases a with
  | enter req now file =>
      cases hstep
      exact h.enter req now file
  | run i env =>
      simp only [NodeState.step] at hstep
      cases ht : s.tasks[i]? with
      | none =>
          rw [ht] at hstep
          cases hstep
      | some t =>
          rw [ht] at hstep
          cases hstep
          obtain ⟨hlt, rfl⟩ := List.getElem?_eq_some_iff.1 ht
          exact h.resume (List.getElem_cons_eraseIdx_perm hlt).symm (horderly _ ht)
  | clean blockId =>
      cases hstep
      exact h.clean blockId

/-- What is not held is not used. -/
theorem Inv.unused (h : s.Inv) {p : Nat} (hfree : s.Unheld p) : (s.objects p).used = 0 := by
  refine h.counts.zero fun hmem => ?_
  obtain ⟨t, ht, hp⟩ := List.mem_map.1 hmem
  exact hfree t ht hp

theorem Inv.balanced (h : s.Inv) : s.Balanced where
  unused _ hfree := h.unused hfree
  cleaned blockId p hp hfree := by
    have hidle : (s.objects p).isUsed = false := by
      rw [RefBlock.isUsed, h.unused hfree]
      rfl
    rw [Option.mem_def] at hp
    simp only [NodeState.clean, hp, hidle, Bool.false_eq_true, if_false, Function.update_self]

end NodeState

/-- In a run whose tasks go on to their `Release`, an object that no task has is not used,
and its block can be removed. -/
theorem references_balance {sizes : BlockSizes} {s : NodeState}
    (hr : (nodeSystem sizes).Run (NodeState.Orderly sizes) s) : s.Balanced := by
  refine NodeState.Inv.balanced (hr.invariant (fun _ hloaded => .of_loaded hloaded) ?_)
  intro _ _ _ hinv horderly hstep
  exact hinv.step horderly hstep

/-- A chunk server with one block, in version 1. -/
def oneBlock : NodeState where
  objects _ := { block := { info := { id := 7, version := 1, size := 2 }, file := some [1, 2] } }
  next := 1
  blocks id := if id = 7 then some 0 else none

theorem loaded_oneBlock : oneBlock.Loaded where
  tasks := rfl
  used _ := rfl
  known id p hp := by
    simp only [oneBlock, Option.mem_def, Option.ite_none_right_eq_some, Option.some.injEq] at hp
    rw [← hp.2]
    exact Nat.zero_lt_one

/-- The block is copied to one server, in a version, and everything ends. -/
def recoverOnce (version : Int64) : List NodeStep :=
  [.enter (.onRecoverBlock 7 version 100 [3]) 0 none, .run 0 {}, .run 0 {}, .run 0 {}, .run 0 {}]

theorem references_balance_recover :
    ∃ s, Transition.exec (NodeState.step ⟨2, 4096⟩) oneBlock (recoverOnce 1) = some s ∧
      s.Balanced := by
  have hexec : (Transition.exec (NodeState.step ⟨2, 4096⟩) oneBlock (recoverOnce 1)).isSome :=
    rfl
  obtain ⟨s, hs⟩ := Option.isSome_iff_exists.1 hexec
  exact ⟨s, hs, references_balance
    (Transition.exec_run (.start loaded_oneBlock) (by decide) hs)⟩

/-- In a version that the block does not have yet, its copy leaves it used. -/
theorem stale_recover_leaks :
    ¬ ∀ sizes s, (nodeSystem sizes).Reachable s → s.Balanced := by
  intro h
  have hexec : ∃ s, Transition.exec (NodeState.step ⟨2, 4096⟩) oneBlock (recoverOnce 2) = some s ∧
      s.Unheld 0 ∧ (s.objects 0).used = 1 := ⟨_, rfl, by decide, by decide⟩
  obtain ⟨s, hs, hfree, hused⟩ := hexec
  have hzero := (h _ s (Transition.exec_reachable loaded_oneBlock hs)).unused 0 hfree
  rw [hused] at hzero
  exact absurd hzero (by decide)

end Ofs.Node
