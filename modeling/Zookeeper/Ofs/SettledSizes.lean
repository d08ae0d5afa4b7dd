import Mathlib.Order.Bounds.Defs
import Zookeeper.Ofs.MasterTasks

/-!
# The sizes that reports add up to

A report may make a block longer.  The handler then takes the size of the file from that of
the block, behind the lock of the block, and hands it to `UpdateSize`.  Handlers of other
reports come in between, and may get there first (`ofs/master/chunk/DataNodeService.cpp`).

A block whose size is not in its file yet has a handler that is on the way with it
(`MasterState.Sizes`).  So when no handler runs, the size of a file is the greatest that the
sizes of its blocks give, as `sizes_settle` says.
-/

namespace Ofs.Master

open Transition FileSystem

namespace MasterState

/-- A call that is not a report. -/
def Quiet : BlockCall → Prop
  | .updateReplica .. | .reportReplica .. => False
  | _ => True

theorem grown_of_quiet {c : BlockCall} (h : Quiet c) (b : Block) : b.grown c = 0 := by
  cases c with
  | write | clearReplica | checkReplica => rfl
  | updateReplica | reportReplica => exact h.elim

theorem size_note (b : Block) (i : Nat) (version : Int64) (size : Int) (fault : Bool) :
    (b.note i version size fault).2 = 0 ∧ (b.note i version size fault).1.size = b.size ∨
      b.size < (b.note i version size fault).2 ∧
        (b.note i version size fault).1.size = (b.note i version size fault).2 := by
  rw [Block.note]
  dsimp only
  split
  next => exact .inl ⟨rfl, rfl⟩
  next =>
    split
    all_goals
      split
      all_goals
        split
        next hlt => exact .inr ⟨hlt, rfl⟩
        next => exact .inl ⟨rfl, rfl⟩

theorem size_write (cfg : Config) (b : Block) (useAble : Nat → Bool) (ds : List Nat) (now : Nat) :
    (b.write cfg useAble ds now).1.size = b.size := by
  have hplace : (b.place ds).size = b.size := by
    rw [Block.place]
    split <;> rfl
  rw [Block.write_eq]
  split
  next =>
    simp only [Block.grant]
    exact hplace
  next => exact hplace

theorem size_quiet {c : BlockCall} (h : Quiet c) (b : Block) : (b.call c).size = b.size := by
  cases c with
  | write e => exact size_write ..
  | updateReplica | reportReplica => exact h.elim
  | clearReplica server => rfl
  | checkReplica e =>
      rw [Block.call, Block.checkReplica]
      split
      next => rfl
      next =>
        split
        next => rfl
        next =>
          split
          next => rfl
          next =>
            dsimp only
            split
            next => split <;> rfl
            next => split <;> rfl

/-- A call leaves the size, or makes the block longer and returns its new size. -/
theorem size_call (b : Block) (c : BlockCall) :
    b.grown c = 0 ∧ (b.call c).size = b.size ∨
      b.size < b.grown c ∧ (b.call c).size = b.grown c := by
  cases c with
  | updateReplica server version size fault =>
      rw [Block.call, Block.grown, Block.updateReplica]
      split
      next => exact size_note ..
      next => exact .inl ⟨rfl, rfl⟩
  | reportReplica server version size fault =>
      rw [Block.call, Block.grown, Block.reportReplica]
      split
      next => exact size_note ..
      next => exact size_note ..
  | write e => exact .inl ⟨rfl, size_quiet (c := .write e) trivial b⟩
  | clearReplica server => exact .inl ⟨rfl, rfl⟩
  | checkReplica e => exact .inl ⟨rfl, size_quiet (c := .checkReplica e) trivial b⟩

/-! ## Handlers on the way to their file -/

/-- The block and the size that a handler takes to the file. -/
def waiting : Job → Option (Nat × Int)
  | .noted p _ _ newSize _ | .grow p _ _ newSize _ => some (p, newSize)
  | _ => none

def waits (s : MasterState) : List (Nat × Int) := s.tasks.filterMap waiting

/-- The size of a block that an object has. -/
def sizeOf (s : MasterState) (p : Nat) : Int := (s.objects p).block.size

/-- The size of the file that a block with this id and this size ends. -/
def endsAt (blockSize : Int32) (id : Int64) (size : Int) : UInt32 :=
  reportedSize blockSize id (.ofInt size)

/-- What a handler calls outside of `OnReport` and `OnUpdate` is no report. -/
def Calm : Job → Prop
  | .get _ _ c | .call _ c => ∀ call ∈ c, Quiet call
  | _ => True

/-- The size of a block is in that of its file, or a handler is on the way with it.  The size
of a file is one that a block has given. -/
structure Sizes (blockSize : Int32) (s : MasterState) : Prop where
  calm : ∀ job ∈ s.tasks, Calm job
  nonneg : ∀ id p, s.blocks id = some p → 0 ≤ s.sizeOf p
  reached : ∀ id p, s.blocks id = some p → 0 < s.sizeOf p →
    (p, s.sizeOf p) ∈ s.waits ∨
      ∃ size ∈ s.files (fileIdFromBlock id), endsAt blockSize id (s.sizeOf p) ≤ size
  onTheWay : ∀ p size, (p, size) ∈ s.waits → ∃ id, s.blocks id = some p ∧ size ≤ s.sizeOf p
  given : ∀ fileId size, s.files fileId = some size → size = 0 ∨ ∃ id p blockEnd,
    s.blocks id = some p ∧ fileIdFromBlock id = fileId ∧ 0 < blockEnd ∧ blockEnd ≤ s.sizeOf p ∧
      size = endsAt blockSize id blockEnd

variable {blockSize : Int32} {s t : MasterState} {job : Job}

/-- The sizes stay as they are, and so do the handlers that take them to the files. -/
structure SameSizes (s t : MasterState) : Prop where
  files : ∀ fileId, t.files fileId = s.files fileId
  old : ∀ id p, s.blocks id = some p → t.blocks id = some p ∧ t.sizeOf p = s.sizeOf p
  new : ∀ id p, t.blocks id = some p → s.blocks id = some p ∨ t.sizeOf p = 0
  waits : ∀ w, w ∈ t.waits ↔ w ∈ s.waits

theorem Sizes.same (h : s.Sizes blockSize) (hsame : SameSizes s t)
    (hcalm : ∀ job ∈ t.tasks, Calm job) : t.Sizes blockSize where
  calm := hcalm
  nonneg id p hp := by
    rcases hsame.new id p hp with hold | hzero
    · exact (hsame.old id p hold).2 ▸ h.nonneg id p hold
    · exact hzero.ge
  reached id p hp hpos := by
    rcases hsame.new id p hp with hold | hzero
    · have hsize := (hsame.old id p hold).2
      rw [hsize] at hpos ⊢
      rw [hsame.waits, hsame.files]
      exact h.reached id p hold hpos
    · exact absurd hpos (by omega)
  onTheWay p size hw := by
    obtain ⟨id, hid, hle⟩ := h.onTheWay p size ((hsame.waits _).1 hw)
    obtain ⟨hid', hsize⟩ := hsame.old id p hid
    exact ⟨id, hid', hsize ▸ hle⟩
  given fileId size hfile := by
    rw [hsame.files] at hfile
    rcases h.given fileId size hfile with hzero | ⟨id, p, blockEnd, hid, hfileId, hpos, hle, heq⟩
    · exact .inl hzero
    · obtain ⟨hid', hsize⟩ := hsame.old id p hid
      exact .inr ⟨id, p, blockEnd, hid', hfileId, hpos, hsize ▸ hle, heq⟩

theorem sizeOf_modify {p : Nat} {f : BlockObject → BlockObject}
    (hf : (f (s.objects p)).block.size = (s.objects p).block.size) (q : Nat) :
    (s.modify p f).sizeOf q = s.sizeOf q := by
  rcases eq_or_ne q p with rfl | hne
  · simpa only [sizeOf, modify, Function.update_self] using hf
  · simp only [sizeOf, modify, Function.update_of_ne hne]

/-- A mild step that is no report and does not touch a file leaves the sizes. -/
theorem Mild.sameSizes {e : Effect} (hmild : Mild s e) (h : s.Inv)
    (hcall : ∀ p c, e = .call p c → Quiet c) (hgrow : ∀ fileId size, e ≠ .grow fileId size)
    {tasks : List Job} (hwaits : ∀ w, w ∈ tasks.filterMap waiting ↔ w ∈ s.waits) :
    SameSizes s { s.apply e with tasks := tasks } := by
  have hsize : ∀ id p, s.blocks id = some p → (s.apply e).sizeOf p = s.sizeOf p := by
    intro id p hp
    cases hmild with
    | acquire q =>
        rw [apply]
        exact sizeOf_modify rfl p
    | release q =>
        rw [apply]
        exact sizeOf_modify rfl p
    | call q c =>
        show (s.modify q fun r => { r with block := r.block.call c }).sizeOf p = s.sizeOf p
        exact sizeOf_modify (size_quiet (hcall q c rfl) _) p
    | create =>
        have hne : p ≠ s.next := (h.known id p hp).ne
        simp only [sizeOf, apply, Function.update_of_ne hne]
    | idle | acquireFile | releaseFile | grow | refuse => rfl
  exact {
    files := fun fileId => by
      cases hmild with
      | grow fileId size => exact absurd rfl (hgrow fileId size)
      | idle | acquire | create | call | release | acquireFile | releaseFile | refuse => rfl
    old := fun id p hp => ⟨hmild.extends.blocks id p hp, hsize id p hp⟩
    new := fun id p hp => by
      rcases hmild.blocks hp with hold | ⟨rfl, rfl, -⟩
      · exact .inl hold
      · exact .inr (by simp only [sizeOf, apply, Function.update_self])
    waits := hwaits }

/-- A step that is neither a report nor one of `UpdateSize`. -/
structure Plain (blockSize : Int32) (s : MasterState) (job : Job) : Prop where
  call : ∀ p c, (s.plan blockSize job).1 = .call p c → Quiet c
  grow : ∀ fileId size, (s.plan blockSize job).1 ≠ .grow fileId size
  waiting : (s.plan blockSize job).2.filterMap waiting = (waiting job).toList

/-- `Get` changes no size. -/
theorem get_plain (s : MasterState) (id : Int64) (create : Bool) :
    (∀ p c, (s.get id create).1 = .call p c → Quiet c) ∧
      ∀ fileId size, (s.get id create).1 ≠ .grow fileId size := by
  rcases s.get_cases id create with ⟨p, -, hget⟩ | ⟨-, -, hget⟩ | ⟨-, -, hget⟩
  all_goals
    rw [hget]
    constructor
    · intro p c heq
      cases heq
    · intro fileId size heq
      cases heq

theorem Calm.plan (blockSize : Int32) (hcalm : Calm job) :
    ∀ job' ∈ (s.plan blockSize job).2, Calm job' := by
  intro job' hmem
  cases job with
  | report server infos =>
      cases infos with
      | nil => cases hmem
      | cons info infos =>
          simp only [MasterState.plan] at hmem
          split at hmem
          all_goals
            rw [List.mem_singleton.1 hmem]
            trivial
  | update server info =>
      simp only [MasterState.plan] at hmem
      split at hmem
      next =>
        rw [List.mem_singleton.1 hmem]
        trivial
      next => cases hmem
  | reported | updated =>
      simp only [MasterState.plan] at hmem
      split at hmem
      all_goals
        rw [List.mem_singleton.1 hmem]
        trivial
  | note | noted | grow | drop =>
      rw [List.mem_singleton.1 hmem]
      trivial
  | leave fileId server rest =>
      cases rest with
      | none => cases hmem
      | some infos =>
          rw [List.mem_singleton.1 hmem]
          trivial
  | clean p =>
      simp only [MasterState.plan] at hmem
      split at hmem
      next => cases hmem
      next =>
        rw [List.mem_singleton.1 hmem]
        trivial
  | cleanLocked p => cases hmem
  | get id create c =>
      simp only [MasterState.plan] at hmem
      split at hmem
      next =>
        rw [List.mem_singleton.1 hmem]
        exact hcalm
      next => cases hmem
  | call p c =>
      rw [List.mem_singleton.1 hmem]
      trivial
  | finish p => cases hmem

/-- Only the steps of a report and of `UpdateSize` are not plain. -/
theorem plan_plain (blockSize : Int32) (hcalm : Calm job)
    (hnote : ∀ p fileId server info rest, job ≠ .note p fileId server info rest)
    (hgrow : ∀ p fileId server newSize rest, job ≠ .grow p fileId server newSize rest) :
    Plain blockSize s job := by
  cases job with
  | report server infos =>
      cases infos with
      | nil => exact ⟨fun _ _ heq => (by cases heq), fun _ _ heq => (by cases heq), rfl⟩
      | cons info infos =>
          by_cases hfile : (s.files (fileIdFromBlock info.id)).isSome
          · constructor <;> simp [MasterState.plan, hfile, MasterState.waiting]
          · constructor <;> simp [MasterState.plan, hfile, MasterState.waiting]
  | reported fileId server info infos =>
      obtain ⟨hcall, hnot⟩ := s.get_plain info.id true
      rcases s.get_cases info.id true with ⟨p, -, hget⟩ | ⟨-, -, hget⟩ | ⟨-, -, hget⟩
      all_goals
        rw [hget] at hcall hnot
        constructor <;> simp only [MasterState.plan, hget]
        exacts [hcall, hnot, rfl]
  | update server info =>
      obtain ⟨hcall, hnot⟩ := s.get_plain info.id false
      rcases s.get_cases info.id false with ⟨p, -, hget⟩ | ⟨-, -, hget⟩ | ⟨-, -, hget⟩
      all_goals
        rw [hget] at hcall hnot
        constructor <;> simp only [MasterState.plan, hget]
        exacts [hcall, hnot, rfl]
  | get id create c =>
      obtain ⟨hcall, hnot⟩ := s.get_plain id create
      rcases s.get_cases id create with ⟨p, -, hget⟩ | ⟨-, -, hget⟩ | ⟨-, -, hget⟩
      all_goals
        rw [hget] at hcall hnot
        constructor <;> simp only [MasterState.plan, hget]
        exacts [hcall, hnot, rfl]
  | updated p server info =>
      by_cases hfile : (s.files (fileIdFromBlock (s.objects p).block.id)).isSome
      · constructor <;> simp [MasterState.plan, hfile, MasterState.waiting]
      · constructor <;> simp [MasterState.plan, hfile, MasterState.waiting]
  | clean p | cleanLocked p =>
      by_cases hused : 0 < (s.objects p).used
      · constructor <;> simp [MasterState.plan, hused, MasterState.waiting]
      · constructor <;> simp [MasterState.plan, hused, MasterState.waiting]
  | call p c =>
      cases c with
      | none => constructor <;> simp [MasterState.plan, MasterState.waiting]
      | some c =>
          refine ⟨fun q call heq => ?_, fun _ _ heq => (by cases heq), rfl⟩
          cases heq
          exact hcalm c rfl
  | leave fileId server rest =>
      cases rest <;> constructor <;> simp [MasterState.plan, MasterState.waiting]
  | noted | drop | finish => constructor <;> simp [MasterState.plan, MasterState.waiting]
  | note p fileId server info rest => exact absurd rfl (hnote p fileId server info rest)
  | grow p fileId server newSize rest => exact absurd rfl (hgrow p fileId server newSize rest)

/-- The handlers on the way are the one that goes on and those beside it. -/
theorem mem_waits {rest : List Job} (hperm : s.tasks.Perm (job :: rest)) (w : Nat × Int) :
    w ∈ s.waits ↔ w ∈ waiting job ∨ w ∈ rest.filterMap waiting := by
  rw [waits, (hperm.filterMap waiting).mem_iff, List.filterMap_cons]
  cases waiting job with
  | none => simp
  | some w' => simp [eq_comm]

/-- A report makes its block longer only with a handler that takes the new size to the file. -/
theorem Sizes.note (h : s.Sizes blockSize) (hinv : s.Inv) {p : Nat} {fileId : Int64}
    {server : Nat} {info : BlockStatus} {rest : Option (List BlockStatus)} {others : List Job}
    (hperm : s.tasks.Perm (.note p fileId server info rest :: others)) :
    (s.resume blockSize (.note p fileId server info rest) others).Sizes blockSize := by
  obtain ⟨c, hc⟩ : ∃ c, c = noteCall server info rest := ⟨_, rfl⟩
  obtain ⟨newSize, hnew⟩ : ∃ z, z = (s.objects p).block.grown c := ⟨_, rfl⟩
  have hresume : s.resume blockSize (.note p fileId server info rest) others =
      { s.apply (.call p c) with tasks := .noted p fileId server newSize rest :: others } := by
    rw [hnew, hc]
    rfl
  rw [hresume]
  have hstored : s.blocks info.id = some p :=
    (hinv.sound _ (hperm.mem_iff.2 List.mem_cons_self)).1
  have hwaits : ∀ w, w ∈ s.waits ↔ w ∈ others.filterMap MasterState.waiting := by
    intro w
    rw [mem_waits hperm]
    exact or_iff_right (fun hnone => by cases hnone)
  obtain ⟨t, ht⟩ : ∃ t, t = { s.apply (.call p c) with
    tasks := .noted p fileId server newSize rest :: others } := ⟨_, rfl⟩
  have htwaits : ∀ w, w ∈ t.waits ↔ w = (p, newSize) ∨ w ∈ s.waits := by
    intro w
    rw [hwaits, ht]
    exact List.mem_cons
  have hsizeP : newSize = 0 ∧ t.sizeOf p = s.sizeOf p ∨
      s.sizeOf p < newSize ∧ t.sizeOf p = newSize := by
    have hself : t.sizeOf p = ((s.objects p).block.call c).size := by
      simp only [ht, sizeOf, MasterState.apply, modify, Function.update_self]
    rw [hself, hnew]
    exact size_call (s.objects p).block c
  have hsize : ∀ q, q ≠ p → t.sizeOf q = s.sizeOf q := by
    intro q hne
    simp only [ht, sizeOf, MasterState.apply, modify, Function.update_of_ne hne]
  have hle : ∀ q, s.sizeOf q ≤ t.sizeOf q := by
    intro q
    rcases eq_or_ne q p with rfl | hne
    · omega
    · exact (hsize q hne).ge
  have hblocks : t.blocks = s.blocks := by rw [ht]; rfl
  have hfiles : t.files = s.files := by rw [ht]; rfl
  rw [← ht]
  exact {
    calm := fun job hmem => by
      rw [ht] at hmem
      rcases List.mem_cons.1 hmem with rfl | hold
      · trivial
      · exact h.calm job (hperm.mem_iff.2 (List.mem_cons_of_mem _ hold))
    nonneg := fun id q hq => by
      rw [hblocks] at hq
      exact (h.nonneg id q hq).trans (hle q)
    reached := fun id q hq hpos => by
      rw [hblocks] at hq
      rw [hfiles, htwaits]
      -- the size is the new one, or the block is as long as before
      have hsame : t.sizeOf q = s.sizeOf q → ((q, t.sizeOf q) = (p, newSize) ∨
          (q, t.sizeOf q) ∈ s.waits) ∨
            ∃ size ∈ s.files (fileIdFromBlock id), endsAt blockSize id (t.sizeOf q) ≤ size := by
        intro heq
        rw [heq] at hpos ⊢
        rcases h.reached id q hq hpos with hwait | hfile
        · exact .inl (.inr hwait)
        · exact .inr hfile
      rcases eq_or_ne q p with rfl | hne
      · rcases hsizeP with ⟨-, heq⟩ | ⟨-, heq⟩
        · exact hsame heq
        · exact .inl (.inl (by rw [heq]))
      · exact hsame (hsize q hne)
    onTheWay := fun q size hw => by
      rw [hblocks]
      rcases (htwaits _).1 hw with heq | hold
      · obtain ⟨rfl, rfl⟩ := Prod.mk.inj heq
        have hpos := h.nonneg info.id _ hstored
        exact ⟨info.id, hstored, by omega⟩
      · obtain ⟨id, hid, hsizeLe⟩ := h.onTheWay q size hold
        exact ⟨id, hid, hsizeLe.trans (hle q)⟩
    given := fun fileId' size hfile => by
      rw [hfiles] at hfile
      rw [hblocks]
      rcases h.given fileId' size hfile with hzero | ⟨id, q, blockEnd, hid, hid', hpos, hend, heq⟩
      · exact .inl hzero
      · exact .inr ⟨id, q, blockEnd, hid, hid', hpos, hend.trans (hle q), heq⟩ }

/-- `UpdateSize` leaves the greater of the two sizes. -/
theorem le_updateSize (old size : UInt32) :
    old ≤ (updateSize.propose old size).getD old ∧ size ≤ (updateSize.propose old size).getD old ∧
      ((updateSize.propose old size).getD old = old ∨
        (updateSize.propose old size).getD old = size) := by
  simp only [updateSize]
  split
  next hlt => exact ⟨UInt32.le_of_lt hlt, UInt32.le_refl size, .inr rfl⟩
  next hnot => exact ⟨UInt32.le_refl old, UInt32.not_lt.1 hnot, .inl rfl⟩

/-- A handler that is on the way with a size takes it to the file. -/
theorem Sizes.grow (h : s.Sizes blockSize) (hinv : s.Inv) {p : Nat} {fileId : Int64}
    {server : Nat} {newSize : Int} {rest : Option (List BlockStatus)} {others : List Job}
    (hperm : s.tasks.Perm (.grow p fileId server newSize rest :: others)) :
    (s.resume blockSize (.grow p fileId server newSize rest) others).Sizes blockSize := by
  obtain ⟨id, hid, hfileId⟩ : ∃ id, s.blocks id = some p ∧ fileId = fileIdFromBlock id :=
    hinv.sound _ (hperm.mem_iff.2 List.mem_cons_self)
  have hwaits : ∀ w, w ∈ s.waits ↔ w = (p, newSize) ∨ w ∈ others.filterMap MasterState.waiting := by
    intro w
    rw [mem_waits hperm]
    simp [MasterState.waiting, eq_comm]
  obtain ⟨t, ht⟩ : ∃ t, t = s.resume blockSize (.grow p fileId server newSize rest) others :=
    ⟨_, rfl⟩
  have htasks : t.tasks = .leave fileId server rest :: others := by rw [ht]; rfl
  have htwaits : t.waits = others.filterMap MasterState.waiting := by
    rw [waits, htasks]
    rfl
  have hblocks : t.blocks = s.blocks := by
    rw [ht, MasterState.resume, MasterState.plan]
    split <;> rfl
  have hsize : t.sizeOf = s.sizeOf := by
    rw [ht, MasterState.resume, MasterState.plan]
    split <;> rfl
  -- the file becomes as long as the block makes it, and no file becomes shorter
  have hfiles : ∀ f old, s.files f = some old → ∃ size, t.files f = some size ∧ old ≤ size ∧
      (0 < newSize → f = fileId → endsAt blockSize id newSize ≤ size) ∧
      (size = old ∨ 0 < newSize ∧ f = fileId ∧ size = endsAt blockSize id newSize) := by
    intro f old hold
    rw [ht, MasterState.resume, MasterState.plan, hinv.ids id p hid]
    by_cases hpos : 0 < newSize
    · rcases eq_or_ne f fileId with rfl | hne
      · obtain ⟨hle, hend, heither⟩ := le_updateSize old (endsAt blockSize id newSize)
        refine ⟨_, ?_, hle, fun _ _ => hend, ?_⟩
        · simp only [if_pos hpos, MasterState.apply, Function.update_self, hold, Option.map_some]
          rfl
        · rcases heither with heq | heq
          · exact .inl heq
          · exact .inr ⟨hpos, rfl, heq⟩
      · refine ⟨old, ?_, UInt32.le_refl old, fun _ heq => absurd heq hne, .inl rfl⟩
        simp only [if_pos hpos, MasterState.apply, Function.update_of_ne hne, hold]
    · refine ⟨old, ?_, UInt32.le_refl old, fun hlt => absurd hlt hpos, .inl rfl⟩
      simp only [if_neg hpos, MasterState.apply, hold]
  have hnone : ∀ f, s.files f = none → t.files f = none := by
    intro f hf
    rw [ht, MasterState.resume, MasterState.plan]
    split
    next =>
      rcases eq_or_ne f fileId with rfl | hne
      · simp only [MasterState.apply, Function.update_self, hf, Option.map_none]
      · simp only [MasterState.apply, Function.update_of_ne hne, hf]
    next => exact hf
  rw [← ht]
  exact {
    calm := fun job hmem => by
      rw [htasks] at hmem
      rcases List.mem_cons.1 hmem with rfl | hold
      · trivial
      · exact h.calm job (hperm.mem_iff.2 (List.mem_cons_of_mem _ hold))
    nonneg := by
      rw [hblocks, hsize]
      exact h.nonneg
    reached := fun id' q hq hpos => by
      rw [hblocks] at hq
      rw [hsize] at hpos ⊢
      rw [htwaits]
      rcases h.reached id' q hq hpos with hwait | ⟨size, hfile, hle⟩
      · rcases (hwaits _).1 hwait with heq | hother
        · obtain ⟨rfl, hnew⟩ := Prod.mk.inj heq
          obtain rfl : id = id' := (hinv.ids id q hid).symm.trans (hinv.ids id' q hq)
          obtain ⟨old, hold⟩ := Option.isSome_iff_exists.1 (hinv.indexed id q hq)
          obtain ⟨size, hfile, -, hend, -⟩ := hfiles _ old hold
          rw [hnew] at hpos ⊢
          exact .inr ⟨size, hfile, hend hpos hfileId.symm⟩
        · exact .inl hother
      · obtain ⟨size', hfile', hmore, -, -⟩ := hfiles _ size hfile
        exact .inr ⟨size', hfile', UInt32.le_trans hle hmore⟩
    onTheWay := fun q size hw => by
      rw [htwaits] at hw
      rw [hblocks, hsize]
      exact h.onTheWay q size ((hwaits _).2 (.inr hw))
    given := fun f size hfile => by
      rw [hblocks, hsize]
      cases hold : s.files f with
      | none =>
          rw [hnone f hold] at hfile
          cases hfile
      | some old =>
          obtain ⟨size', hfile', -, -, heither⟩ := hfiles f old hold
          obtain rfl : size' = size := Option.some.inj (hfile'.symm.trans hfile)
          rcases heither with rfl | ⟨hpos, rfl, heq⟩
          · exact h.given f _ hold
          · obtain ⟨id', hid', hle⟩ := h.onTheWay p newSize ((hwaits _).2 (.inl rfl))
            exact .inr ⟨id, p, newSize, hid, hfileId.symm, hpos, hle, heq⟩ }

theorem Sizes.resume (h : s.Sizes blockSize) (hinv : s.Inv) {others : List Job}
    (hperm : s.tasks.Perm (job :: others)) :
    (s.resume blockSize job others).Sizes blockSize := by
  have hmem : job ∈ s.tasks := hperm.mem_iff.2 List.mem_cons_self
  by_cases hnote : ∃ p fileId server info rest, job = .note p fileId server info rest
  · obtain ⟨p, fileId, server, info, rest, rfl⟩ := hnote
    exact h.note hinv hperm
  · by_cases hgrow : ∃ p fileId server newSize rest, job = .grow p fileId server newSize rest
    · obtain ⟨p, fileId, server, newSize, rest, rfl⟩ := hgrow
      exact h.grow hinv hperm
    · have hplain : Plain blockSize s job := plan_plain blockSize (h.calm job hmem)
        (fun p fileId server info rest heq => hnote ⟨p, fileId, server, info, rest, heq⟩)
        (fun p fileId server newSize rest heq => hgrow ⟨p, fileId, server, newSize, rest, heq⟩)
      have hmild := (plan_sound blockSize hinv (hinv.sound job hmem)).1
      refine h.same (hmild.sameSizes hinv hplain.call hplain.grow fun w => ?_) fun job' hnew => ?_
      · rw [List.filterMap_append, List.mem_append, hplain.waiting, mem_waits hperm,
          Option.mem_toList, Option.mem_def]
      · rcases List.mem_append.1 hnew with hplan | hold
        · exact (h.calm job hmem).plan blockSize job' hplan
        · exact h.calm job' (hperm.mem_iff.2 (List.mem_cons_of_mem _ hold))

theorem Sizes.fork (h : s.Sizes blockSize) {heard : List (Nat × BlockStatus)}
    (hcalm : Calm job) (hwaiting : waiting job = none) :
    (s.fork job heard).Sizes blockSize := by
  refine h.same ⟨fun _ => rfl, fun _ _ hp => ⟨hp, rfl⟩, fun _ _ hp => .inl hp, fun w => ?_⟩ ?_
  · rw [waits, MasterState.fork, List.filterMap_cons_none hwaiting]
    rfl
  · intro job' hmem
    rcases List.mem_cons.1 hmem with rfl | hold
    · exact hcalm
    · exact h.calm job' hold

theorem Sizes.addFile (h : s.Sizes blockSize) (fileId : Int64) :
    Sizes blockSize
      { s with files := Function.update s.files fileId (some ((s.files fileId).getD 0)) } where
  calm := h.calm
  nonneg := h.nonneg
  reached id p hp hpos := by
    rcases h.reached id p hp hpos with hwait | ⟨size, hfile, hle⟩
    · exact .inl hwait
    · refine .inr ⟨size, ?_, hle⟩
      rw [Option.mem_def] at hfile ⊢
      rcases eq_or_ne (fileIdFromBlock id) fileId with rfl | hne
      · simp only [Function.update_self, hfile, Option.getD_some]
      · simp only [Function.update_of_ne hne, hfile]
  onTheWay := h.onTheWay
  given fileId' size hfile := by
    rcases eq_or_ne fileId' fileId with rfl | hne
    · cases hold : s.files fileId' with
      | none =>
          simp only [Function.update_self, hold, Option.getD_none, Option.some.injEq] at hfile
          exact .inl hfile.symm
      | some old =>
          simp only [Function.update_self, hold, Option.getD_some, Option.some.injEq] at hfile
          exact h.given fileId' size (hfile ▸ hold)
    · simp only [Function.update_of_ne hne] at hfile
      exact h.given fileId' size hfile

theorem Sizes.request (h : s.Sizes blockSize) {fileId : Int64} {index : Int32}
    {c : Option BlockCall} (hquiet : ∀ call ∈ c, Quiet call)
    (hstep : s.request blockSize fileId index c = some t) : t.Sizes blockSize := by
  rw [MasterState.request, Option.map_eq_some_iff] at hstep
  obtain ⟨size, -, rfl⟩ := hstep
  split
  next => exact h
  next => exact h.fork hquiet rfl

theorem Sizes.step (h : s.Sizes blockSize) (hinv : s.Inv) {a : MasterAct}
    (hstep : s.step blockSize a = some t) : t.Sizes blockSize := by
  cases a with
  | addFile fileId =>
      cases hstep
      exact h.addFile fileId
  | onReport | onUpdate =>
      cases hstep
      exact h.fork trivial rfl
  | onClean server blockId =>
      cases hstep
      exact h.fork (fun call hcall => by cases hcall; trivial) rfl
  | read fileId index => exact h.request (fun call hcall => by cases hcall) hstep
  | write fileId index e => exact h.request (fun call hcall => by cases hcall; trivial) hstep
  | append fileId e =>
      simp only [MasterState.step, Option.map_eq_some_iff] at hstep
      obtain ⟨size, -, rfl⟩ := hstep
      exact h.fork (fun call hcall => by cases hcall; trivial) rfl
  | checkReplica blockId e =>
      simp only [MasterState.step, Option.map_eq_some_iff] at hstep
      obtain ⟨p, -, rfl⟩ := hstep
      have hwaits : ∀ w, w ∈ s.tasks.filterMap waiting ↔ w ∈ s.waits := fun w => Iff.rfl
      exact h.same ((Mild.call p (.checkReplica e)).sameSizes hinv
        (fun q c heq => by cases heq; trivial) (fun _ _ heq => by cases heq) hwaits) h.calm
  | run i =>
      simp only [MasterState.step, Option.map_eq_some_iff] at hstep
      obtain ⟨job, hjob, rfl⟩ := hstep
      obtain ⟨hlt, rfl⟩ := List.getElem?_eq_some_iff.1 hjob
      exact h.resume hinv (List.getElem_cons_eraseIdx_perm hlt).symm

/-- In every run the handlers are on the way with what the files do not have yet. -/
theorem sizes_of_run (hr : (masterSystem blockSize).Run Named s) : s.Sizes blockSize := by
  have hboth : s.Inv ∧ s.Sizes blockSize := by
    refine hr.invariant (I := fun s => s.Inv ∧ s.Sizes blockSize) ?_ fun s a t h hnamed hstep => ?_
    · intro s hstarted
      refine ⟨.of_started hstarted, ?_⟩
      obtain ⟨hfresh, hloaded⟩ := hstarted
      rw [hfresh]
      exact {
        calm := fun _ hmem => by cases hmem
        nonneg := fun _ _ hp => by cases hp
        reached := fun _ _ hp => by cases hp
        onTheWay := fun _ _ hw => by cases hw
        given := fun fileId size hfile => .inl (hloaded fileId size hfile).1 }
    · exact ⟨h.1.step hnamed hstep, h.2.step h.1 hstep⟩
  exact hboth.2

/-! ## When no handler runs -/

/-- The sizes that the blocks of a file give it. -/
def ends (blockSize : Int32) (s : MasterState) (fileId : Int64) : Set UInt32 :=
  {size | ∃ id p, s.blocks id = some p ∧ fileIdFromBlock id = fileId ∧ 0 < s.sizeOf p ∧
    size = endsAt blockSize id (s.sizeOf p)}

/-- A file whose last block has this id and this size is shorter than 4 GB. -/
structure EndsBelow (blockSize : Int32) (id : Int64) (size : Int) : Prop where
  index : 1 ≤ (indexFromBlock id).toInt32.toInt
  size : ((indexFromBlock id).toInt32.toInt - 1) * blockSize.toInt + size < 2 ^ 32

theorem toNat_ofInt {size : Int} (hpos : 0 ≤ size) (hlt : size < 2 ^ 32) :
    ((UInt32.ofInt size).toNat : Int) = size := by
  rw [UInt32.ofInt, UInt32.toNat_ofNat', Int.emod_eq_of_lt hpos (by omega)]
  omega

/-- Where nothing wraps, a longer block ends a longer file. -/
theorem endsAt_mono {id : Int64} {shorter longer : Int} (hblock : 0 < blockSize)
    (hfits : EndsBelow blockSize id longer) (hpos : 0 < shorter) (hle : shorter ≤ longer) :
    endsAt blockSize id shorter ≤ endsAt blockSize id longer := by
  obtain ⟨hindex, hsize⟩ := hfits
  rw [Int32.lt_iff_toInt_lt, Int32.toInt_zero] at hblock
  obtain ⟨i, hi⟩ : ∃ i, i = (indexFromBlock id).toInt32 := ⟨_, rfl⟩
  rw [← hi] at hindex hsize
  have hbound := i.toInt_lt
  have hprev : (i - 1).toInt = i.toInt - 1 := by
    rw [Int32.toInt_sub, Int32.toInt_one]
    exact Int.bmod_eq_of_le (by omega) (by omega)
  have hk := toNat_toUInt32 (show 0 ≤ (i - 1).toInt by omega)
  have hbs := toNat_toUInt32 (show 0 ≤ blockSize.toInt by omega)
  have hmul : 0 ≤ (i.toInt - 1) * blockSize.toInt := Int.mul_nonneg (by omega) (by omega)
  have hexact : ∀ size : Int, 0 < size → size ≤ longer →
      ((endsAt blockSize id size).toNat : Int) = (i.toInt - 1) * blockSize.toInt + size := by
    intro size hpos hle
    have hofInt := toNat_ofInt (show 0 ≤ size by omega) (show size < 2 ^ 32 by omega)
    rw [endsAt, reportedSize, ← hi, toNat_calcFileSize]
    have hproduct : (((i - 1).toUInt32.toNat * blockSize.toUInt32.toNat : Nat) : Int) =
        (i.toInt - 1) * blockSize.toInt := by
      rw [Int.natCast_mul, hk, hbs, hprev]
    omega
  rw [UInt32.le_iff_toNat_le]
  have hshorter := hexact shorter hpos hle
  have hlonger := hexact longer (hpos.trans_le hle) (Int.le_refl longer)
  omega

theorem ends_le_of_idle (hr : (masterSystem blockSize).Run Named s) (hidle : s.tasks = [])
    {fileId : Int64} {size : UInt32} (hfile : s.files fileId = some size) :
    ∀ blockEnd ∈ s.ends blockSize fileId, blockEnd ≤ size := by
  rintro blockEnd ⟨id, p, hid, rfl, hpos, rfl⟩
  rcases (sizes_of_run hr).reached id p hid hpos with hwait | ⟨size', hfile', hle⟩
  · rw [waits, hidle] at hwait
    cases hwait
  · obtain rfl : size' = size := Option.some.inj (hfile'.symm.trans hfile)
    exact hle

theorem isGreatest_ends_of_idle (hblock : 0 < blockSize)
    (hr : (masterSystem blockSize).Run Named s) (hidle : s.tasks = []) {fileId : Int64}
    {size : UInt32} (hfile : s.files fileId = some size)
    (hfits : ∀ id p, s.blocks id = some p → fileIdFromBlock id = fileId → 0 < s.sizeOf p →
      EndsBelow blockSize id (s.sizeOf p)) :
    IsGreatest (insert 0 (s.ends blockSize fileId)) size := by
  have hupper := ends_le_of_idle hr hidle hfile
  refine ⟨?_, ?_⟩
  · rcases (sizes_of_run hr).given fileId size hfile with
      hzero | ⟨id, p, blockEnd, hid, hid', hpos, hle, rfl⟩
    · exact .inl hzero
    · -- the block may have become longer since, but then it has given that size, too
      have hlonger : 0 < s.sizeOf p := hpos.trans_le hle
      have hmem : endsAt blockSize id (s.sizeOf p) ∈ s.ends blockSize fileId :=
        ⟨id, p, hid, hid', hlonger, rfl⟩
      have heq := UInt32.le_antisymm (endsAt_mono hblock (hfits id p hid hid' hlonger) hpos hle)
        (hupper _ hmem)
      exact .inr (heq ▸ hmem)
  · rintro blockEnd (rfl | hmem)
    · exact UInt32.zero_le
    · exact hupper blockEnd hmem

end MasterState

open MasterState

/-- A file with two blocks, both in one report, and the handler goes on to its end. -/
def reportTwo : List MasterAct :=
  [.addFile 0x80000000, .onReport 1 [⟨0x80000800, 1, 5, false⟩, ⟨0x80000400, 1, 4096, false⟩]] ++
    List.replicate 13 (.run 0)

end Ofs.Master
