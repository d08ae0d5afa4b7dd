import Zookeeper.Ofs.BlockBounds

/-!
# Writes that fail

`Block::Write` and `Block::Append` write the data file, then move the version and the size
of the block in memory, and then write the meta file.  An error of the last step is returned
with the block moved on, and one of the first leaves what was transferred.  `Append` goes
by the length of the data file, which such a rest makes longer than the size of the block.

`failures_invisible` says that errors are not seen and that data is appended at the size of
the block in every run whose file calls do all or nothing.
-/

namespace Ofs.Node

/-- `Block::Write` or `Block::Append`. -/
inductive StoreOp where
  | write (offset : Int32)
  | append
deriving DecidableEq, Repr

/-- A call of one of them, with what the system does to its two files. -/
structure StoreAct where
  op : StoreOp
  exceptVersion : Int64
  newVersion : Int64
  data : Payload
  strict : Bool
  dataIo : FileIo
  metaIo : FileIo
deriving DecidableEq, Repr

namespace StoredBlock

/-- The call, for blocks of a size. -/
def serve (blockSize : Int32) (b : StoredBlock) (a : StoreAct) : Outcome :=
  match a.op with
  | .write offset =>
      b.write a.exceptVersion a.newVersion offset a.data a.strict a.dataIo a.metaIo
  | .append => b.append blockSize a.exceptVersion a.newVersion a.data a.strict a.dataIo a.metaIo

/-- Its checks. -/
def check (blockSize : Int32) (b : StoredBlock) (a : StoreAct) : ErrorCode :=
  match a.op with
  | .write offset => b.checkWrite a.exceptVersion offset a.data a.strict
  | .append => b.checkAppend blockSize a.exceptVersion a.data a.strict

/-- Its call on the data file. -/
def dataCall (b : StoredBlock) (a : StoreAct) : RandomAccessFileResult × List Access :=
  match a.op with
  | .write offset => RandomAccessFile.write offset.toInt a.data.bytes.length a.dataIo
  | .append => RandomAccessFile.append b.file.length a.data.bytes.length a.dataIo

/-- The size it leaves. -/
def sizeAfter (b : StoredBlock) (a : StoreAct) : Int32 :=
  match a.op with
  | .write _ => b.info.size
  | .append => b.info.size + Int32.ofNat a.data.bytes.length

/-- The file is as long as the block. -/
def Even (b : StoredBlock) : Prop := (b.file.length : Int) = b.info.size.toInt

end StoredBlock

/-- A call that was made. -/
structure StoreCall where
  before : StoredBlock
  act : StoreAct
  outcome : Outcome
deriving DecidableEq, Repr

/-- The block a run starts with, the block now, and the calls made, the latest first. -/
structure StoreRun where
  start : StoredBlock
  block : StoredBlock
  calls : List StoreCall := []
deriving DecidableEq, Repr

/-- One call more. -/
def StoreRun.step (blockSize : Int32) (s : StoreRun) (a : StoreAct) : Option StoreRun :=
  let r := s.block.serve blockSize a
  some { s with block := r.block, calls := ⟨s.block, a, r⟩ :: s.calls }

/-- The runs of calls on any block. -/
def storeSystem (blockSize : Int32) : Transition.System StoreRun StoreAct :=
  Transition.ofStep (fun s => s.block = s.start ∧ s.calls = []) (StoreRun.step blockSize)

/-- An error leaves the version, the size, and the bytes of the block. -/
def StoreCall.ErrorKeeps (c : StoreCall) : Prop :=
  c.outcome.code ≠ .none → c.outcome.block.info = c.before.info ∧
    c.outcome.block.file.take c.before.info.bytes = c.before.file.take c.before.info.bytes

/-- An append puts its data behind the bytes of the block. -/
def StoreCall.PlacedAtSize (c : StoreCall) : Prop :=
  c.act.op = .append → c.outcome.code = .none →
    (c.outcome.block.file.drop c.before.info.bytes).take c.act.data.bytes.length =
      c.act.data.bytes

/-- Errors are not seen, and data is appended at the size of the block if the file was as
long as the block to begin with. -/
structure FailuresInvisible (s : StoreRun) : Prop where
  errors : ∀ c ∈ s.calls, c.ErrorKeeps
  placed : s.start.Even → ∀ c ∈ s.calls, c.PlacedAtSize

/-- A write does not go past the end of the block, and an append leaves its size in an
`int32_t`. -/
def StoreOp.Fits (b : StoredBlock) (data : Bytes) : StoreOp → Prop
  | .write offset => 0 ≤ offset.toInt ∨ (data.length : Int) ≤ b.info.size.toInt
  | .append => b.info.size.toInt + data.length < 2 ^ 31

/-- A data call leaves the file as it was, or it succeeds, and so does the meta call. -/
def AllOrNothing (b : StoredBlock) (a : StoreAct) : Prop :=
  if (b.dataCall a).1 = .success then
    (RandomAccessFile.write 0 StoredBlock.metaSize a.metaIo).1 = .success ∧
      a.op.Fits b a.data.bytes
  else written a.data.bytes b.file (b.dataCall a).2 = b.file

/-- So do the file calls of a call that passes its checks. -/
def Whole (blockSize : Int32) (s : StoreRun) (a : StoreAct) : Prop :=
  s.block.check blockSize a = .none → AllOrNothing s.block a

instance (b : StoredBlock) (data : Bytes) : ∀ op : StoreOp, Decidable (op.Fits b data)
  | .write _ => inferInstanceAs (Decidable (_ ∨ _))
  | .append => inferInstanceAs (Decidable (_ < _))

instance (b : StoredBlock) (a : StoreAct) : Decidable (AllOrNothing b a) :=
  inferInstanceAs (Decidable (ite _ (_ = RandomAccessFileResult.success ∧ _)
    (_ = b.file)))

instance (blockSize : Int32) (s : StoreRun) (a : StoreAct) : Decidable (Whole blockSize s a) :=
  inferInstanceAs (Decidable (_ = ErrorCode.none → AllOrNothing s.block a))

/-! ## What a call does -/

section Calls

variable {blockSize : Int32} {b : StoredBlock} {a : StoreAct}

namespace StoredBlock

/-- A call that passes its checks does what the system does to its file calls. -/
theorem serve_passed (h : b.check blockSize a = .none) :
    b.serve blockSize a =
      b.store a.data.bytes (b.sizeAfter a) a.newVersion a.strict (b.dataCall a) a.metaIo := by
  obtain ⟨op, ev, nv, data, strict, dataIo, metaIo⟩ := a
  cases op with
  | write offset =>
      have hcheck : b.checkWrite ev offset data strict = .none := h
      simp only [serve, write, hcheck, sizeAfter, dataCall]
  | append =>
      have hcheck : b.checkAppend blockSize ev data strict = .none := h
      simp only [serve, append, hcheck, sizeAfter, dataCall]

/-- One that does not changes nothing. -/
theorem serve_refused (h : b.check blockSize a ≠ .none) :
    b.serve blockSize a = ⟨b, b.check blockSize a, []⟩ := by
  obtain ⟨op, ev, nv, data, strict, dataIo, metaIo⟩ := a
  cases op with
  | write offset => simp only [serve, check, write] at h ⊢
  | append => simp only [serve, check, append] at h ⊢

theorem dataCall_result (b : StoredBlock) (a : StoreAct) :
    (b.dataCall a).1 ∈ [RandomAccessFileResult.success, .opFailed, .opIncomplete] ∨
      b.dataCall a = (.fileOpenFailed, []) := by
  rw [dataCall]
  split
  next => exact RandomAccessFile.write_result _ _ _
  next => exact RandomAccessFile.write_result _ _ _

/-- A data call that fails leaves what it wrote, and nothing else. -/
theorem store_failed {size : Int32} {newVersion : Int64} {strict : Bool} {metaIo : FileIo}
    (fails : (b.dataCall a).1 ≠ .success) :
    (b.store a.data.bytes size newVersion strict (b.dataCall a) metaIo).block =
        { b with file := written a.data.bytes b.file (b.dataCall a).2 } ∧
      (b.store a.data.bytes size newVersion strict (b.dataCall a) metaIo).code ≠ .none := by
  rw [store]
  have hresult := b.dataCall_result a
  cases hr : (b.dataCall a).1 with
  | success => exact absurd hr fails
  | opOutOfRange =>
      rw [hr] at hresult
      rcases hresult with hmem | hclosed
      · exact absurd hmem (by decide)
      · rw [hclosed] at hr
        cases hr
  | fileOpenFailed => exact ⟨rfl, by simp⟩
  | opFailed => exact ⟨rfl, by simp⟩
  | opIncomplete => exact ⟨rfl, by simp⟩

/-- One that succeeds moves the block on. -/
theorem store_success {data : Bytes} {size : Int32} {newVersion : Int64} {strict : Bool}
    {r : RandomAccessFileResult × List Access} {metaIo : FileIo} (succeeds : r.1 = .success) :
    b.store data size newVersion strict r metaIo =
      ⟨{ b with
          file := written data b.file r.2
          info := { b.info with size := size, version := b.block.bumped newVersion strict } },
        (RandomAccessFile.write 0 metaSize metaIo).1.metaCode, r.2⟩ := by
  rw [store, succeeds]

/-- The file behind a call that succeeds and fits, in a block that is even. -/
theorem even_success (even : b.Even) (pass : b.check blockSize a = .none)
    (succeeds : (b.dataCall a).1 = .success) (fits : a.op.Fits b a.data.bytes) :
    ((written a.data.bytes b.file (b.dataCall a).2).length : Int) = (b.sizeAfter a).toInt ∧
      (a.op = .append →
        written a.data.bytes b.file (b.dataCall a).2 = b.file ++ a.data.bytes) := by
  obtain ⟨op, ev, nv, data, strict, dataIo, metaIo⟩ := a
  have hsize : 0 ≤ b.info.size.toInt := even ▸ Int.natCast_nonneg _
  have hlt := b.info.size.toInt_lt
  rw [Even] at even
  cases op with
  | write offset =>
      refine ⟨?_, fun h => by cases h⟩
      rw [length_written_le, even]
      · rfl
      intro access haccess
      by_cases hstart : 0 ≤ offset.toInt
      · have hpassed : ¬ sizeT b.info.size.toInt < sizeT (offset.toInt + data.bytes.length) := by
          intro hout
          have hcheck : b.checkWrite ev offset data strict = .none := pass
          rw [checkWrite_eq_outOfRange.2 hout] at hcheck
          cases hcheck
        have hin := within_transfer (inRange_of_check hstart hsize hpassed) dataIo _ haccess
        omega
      · have hlen := fits.resolve_left hstart
        have hin : access.pos + access.count ≤ data.bytes.length :=
          RandomAccessFile.transfer_negative (Int.not_le.1 hstart) haccess
        dsimp only at hlen
        omega
  | append =>
      have hlen : b.info.size.toInt + data.bytes.length < 2 ^ 31 := fits
      have hcall : b.dataCall ⟨.append, ev, nv, data, strict, dataIo, metaIo⟩ =
          RandomAccessFile.write b.file.length data.bytes.length dataIo :=
        RandomAccessFile.append_eq_write (by omega) _ _
      rw [hcall] at succeeds ⊢
      obtain ⟨k, -, hwritten, hall⟩ :=
        RandomAccessFile.write_written b.file.length data.bytes b.file dataIo
      obtain rfl := hall.1 succeeds
      dsimp only
      rw [hwritten, overwrite_end, sizeAfter]
      refine ⟨?_, fun _ => rfl⟩
      dsimp only
      rw [List.length_append, Int32.toInt_add, Int32.toInt_ofNat_of_lt (by omega),
        Int.bmod_eq_of_le (by omega) (by omega), ← even]
      rfl

/-! ## Numbers that do not wrap -/

/-- Nothing is negative, and the file is not too long for an `int32_t`. -/
structure Plain (blockSize : Int32) (b : StoredBlock) (a : StoreAct) : Prop where
  size : 0 ≤ b.info.size.toInt
  blockSize : 0 ≤ blockSize.toInt
  file : b.file.length < 2 ^ 31
  offset : ∀ offset, a.op = .write offset → 0 ≤ offset.toInt

/-- The change a call asks for. -/
def request (a : StoreAct) : Op :=
  match a.op with
  | .write offset => .write offset.toInt a.data.bytes
  | .append => .append a.data.bytes

/-- The checks are those of `Block`. -/
theorem check_block (h : Plain blockSize b a) :
    b.block.check blockSize.toInt (request a) a.exceptVersion a.strict = b.check blockSize a := by
  obtain ⟨op, ev, nv, data, strict, dataIo, metaIo⟩ := a
  cases op with
  | write offset => rfl
  | append =>
      have hshort := data.short
      have hlt := b.info.size.toInt_lt
      have hlimit := blockSize.toInt_lt
      have hsize := h.size
      have hblock := h.blockSize
      simp only [request, check, Block.check, checkAppend, block]
      rw [sizeT_of_lt hblock (by omega), sizeT_of_lt (by omega) (by omega)]
      rfl

/-- The size that a call leaves. -/
theorem toInt_sizeAfter (h : Plain blockSize b a) (pass : b.check blockSize a = .none) :
    (b.sizeAfter a).toInt = (request a).sizeAfter b.info.size.toInt := by
  rw [← check_block h] at pass
  obtain ⟨op, ev, nv, data, strict, dataIo, metaIo⟩ := a
  cases op with
  | write offset => rfl
  | append =>
      have hsize := h.size
      have hlimit := blockSize.toInt_lt
      have hroom : b.info.size.toInt + data.bytes.length ≤ blockSize.toInt := by
        have hcheck : b.block.check blockSize.toInt (.append data.bytes) ev strict = .none := pass
        rw [Block.check] at hcheck
        split at hcheck
        next => cases hcheck
        next =>
          split at hcheck
          next => cases hcheck
          next =>
            split at hcheck
            next => cases hcheck
            next hfull => exact Int.not_lt.1 hfull
      simp only [sizeAfter, request, Op.sizeAfter]
      rw [Int32.toInt_add, Int32.toInt_ofNat_of_lt (by omega),
        Int.bmod_eq_of_le (by omega) (by omega)]

/-- The data call writes a piece of its bytes where `Block` does, all of them if it
succeeds. -/
theorem dataCall_block (h : Plain blockSize b a) :
    ∃ k ≤ a.data.bytes.length,
      written a.data.bytes b.file (b.dataCall a).2 = (request a).touch b.file k ∧
      ((b.dataCall a).1 = .success ↔ k = a.data.bytes.length) := by
  obtain ⟨op, ev, nv, data, strict, dataIo, metaIo⟩ := a
  cases op with
  | write offset =>
      have hspec := RandomAccessFile.write_written offset.toInt.toNat data.bytes b.file dataIo
      rwa [Int.toNat_of_nonneg (h.offset offset rfl)] at hspec
  | append =>
      have hspec := RandomAccessFile.write_written b.file.length data.bytes b.file dataIo
      rwa [← RandomAccessFile.append_eq_write h.file] at hspec

end StoredBlock

/-- How the write of a meta file ends. -/
def RandomAccessFileResult.metaResult : RandomAccessFileResult → IoResult
  | .success => .success
  | .fileOpenFailed => .openFailed
  | _ => .failed 0

theorem RandomAccessFileResult.code_metaResult (r : RandomAccessFileResult) :
    r.metaResult.code = r.metaCode := by
  cases r <;> rfl

/-- A call does what `Block` does, for some ends of its file calls. -/
theorem StoredBlock.serve_block (h : Plain blockSize b a) :
    ∃ dataIo metaIo : IoResult,
      b.block.run blockSize.toInt (request a) a.exceptVersion a.newVersion a.strict dataIo metaIo =
        ((b.serve blockSize a).block.block, (b.serve blockSize a).code) := by
  have hcheck := check_block h
  by_cases hpass : b.check blockSize a = .none
  · obtain ⟨k, hk, hwritten, hall⟩ := dataCall_block h
    rw [hpass] at hcheck
    have hlength : (request a).data.length = a.data.bytes.length := by
      rw [request]
      split <;> rfl
    rw [serve_passed hpass]
    by_cases hsuccess : (b.dataCall a).1 = .success
    · refine ⟨.success, (RandomAccessFile.write 0 metaSize a.metaIo).1.metaResult, ?_⟩
      obtain rfl := hall.1 hsuccess
      rw [store_success hsuccess, Block.run_eq_apply, Block.apply, hcheck,
        RandomAccessFileResult.code_metaResult, hwritten]
      simp only [Block.perform, block, toInt_sizeAfter h hpass, hlength]
    · rcases b.dataCall_result a with hresult | hclosed
      · refine ⟨.failed k, .success, ?_⟩
        rw [Block.run_eq_apply, Block.apply, hcheck, store]
        simp only [List.mem_cons, hsuccess, List.not_mem_nil, or_false, false_or] at hresult
        rcases hresult with hfails | hfails
        · rw [hfails]
          simp only [hwritten, block]
        · rw [hfails]
          simp only [hwritten, block]
      · refine ⟨.openFailed, .success, ?_⟩
        rw [Block.run_eq_apply, Block.apply, hcheck, hclosed]
        rfl
  · refine ⟨.success, .success, ?_⟩
    rw [serve_refused hpass, Block.run_eq_apply, Block.apply, hcheck]
    split
    next hnone => exact absurd hnone hpass
    next => rfl

end Calls

/-! ## Runs -/

namespace StoreRun

/-- What a run of calls that do all or nothing keeps. -/
structure Inv (s : StoreRun) : Prop where
  invisible : FailuresInvisible s
  even : s.start.Even → s.block.Even

namespace Inv

variable {blockSize : Int32} {s s' : StoreRun} {a : StoreAct}

/-- One call more, that keeps all this. -/
theorem call (hs : s.Inv) (errors : StoreCall.ErrorKeeps ⟨s.block, a, s.block.serve blockSize a⟩)
    (placed : s.block.Even → StoreCall.PlacedAtSize ⟨s.block, a, s.block.serve blockSize a⟩)
    (even : s.block.Even → (s.block.serve blockSize a).block.Even)
    (h : s.step blockSize a = some s') : s'.Inv := by
  cases h
  exact ⟨⟨List.forall_mem_cons.2 ⟨errors, hs.invisible.errors⟩, fun hstart =>
    List.forall_mem_cons.2 ⟨placed (hs.even hstart), hs.invisible.placed hstart⟩⟩,
    fun hstart => even (hs.even hstart)⟩

/-- A call that leaves the block as it was. -/
theorem call_same (hs : s.Inv) (same : (s.block.serve blockSize a).block = s.block)
    (fails : (s.block.serve blockSize a).code ≠ .none) (h : s.step blockSize a = some s') :
    s'.Inv := by
  refine hs.call (fun _ => ?_) (fun _ _ hnone => absurd hnone fails) (fun heven => ?_) h
  · dsimp only
    rw [same]
    exact ⟨rfl, rfl⟩
  · rw [same]
    exact heven

theorem step (hs : s.Inv) (ha : Whole blockSize s a) (h : s.step blockSize a = some s') :
    s'.Inv := by
  by_cases hpass : s.block.check blockSize a = .none
  · have hwhole := ha hpass
    rw [AllOrNothing] at hwhole
    have hserve := StoredBlock.serve_passed hpass
    split at hwhole
    next hsuccess =>
      obtain ⟨hmeta, hfits⟩ := hwhole
      rw [StoredBlock.store_success hsuccess, hmeta] at hserve
      refine hs.call (fun herror => ?_) (fun heven happend _ => ?_) (fun heven => ?_) h
      · rw [hserve] at herror
        exact absurd rfl herror
      · have hfile := (StoredBlock.even_success heven hpass hsuccess hfits).2 happend
        have hbytes : s.block.info.bytes = s.block.file.length := by
          rw [BlockInfo.bytes, ← heven, Int.toNat_natCast]
        dsimp only
        rw [hserve, hfile, hbytes, List.drop_left, List.take_length]
      · rw [hserve]
        exact (StoredBlock.even_success heven hpass hsuccess hfits).1
    next hfails =>
      obtain ⟨hblock, hcode⟩ := StoredBlock.store_failed hfails
      rw [← hserve] at hblock hcode
      exact hs.call_same (by rw [hblock, hwhole]) hcode h
  · have hserve := StoredBlock.serve_refused hpass
    refine hs.call_same ?_ ?_ h
    · rw [hserve]
    · rw [hserve]
      exact hpass

end Inv

end StoreRun

/-- In every run whose file calls do all or nothing, failures are not seen. -/
theorem failures_invisible {blockSize : Int32} {s : StoreRun}
    (h : (storeSystem blockSize).Run (Whole blockSize) s) : FailuresInvisible s := by
  have hinv : s.Inv := by
    refine Transition.System.Run.invariant ?_ (fun _ _ _ hs ha hstep => hs.step ha hstep) h
    rintro s ⟨hblock, hcalls⟩
    refine ⟨⟨fun c hc => ?_, fun _ c hc => ?_⟩, fun heven => hblock ▸ heven⟩
    · rw [hcalls] at hc
      exact absurd hc List.not_mem_nil
    · rw [hcalls] at hc
      exact absurd hc List.not_mem_nil
  exact hinv.invisible

/-- A byte of data. -/
def oneByte : Payload := ⟨[5], by decide⟩

/-- All the bytes are moved at once. -/
def wholeIo (n : Nat) : FileIo := { transfers := [.moved n] }

/-- Two appends, between them one whose data file does not open and a write that is
refused. -/
def storeCalls : List StoreAct :=
  [⟨.append, 0, 1, oneByte, false, wholeIo 1, wholeIo 24⟩,
   ⟨.append, 1, 2, oneByte, false, { opens := false }, {}⟩,
   ⟨.write 5, 1, 2, oneByte, false, wholeIo 1, wholeIo 24⟩,
   ⟨.append, 1, 2, oneByte, false, { transfers := [.pending, .moved 1] }, wholeIo 24⟩]

/-- An empty block. -/
def emptyBlock : StoreRun := { start := { info := { id := 7 } }, block := { info := { id := 7 } } }

/-- The block after them. -/
def afterStores : StoreRun :=
  (Transition.exec (StoreRun.step 1024) emptyBlock storeCalls).getD emptyBlock

theorem failures_invisible_stores : FailuresInvisible afterStores := by
  have hexec : Transition.exec (StoreRun.step 1024) emptyBlock storeCalls = some afterStores := by
    decide +kernel
  have hrun : (storeSystem 1024).Run (Whole 1024) afterStores :=
    Transition.exec_run (.start ⟨rfl, rfl⟩) (by decide +kernel) hexec
  exact failures_invisible hrun

/-- An append of which one byte is written, and another one. -/
def tornAppend : List StoreAct :=
  [⟨.append, 0, 1, ⟨[1, 2], by decide⟩, false, { transfers := [.moved 1, .error] }, wholeIo 24⟩,
   ⟨.append, 0, 1, oneByte, false, wholeIo 1, wholeIo 24⟩]

/-- The block after them. -/
def afterTornAppend : StoreRun :=
  (Transition.exec (StoreRun.step 1024) emptyBlock tornAppend).getD emptyBlock

/-- The second goes behind the byte of the first, in an empty block. -/
theorem torn_append_shifts : ¬ ∀ s, (storeSystem 1024).Reachable s → FailuresInvisible s := by
  intro h
  have hexec : Transition.exec (StoreRun.step 1024) emptyBlock tornAppend =
      some afterTornAppend := by
    decide +kernel
  have hplaced := (h afterTornAppend (Transition.exec_reachable ⟨rfl, rfl⟩ hexec)).placed rfl
  have hshifted : ∃ c ∈ afterTornAppend.calls, c.act.op = .append ∧ c.outcome.code = .none ∧
      (c.outcome.block.file.drop c.before.info.bytes).take c.act.data.bytes.length ≠
        c.act.data.bytes := by
    decide +kernel
  obtain ⟨c, hc, happend, hnone, hne⟩ := hshifted
  exact hne (hplaced c hc happend hnone)

end Ofs.Node
