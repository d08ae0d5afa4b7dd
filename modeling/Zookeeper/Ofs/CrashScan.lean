import Zookeeper.Ofs.NodeBlock
import Zookeeper.Transition

/-!
# A chunk server that crashes

A block has a data file and a meta file with its version and size.  `Block::Write` and
`Block::Append` change the data file first and then write the meta file, and a recovery
replaces the data under the old meta file until `CompleteRecover`
(`ofs/node/block/Block.cpp`).  After a crash `BlockManager::ScanBlock` loads what the
meta files say: it cuts a data file that is longer and skips one that is shorter.

So a crash behind an `Append` is harmless (`changed_append`), and one behind the data of
a `Write` is not: `torn_write_loaded` is the old version with the new bytes.
`scan_loads_recorded` says that a loaded block is as it was recorded, where no crash
comes while the recorded bytes are changed and not yet recorded again.
-/

namespace Ofs.Node

/-! ## The files -/

/-- `BlockInfo`, the record in the meta file. -/
structure BlockInfo where
  id : Int64
  version : Int64 := 0
  size : Int32 := 0
deriving DecidableEq, Repr

/-- The layout of the record, with the padding behind `size`. -/
def BlockInfo.codec : Codec BlockInfo :=
  (Codec.int64.pair (Codec.int64.pair (Codec.int32.pair Codec.int32))).map
    (fun x => ⟨x.1, x.2.1, x.2.2.1⟩) (fun info => (info.id, info.version, info.size, 0))
      fun _ => rfl

/-- The number of bytes that belong to the block. -/
def BlockInfo.bytes (info : BlockInfo) : Nat := info.size.toInt.toNat

/-- `Block::RecoverController`. -/
structure Recover where
  version : Int64
  size : Int32
  dataFlags : List Bool
deriving DecidableEq, Repr

/-- The file call an operation goes on with. -/
inductive Pending where
  | metaFile
  | resizeFile (size : Int32)
deriving DecidableEq, Repr

/-- A block in memory. -/
structure Live where
  info : BlockInfo
  recover : Option Recover := none
  pending : Option Pending := none
deriving DecidableEq, Repr

/-- What the block was when its meta file was written. -/
structure Recorded where
  info : BlockInfo
  data : Bytes
deriving DecidableEq, Repr

/-- The files of a block, and the block in memory.  The last three fields only record
what happened. -/
structure Chunk where
  id : Int64
  dataFile : Option Bytes := none
  metaFile : Bytes := []
  live : Option Live := none
  /-- The server has crashed and not yet scanned its blocks. -/
  crashed : Bool := false
  recorded : Option Recorded := none
  /-- The recorded bytes have been changed since. -/
  changed : Bool := false
  /-- The record in the meta file has been changed in part. -/
  tornMeta : Bool := false
deriving DecidableEq, Repr

/-- The sizes `BlockManager` reads from the configuration. -/
structure Sizes where
  blockSize : Int
  batchSize : Nat

/-- The calls of a block, each up to its next file call, and crashes. -/
inductive ChunkAct where
  /-- `BlockManager::Get` creates a block that was not loaded. -/
  | create
  /-- `Write` or `Append` up to the data file. -/
  | request (op : Op) (exceptVersion newVersion : Int64) (strict : Bool) (io : IoResult)
  /-- The meta file is written. -/
  | writeMeta (io : IoResult)
  /-- `Resize`, up to `fs::resize_file`. -/
  | resize (version : Int64) (size : Int32)
  /-- `fs::resize_file`. -/
  | resizeFile (ok : Bool)
  | recoverData (version : Int64) (offset : Nat) (data : Bytes) (io : IoResult)
  /-- `CompleteRecover` up to the meta file. -/
  | completeRecover (version : Int64)
  | crash
  /-- `BlockManager::ScanBlock`. -/
  | scan

/-! ## The calls -/

/-- The bytes a file call transfers. -/
def IoResult.transferred (io : IoResult) (size : Nat) : Nat :=
  match io with
  | .success => size
  | .openFailed => 0
  | .failed k => k

/-- The block as the checks see it. -/
def Live.block (l : Live) : Block :=
  { version := l.info.version, size := l.info.size.toInt, recovering := l.recover.isSome }

/-- `_info` after a completed operation. -/
def Live.bumped (l : Live) (op : Op) (newVersion : Int64) (strict : Bool) : Live :=
  { l with
    info := { l.info with
      version := l.block.bumped newVersion strict
      size := Int32.ofInt (op.sizeAfter l.info.size.toInt) }
    pending := some .metaFile }

/-- `Resize` in memory, and whether it goes on to the file.  A negative number of flags
makes the vector throw. -/
def Live.startRecover (l : Live) (batchSize : Nat) (version : Int64) (size : Int32) :
    Live × Bool :=
  let count := size.toInt.tdiv batchSize
  match l.recover with
  | none =>
      if count < 0 then (l, false)
      else ({ l with recover := some ⟨version, size, List.replicate count.toNat false⟩ }, true)
  | some r =>
      if r.version < version then
        ({ l with recover := some ⟨version, size, List.replicate count.toNat false⟩ },
          decide (0 ≤ count))
      else (l, false)

namespace Chunk

/-- The bytes of the data file. -/
def data (s : Chunk) : Bytes := s.dataFile.getD []

/-- A call that changes the data file. -/
def setData (s : Chunk) (file : Bytes) : Chunk :=
  { s with
    dataFile := some file
    changed := s.changed || s.recorded.any fun r =>
      decide (file.take r.info.bytes ≠ s.data.take r.info.bytes) }

/-- A write to the data file.  Without bytes, or if it cannot be opened, nothing happens. -/
def writeData (s : Chunk) (op : Op) (io : IoResult) : Chunk :=
  if op.data = [] ∨ io = .openFailed then s
  else s.setData (op.touch s.data (io.transferred op.data.length))

/-- A write to the meta file. -/
def writeInfo (s : Chunk) (l : Live) (io : IoResult) : Chunk :=
  let s := { s with live := some { l with pending := none } }
  let bytes := BlockInfo.codec.encode l.info
  let file := overwrite s.metaFile 0 (bytes.take (io.transferred bytes.length))
  match io with
  | .success =>
      { s with
          metaFile := file, recorded := some ⟨l.info, s.data⟩
          changed := false, tornMeta := false }
  | _ =>
      { s with
        metaFile := file
        tornMeta := s.tornMeta ||
          decide (BlockInfo.codec.read file ≠ BlockInfo.codec.read s.metaFile) }

/-- `ScanBlock`: the block it loads, and the data file. -/
def scanBlock (s : Chunk) : Option (BlockInfo × Bytes) :=
  match BlockInfo.codec.read s.metaFile, s.dataFile with
  | some (info, _), some file =>
      if info.id ≠ s.id then none
      else if info.size < Int32.ofNat file.length then
        -- `resize_file` throws for a negative size
        if info.size < 0 then none else some (info, file.take info.bytes)
      else if Int32.ofNat file.length < info.size then none
      else some (info, file)
  -- `file_size` throws without a data file
  | _, _ => none

/-- The steps of a block in memory. -/
def stepLive (sizes : Sizes) (s : Chunk) (l : Live) : ChunkAct → Option Chunk
  | .request op exceptVersion newVersion strict io =>
      if l.pending.isSome then none
      else if l.block.check sizes.blockSize op exceptVersion strict = .none then
        some { s.writeData op io with
          live := some (if io = .success then l.bumped op newVersion strict else l) }
      else some s
  | .writeMeta io => if l.pending = some .metaFile then some (s.writeInfo l io) else none
  | .resize version size =>
      if l.pending.isSome then none
      else if version ≤ l.info.version then some s
      else
        let (l, goesOn) := l.startRecover sizes.batchSize version size
        if goesOn then
          let s := { s with live := some { l with pending := some (.resizeFile size) } }
          -- a file that does not exist is made with one byte
          match s.dataFile with
          | none => some (s.setData [99])
          | some _ => some s
        else some { s with live := some l }
  | .resizeFile ok =>
      match l.pending with
      | some (.resizeFile size) =>
          let s' := { s with live := some { l with pending := none } }
          if ok = true ∧ 0 ≤ size then
            some (s'.setData (s.data.take size.toInt.toNat ++
              List.replicate (size.toInt.toNat - s.data.length) 0))
          else some s'
      | _ => none
  | .recoverData version offset data io =>
      if l.pending.isSome then none
      else
        match l.recover with
        | some r =>
            if r.version = version then
              some { s.writeData (.write offset data) io with
                live := some { l with recover := some (if io = .success then
                  { r with dataFlags := r.dataFlags.set (offset / sizes.batchSize) true }
                  else r) } }
            else some s
        | none => some s
  | .completeRecover version =>
      if l.pending.isSome then none
      else
        match l.recover with
        | some r =>
            if r.version = version ∧ false ∉ r.dataFlags then
              some { s with live := some { l with
                info := { l.info with version := version, size := r.size }
                recover := none
                pending := some .metaFile } }
            else some s
        | none => some s
  | _ => none

def step (sizes : Sizes) (s : Chunk) (a : ChunkAct) : Option Chunk :=
  match a, s.live with
  | .crash, _ => some { s with live := none, crashed := true }
  | .scan, _ =>
      if s.crashed then
        match s.scanBlock with
        | some (info, file) =>
            some { s with dataFile := some file, live := some { info := info }, crashed := false }
        | none => some { s with crashed := false }
      else none
  | .create, none =>
      if s.crashed then none else some { s with live := some { info := { id := s.id } } }
  | a, some l => s.stepLive sizes l a
  | _, none => none

/-- A block nobody has heard of. -/
def Fresh (s : Chunk) : Prop := ∃ id, s = { id := id }

/-- The data file is shorter than it was recorded. -/
def Short (s : Chunk) : Prop := ∀ r ∈ s.recorded, s.data.length < r.info.bytes

instance (s : Chunk) : Decidable s.Short :=
  inferInstanceAs (Decidable (∀ r ∈ s.recorded, _))

end Chunk

/-- The runs of a block. -/
def chunkSystem (sizes : Sizes) : Transition.System Chunk ChunkAct :=
  Transition.ofStep Chunk.Fresh (Chunk.step sizes)

/-- After a crash, a block is loaded as it was recorded last. -/
def LoadsRecorded (s : Chunk) : Prop :=
  s.crashed = true → ∀ info file, s.scanBlock = some (info, file) →
    ∃ r, s.recorded = some r ∧ r.info = info ∧ file.take info.bytes = r.data.take info.bytes

/-- No crash comes between a change of the recorded bytes, or of a part of the meta file,
and the next record, unless it leaves the data file too short to be loaded. -/
def Untorn (s : Chunk) : ChunkAct → Prop
  | .crash => s.tornMeta = false ∧ (s.changed = false ∨ s.Short)
  | _ => True

instance (s : Chunk) : ∀ a, Decidable (Untorn s a)
  | .crash => inferInstanceAs (Decidable (_ ∧ _))
  | .create => inferInstanceAs (Decidable True)
  | .request _ _ _ _ _ => inferInstanceAs (Decidable True)
  | .writeMeta _ => inferInstanceAs (Decidable True)
  | .resize _ _ => inferInstanceAs (Decidable True)
  | .resizeFile _ => inferInstanceAs (Decidable True)
  | .recoverData _ _ _ _ => inferInstanceAs (Decidable True)
  | .completeRecover _ => inferInstanceAs (Decidable True)
  | .scan => inferInstanceAs (Decidable True)

/-! ## What the steps keep -/

namespace Chunk

theorem metaFile_writeInfo (s : Chunk) (l : Live) (io : IoResult) :
    (s.writeInfo l io).metaFile = overwrite s.metaFile 0 ((BlockInfo.codec.encode l.info).take
      (io.transferred (BlockInfo.codec.encode l.info).length)) := by
  cases io <;> rfl

@[simp] theorem crashed_writeData (s : Chunk) (op : Op) (io : IoResult) :
    (s.writeData op io).crashed = s.crashed := by
  rw [writeData]
  split <;> rfl

/-- What the files hold in runs without a torn crash. -/
structure Inv (s : Chunk) : Prop where
  up : s.crashed = true → s.live = none
  length_le : s.metaFile.length ≤ BlockInfo.codec.size
  /-- The meta file holds what was recorded. -/
  meta_eq : s.tornMeta = false →
    BlockInfo.codec.read s.metaFile = s.recorded.map fun r => (r.info, [])
  /-- The data file begins with it. -/
  data_eq : s.changed = false →
    ∀ r ∈ s.recorded, s.data.take r.info.bytes = r.data.take r.info.bytes
  crash : s.crashed = true → s.tornMeta = false ∧ (s.changed = false ∨ s.Short)

namespace Inv

variable {sizes : Sizes} {s : Chunk}

theorem of_fresh (h : s.Fresh) : s.Inv := by
  obtain ⟨id, rfl⟩ := h
  exact ⟨nofun, Nat.zero_le _, fun _ => rfl, nofun, nofun⟩

/-- A step in memory. -/
theorem setLive (h : s.Inv) (hup : s.crashed = false) (l : Option Live) :
    Inv { s with live := l } where
  up hc := absurd (hup.symm.trans hc) nofun
  length_le := h.length_le
  meta_eq := h.meta_eq
  data_eq := h.data_eq
  crash hc := absurd (hup.symm.trans hc) nofun

theorem setData (h : s.Inv) (hup : s.crashed = false) (file : Bytes) : (s.setData file).Inv where
  up hc := absurd (hup.symm.trans hc) nofun
  length_le := h.length_le
  meta_eq := h.meta_eq
  data_eq hchanged r hr := by
    rw [Option.mem_def] at hr
    have hr' : s.recorded = some r := hr
    simp only [Chunk.setData, hr', Option.any_some, Bool.or_eq_false_iff, decide_eq_false_iff_not,
      not_not] at hchanged
    rw [← h.data_eq hchanged.1 r hr']
    exact hchanged.2
  crash hc := absurd (hup.symm.trans hc) nofun

theorem writeData (h : s.Inv) (hup : s.crashed = false) (op : Op) (io : IoResult) :
    (s.writeData op io).Inv := by
  rw [Chunk.writeData]
  split
  next => exact h
  next => exact h.setData hup _

theorem writeInfo (h : s.Inv) (hup : s.crashed = false) (l : Live) (io : IoResult) :
    (s.writeInfo l io).Inv := by
  have hlen : (BlockInfo.codec.encode l.info).length = BlockInfo.codec.size :=
    BlockInfo.codec.length_encode _
  have hshort := h.length_le
  have hfile : (s.writeInfo l io).metaFile.length ≤ BlockInfo.codec.size := by
    rw [metaFile_writeInfo, overwrite_zero, List.length_append, List.length_drop, List.length_take]
    omega
  cases io with
  | success =>
      constructor
      case up => exact fun hc => absurd (hup.symm.trans hc) nofun
      case length_le => exact hfile
      case meta_eq =>
        intro _
        have hdrop : s.metaFile.drop (BlockInfo.codec.encode l.info).length = [] :=
          List.drop_eq_nil_of_le (by omega)
        rw [metaFile_writeInfo, IoResult.transferred, List.take_length, overwrite_zero, hdrop,
          Codec.read_encode]
        rfl
      case data_eq =>
        rintro _ r hr
        cases hr
        rfl
      case crash => exact fun hc => absurd (hup.symm.trans hc) nofun
  | _ =>
      constructor
      case up => exact fun hc => absurd (hup.symm.trans hc) nofun
      case length_le => exact hfile
      case meta_eq =>
        intro htorn
        simp only [Chunk.writeInfo, Bool.or_eq_false_iff, decide_eq_false_iff_not, not_not] at htorn
        exact htorn.2.trans (h.meta_eq htorn.1)
      case data_eq => exact h.data_eq
      case crash => exact fun hc => absurd (hup.symm.trans hc) nofun

/-- `ScanBlock` loads what was recorded. -/
theorem loads (h : s.Inv) : LoadsRecorded s := by
  intro hcrashed info file hscan
  obtain ⟨htorn, hsafe⟩ := h.crash hcrashed
  have hmeta := h.meta_eq htorn
  rw [scanBlock] at hscan
  split at hscan
  next info' rest data hread hdata =>
    rw [hread] at hmeta
    obtain ⟨r, hr, heq⟩ := Option.map_eq_some_iff.mp hmeta.symm
    cases heq
    have hbytes : s.data = data := by simp [Chunk.data, hdata]
    split at hscan
    next => cases hscan
    next =>
      -- a file that is too short is not loaded
      have hkept : ¬ Int32.ofNat data.length < r.info.size →
          data.take r.info.bytes = r.data.take r.info.bytes := by
        intro hlong
        rcases hsafe with hsafe | hsafe
        · rw [← hbytes]
          exact h.data_eq hsafe r hr
        · have hlt := hsafe r hr
          rw [hbytes] at hlt
          refine absurd ?_ hlong
          have hsize := r.info.size.toInt_lt
          rw [BlockInfo.bytes] at hlt
          rw [Int32.lt_iff_toInt_lt, Int32.toInt_ofNat_of_lt (by omega)]
          omega
      refine ⟨r, hr, ?_⟩
      split at hscan
      next hlt =>
        split at hscan
        next => cases hscan
        next =>
          cases hscan
          refine ⟨rfl, ?_⟩
          rw [List.take_take, Nat.min_self]
          exact hkept (by grind)
      next =>
        split at hscan
        next => cases hscan
        next hlong =>
          cases hscan
          exact ⟨rfl, hkept hlong⟩
  next => cases hscan

theorem scan (h : s.Inv) {s' : Chunk} (hstep : s.step sizes .scan = some s') : s'.Inv := by
  simp only [step] at hstep
  split at hstep
  next hcrashed =>
    split at hstep
    next info file hscan =>
      cases hstep
      obtain ⟨r, hr, hinfo, hfile⟩ := h.loads hcrashed info file hscan
      refine ⟨nofun, h.length_le, h.meta_eq, fun _ r' hr' => ?_, nofun⟩
      cases hr.symm.trans hr'
      rw [hinfo]
      exact hfile
    next =>
      cases hstep
      exact ⟨nofun, h.length_le, h.meta_eq, h.data_eq, nofun⟩
  next => cases hstep

theorem crashes (h : s.Inv) (ha : Untorn s .crash) :
    Inv { s with live := none, crashed := true } :=
  ⟨fun _ => rfl, h.length_le, h.meta_eq, h.data_eq, fun _ => ha⟩

theorem stepLive (h : s.Inv) {l : Live} (hlive : s.live = some l) {a : ChunkAct} {s' : Chunk}
    (hstep : s.stepLive sizes l a = some s') : s'.Inv := by
  have hup : s.crashed = false := by
    cases hc : s.crashed with
    | false => rfl
    | true => cases hlive.symm.trans (h.up hc)
  cases a with
  | request op exceptVersion newVersion strict io =>
      simp only [Chunk.stepLive] at hstep
      split at hstep
      next => cases hstep
      next =>
        split at hstep
        next =>
          cases hstep
          exact (h.writeData hup op io).setLive (by rw [crashed_writeData, hup]) _
        next =>
          cases hstep
          exact h
  | writeMeta io =>
      simp only [Chunk.stepLive] at hstep
      split at hstep
      next =>
        cases hstep
        exact h.writeInfo hup l io
      next => cases hstep
  | resize version size =>
      simp only [Chunk.stepLive] at hstep
      split at hstep
      next => cases hstep
      next =>
        split at hstep
        next =>
          cases hstep
          exact h
        next =>
          split at hstep
          next =>
            split at hstep
            next =>
              cases hstep
              exact Inv.setData (h.setLive hup (some _)) (by exact hup) _
            next =>
              cases hstep
              exact h.setLive hup _
          next =>
            cases hstep
            exact h.setLive hup _
  | resizeFile ok =>
      simp only [Chunk.stepLive] at hstep
      split at hstep
      next =>
        split at hstep
        next =>
          cases hstep
          exact Inv.setData (h.setLive hup (some _)) (by exact hup) _
        next =>
          cases hstep
          exact h.setLive hup _
      next => cases hstep
  | recoverData version offset data io =>
      simp only [Chunk.stepLive] at hstep
      split at hstep
      next => cases hstep
      next =>
        split at hstep
        next =>
          split at hstep
          next =>
            cases hstep
            exact (h.writeData hup _ io).setLive (by rw [crashed_writeData, hup]) _
          next =>
            cases hstep
            exact h
        next =>
          cases hstep
          exact h
  | completeRecover version =>
      simp only [Chunk.stepLive] at hstep
      split at hstep
      next => cases hstep
      next =>
        split at hstep
        next =>
          split at hstep
          next =>
            cases hstep
            exact h.setLive hup _
          next =>
            cases hstep
            exact h
        next =>
          cases hstep
          exact h
  | create => cases hstep
  | crash => cases hstep
  | scan => cases hstep

theorem next (h : s.Inv) {a : ChunkAct} (ha : Untorn s a) {s' : Chunk}
    (hstep : s.step sizes a = some s') : s'.Inv := by
  cases a with
  | crash =>
      cases hstep
      exact h.crashes ha
  | scan => exact h.scan hstep
  | create =>
      cases hlive : s.live with
      | some l =>
          simp only [step, hlive] at hstep
          exact h.stepLive hlive hstep
      | none =>
          simp only [step, hlive] at hstep
          split at hstep
          next => cases hstep
          next hup =>
            cases hstep
            exact h.setLive (by simpa using hup) _
  | _ =>
      cases hlive : s.live with
      | some l =>
          simp only [step, hlive] at hstep
          exact h.stepLive hlive hstep
      | none =>
          simp only [step, hlive] at hstep
          cases hstep

end Inv

end Chunk

/-- In every run without a torn crash, a block is loaded as it was recorded. -/
theorem scan_loads_recorded (sizes : Sizes) {s : Chunk}
    (h : (chunkSystem sizes).Run Untorn s) : LoadsRecorded s := by
  have hinv : s.Inv := by
    refine Transition.System.Run.invariant (fun _ => Chunk.Inv.of_fresh) ?_ h
    exact fun s a s' hs ha hstep => hs.next ha hstep
  exact hinv.loads

/-- An `Append` changes nothing that was recorded, where the data file has all of it. -/
theorem changed_append {s : Chunk} (h : ∀ r ∈ s.recorded, r.info.bytes ≤ s.data.length)
    (data : Bytes) (io : IoResult) : (s.writeData (.append data) io).changed = s.changed := by
  rw [Chunk.writeData]
  split
  next => rfl
  next =>
    cases hr : s.recorded with
    | none => simp [Chunk.setData, hr]
    | some r =>
        have hlen := h r hr
        simp [Chunk.setData, hr, Op.touch, take_overwrite _ hlen hlen]

/-- A block of one byte, and a `Write` to it whose meta file is not written. -/
def tornWrite : List ChunkAct :=
  [.create, .request (.append [1]) 0 1 false .success, .writeMeta .success,
   .request (.write 0 [2]) 1 2 false .success, .crash]

/-- What is left on the disk. -/
def tornChunk : Chunk :=
  { id := 7
    dataFile := some [2]
    metaFile := BlockInfo.codec.encode { id := 7, version := 1, size := 1 }
    crashed := true
    recorded := some ⟨{ id := 7, version := 1, size := 1 }, [1]⟩
    changed := true }

/-- The old version is loaded with the new byte. -/
theorem torn_write_loaded :
    ¬ ∀ s, (chunkSystem ⟨100, 10⟩).Reachable s → LoadsRecorded s := by
  intro h
  have hrun : Transition.exec (Chunk.step ⟨100, 10⟩) { id := 7 } tornWrite = some tornChunk := by
    decide
  obtain ⟨r, hr, _, hdata⟩ := h tornChunk (Transition.exec_reachable ⟨7, rfl⟩ hrun) rfl
    { id := 7, version := 1, size := 1 } [2] (by decide)
  cases hr
  exact absurd hdata (by decide)

/-- The same with the meta file written before the crash. -/
def wholeWrite : List ChunkAct :=
  [.create, .request (.append [1]) 0 1 false .success, .writeMeta .success,
   .request (.write 0 [2]) 1 2 false .success, .writeMeta .success, .crash]

def wholeChunk : Chunk :=
  { id := 7
    dataFile := some [2]
    metaFile := BlockInfo.codec.encode { id := 7, version := 2, size := 1 }
    crashed := true
    recorded := some ⟨{ id := 7, version := 2, size := 1 }, [2]⟩ }

theorem scan_loads_whole : LoadsRecorded wholeChunk := by
  have hexec : Transition.exec (Chunk.step ⟨100, 10⟩) { id := 7 } wholeWrite =
      some wholeChunk := by
    decide
  have hrun : (chunkSystem ⟨100, 10⟩).Run Untorn wholeChunk :=
    Transition.exec_run (.start ⟨7, rfl⟩) (by decide) hexec
  exact scan_loads_recorded ⟨100, 10⟩ hrun

end Ofs.Node
