import Zookeeper.Ofs.CrashScan
import Zookeeper.Ofs.RandomAccess

/-!
# The bounds of a block

`Block::Read` and `Block::Write` compare the end of what they are asked for with the size
of the block, and leave out its beginning.  `Read` adds in `int32_t`, where the sum can
wrap, and `Write` in `size_t`, where a negative offset counts back from the size of the
data.  Seeking to a negative position fails, so both go on at the start of the file.

`StoredBlock` has the block with its numbers as they are stored, and its file calls down
to what they touch.  `bounds_iff` says which offsets are kept in bounds.
-/

namespace Ofs.Node

/-- A `std::string` of data: it is no longer than `max_size`. -/
structure Payload where
  bytes : Bytes
  short : bytes.length < 2 ^ 63
deriving DecidableEq, Repr

/-- `ofs::Block` with its data file. -/
structure StoredBlock where
  info : BlockInfo
  file : Bytes := []
  recovering : Bool := false
deriving DecidableEq, Repr

/-- `api::chunk::ErrorCode`, the codes `Read` returns. -/
inductive ReadCode where
  | none
  | blockFileNotExist
  | blockReadFailed
  | blockOutOfRange
  | blockIsRecovering
deriving DecidableEq, Repr

/-- What a write returns and leaves, and what it has touched of the data file. -/
structure Outcome where
  block : StoredBlock
  code : ErrorCode
  touched : List Access := []
deriving DecidableEq, Repr

/-- The code for the end of a read. -/
def RandomAccessFileResult.readCode : RandomAccessFileResult → ReadCode
  | .success => .none
  | .fileOpenFailed => .blockFileNotExist
  | .opFailed => .blockReadFailed
  | .opIncomplete => .blockReadFailed
  | .opOutOfRange => .blockOutOfRange

/-- The code for the write of the meta file. -/
def RandomAccessFileResult.metaCode : RandomAccessFileResult → ErrorCode
  | .success => .none
  | .fileOpenFailed => .openOrCreateFileFailed
  | _ => .blockWriteFailed

namespace StoredBlock

/-- The same block with numbers that do not wrap. -/
def block (b : StoredBlock) : Block :=
  { version := b.info.version, size := b.info.size.toInt, data := b.file,
    recovering := b.recovering }

/-- `Block::Read`, with what it touches.  There is no code where `resize` throws. -/
def read (b : StoredBlock) (offset size : Int32) (io : FileIo) : Option ReadCode × List Access :=
  if b.info.size < offset + size then (some .blockOutOfRange, [])
  else if b.recovering then (some .blockIsRecovering, [])
  else if size < 0 then (none, [])
  else
    let r := RandomAccessFile.read offset.toInt size.toNatClampNeg io
    (some r.1.readCode, r.2)

/-- `sizeof(_info)`. -/
def metaSize : Nat := 24

/-- What `Write` and `Append` do behind their checks, with the size they leave. -/
def store (b : StoredBlock) (data : Bytes) (size : Int32) (newVersion : Int64) (strict : Bool)
    (r : RandomAccessFileResult × List Access) (metaIo : FileIo) : Outcome :=
  let file := written data b.file r.2
  match r.1 with
  | .fileOpenFailed => ⟨{ b with file := file }, .openOrCreateFileFailed, r.2⟩
  | .opFailed => ⟨{ b with file := file }, .blockWriteFailed, r.2⟩
  | .opIncomplete => ⟨{ b with file := file }, .blockWriteFailed, r.2⟩
  | _ =>
      let info := { b.info with size := size, version := b.block.bumped newVersion strict }
      ⟨{ b with file := file, info := info }, (RandomAccessFile.write 0 metaSize metaIo).1.metaCode,
        r.2⟩

/-- The checks of `Block::Write`. -/
def checkWrite (b : StoredBlock) (exceptVersion : Int64) (offset : Int32) (data : Payload)
    (strict : Bool) : ErrorCode :=
  if sizeT b.info.size.toInt < sizeT (offset.toInt + data.bytes.length) then .blockOutOfRange
  else if b.recovering then .blockIsRecovering
  else if b.block.versionBad exceptVersion strict then .versionCheckFailed
  else .none

/-- `Block::Write`. -/
def write (b : StoredBlock) (exceptVersion newVersion : Int64) (offset : Int32) (data : Payload)
    (strict : Bool) (dataIo metaIo : FileIo) : Outcome :=
  match b.checkWrite exceptVersion offset data strict with
  | .none =>
      b.store data.bytes b.info.size newVersion strict
        (RandomAccessFile.write offset.toInt data.bytes.length dataIo) metaIo
  | code => ⟨b, code, []⟩

/-- The checks of `Block::Append`. -/
def checkAppend (b : StoredBlock) (blockSize : Int32) (exceptVersion : Int64) (data : Payload)
    (strict : Bool) : ErrorCode :=
  if b.recovering then .blockIsRecovering
  else if b.block.versionBad exceptVersion strict then .versionCheckFailed
  else if sizeT blockSize.toInt < sizeT (b.info.size.toInt + data.bytes.length) then .blockFull
  else .none

/-- `Block::Append`. -/
def append (b : StoredBlock) (blockSize : Int32) (exceptVersion newVersion : Int64)
    (data : Payload) (strict : Bool) (dataIo metaIo : FileIo) : Outcome :=
  match b.checkAppend blockSize exceptVersion data strict with
  | .none =>
      b.store data.bytes (b.info.size + Int32.ofNat data.bytes.length) newVersion strict
        (RandomAccessFile.append b.file.length data.bytes.length dataIo) metaIo
  | code => ⟨b, code, []⟩

/-! ## Bounds -/

/-- So many bytes from an offset on are bytes of the block. -/
def InRange (b : StoredBlock) (offset : Int32) (length : Int) : Prop :=
  0 ≤ offset.toInt ∧ offset.toInt + length ≤ b.info.size.toInt

/-- All accesses are to bytes of the block. -/
def Within (b : StoredBlock) (touched : List Access) : Prop :=
  ∀ a ∈ touched, (a.pos : Int) + a.count ≤ b.info.size.toInt

/-- A read that is not in range is refused, and none leaves the block. -/
def ReadBounded (b : StoredBlock) (offset size : Int32) : Prop :=
  ∀ io, (b.InRange offset size.toInt ∨ (b.read offset size io).1 = some .blockOutOfRange) ∧
    b.Within (b.read offset size io).2

/-- A write that is not in range is refused, and none leaves the block. -/
def WriteBounded (b : StoredBlock) (offset : Int32) (data : Payload) : Prop :=
  ∀ exceptVersion newVersion strict dataIo metaIo,
    (b.InRange offset data.bytes.length ∨
        (b.write exceptVersion newVersion offset data strict dataIo metaIo).code =
          .blockOutOfRange) ∧
      b.Within (b.write exceptVersion newVersion offset data strict dataIo metaIo).touched

variable {b : StoredBlock} {offset size : Int32} {data : Payload}

theorem within_nil (b : StoredBlock) : b.Within [] := fun _ h => absurd h List.not_mem_nil

/-- What is in range is touched in the block. -/
theorem within_transfer {atEnd : RandomAccessFileResult} {length : Nat}
    (h : b.InRange offset length) (io : FileIo) :
    b.Within (RandomAccessFile.transfer atEnd offset.toInt length io).2 := by
  obtain ⟨hstart, hend⟩ := h
  intro a ha
  rw [← Int.toNat_of_nonneg hstart] at ha hend
  have hin := RandomAccessFile.transfer_inside ha
  omega

/-! ## Reading -/

theorem read_refused (h : b.info.size < offset + size) (io : FileIo) :
    b.read offset size io = (some .blockOutOfRange, []) := if_pos h

/-- A file that does not open is not out of range. -/
theorem read_closed (h : ¬ b.info.size < offset + size) :
    (b.read offset size { opens := false }).1 ≠ some .blockOutOfRange := by
  rw [read, if_neg h]
  split
  next => simp
  next =>
    split
    next => simp
    next =>
      rw [RandomAccessFile.read, RandomAccessFile.transfer]
      split
      next => simp [RandomAccessFileResult.readCode]
      next => simp [RandomAccessFileResult.readCode]

theorem readBounded_iff (b : StoredBlock) (offset size : Int32) :
    b.ReadBounded offset size ↔
      (0 ≤ offset.toInt ∧ offset.toInt + size.toInt < 2 ^ 31) ∨ b.info.size < offset + size := by
  by_cases hrefused : b.info.size < offset + size
  · refine iff_of_true (fun io => ?_) (.inr hrefused)
    rw [read_refused hrefused]
    exact ⟨.inr rfl, b.within_nil⟩
  rw [or_iff_left hrefused]
  constructor
  · intro h
    rcases (h { opens := false }).1 with hin | hcode
    · have hlt := b.info.size.toInt_lt
      exact ⟨hin.1, by have := hin.2; omega⟩
    · exact absurd hcode (read_closed hrefused)
  · rintro ⟨hstart, hsum⟩ io
    have hrange : b.InRange offset size.toInt := by
      have hle := Int32.not_lt.1 hrefused
      have hsize := size.le_toInt
      rw [Int32.le_iff_toInt_le, Int32.toInt_add, Int.bmod_eq_of_le (by omega) (by omega)] at hle
      exact ⟨hstart, hle⟩
    refine ⟨.inl hrange, ?_⟩
    rw [read, if_neg hrefused]
    split
    next => exact b.within_nil
    next =>
      split
      next => exact b.within_nil
      next hsize =>
        have hnonneg : 0 ≤ size.toInt := Int32.le_iff_toInt_le.1 (Int32.not_lt.1 hsize)
        refine within_transfer ?_ io
        rwa [Int32.toNatClampNeg, Int.toNat_of_nonneg hnonneg]

/-! ## Writing -/

theorem store_code_ne (data : Bytes) (size : Int32) (newVersion : Int64) (strict : Bool)
    (r : RandomAccessFileResult × List Access) (metaIo : FileIo) :
    (b.store data size newVersion strict r metaIo).code ≠ .blockOutOfRange := by
  have hmeta : ∀ m : RandomAccessFileResult, m.metaCode ≠ .blockOutOfRange := by
    intro m
    cases m <;> simp [RandomAccessFileResult.metaCode]
  rw [store]
  cases r.1 with
  | success => exact hmeta _
  | opOutOfRange => exact hmeta _
  | fileOpenFailed => simp
  | opFailed => simp
  | opIncomplete => simp

theorem store_touched (data : Bytes) (size : Int32) (newVersion : Int64) (strict : Bool)
    (r : RandomAccessFileResult × List Access) (metaIo : FileIo) :
    (b.store data size newVersion strict r metaIo).touched = r.2 := by
  rw [store]
  cases r.1 <;> rfl

theorem sizeT_of_lt {x : Int} (nonneg : 0 ≤ x) (small : x < 2 ^ 64) : sizeT x = x :=
  Int.emod_eq_of_lt nonneg small

/-- A write is refused as out of range by its first check, or not at all. -/
theorem checkWrite_eq_outOfRange {exceptVersion : Int64} {strict : Bool} :
    b.checkWrite exceptVersion offset data strict = .blockOutOfRange ↔
      sizeT b.info.size.toInt < sizeT (offset.toInt + data.bytes.length) := by
  rw [checkWrite]
  split
  next hout => exact iff_of_true rfl hout
  next hin =>
    refine iff_of_false ?_ hin
    split
    next => simp
    next => split <;> simp

/-- Beside the checks, only a write that passes them touches the file. -/
theorem write_cases (b : StoredBlock) (exceptVersion newVersion : Int64) (offset : Int32)
    (data : Payload) (strict : Bool) (dataIo metaIo : FileIo) :
    b.checkWrite exceptVersion offset data strict = .none ∧
        b.write exceptVersion newVersion offset data strict dataIo metaIo =
          b.store data.bytes b.info.size newVersion strict
            (RandomAccessFile.write offset.toInt data.bytes.length dataIo) metaIo ∨
      b.checkWrite exceptVersion offset data strict ≠ .none ∧
        b.write exceptVersion newVersion offset data strict dataIo metaIo =
          ⟨b, b.checkWrite exceptVersion offset data strict, []⟩ := by
  rw [write]
  cases hcheck : b.checkWrite exceptVersion offset data strict with
  | none => exact .inl ⟨rfl, rfl⟩
  | _ => exact .inr ⟨by simp, rfl⟩

/-- A write that passes its first check is in range if nothing is negative. -/
theorem inRange_of_check (hstart : 0 ≤ offset.toInt) (hsize : 0 ≤ b.info.size.toInt)
    (h : ¬ sizeT b.info.size.toInt < sizeT (offset.toInt + data.bytes.length)) :
    b.InRange offset data.bytes.length := by
  have hshort := data.short
  have hoffset := offset.toInt_lt
  have hlt := b.info.size.toInt_lt
  rw [sizeT_of_lt hsize (by omega), sizeT_of_lt (by omega) (by omega)] at h
  exact ⟨hstart, Int.not_lt.1 h⟩

theorem writeBounded_iff (b : StoredBlock) (offset : Int32) (data : Payload) :
    b.WriteBounded offset data ↔
      (0 ≤ offset.toInt ∧ 0 ≤ b.info.size.toInt) ∨
        sizeT b.info.size.toInt < sizeT (offset.toInt + data.bytes.length) := by
  constructor
  · intro h
    rcases (h 0 0 false {} {}).1 with hin | hcode
    · exact .inl ⟨hin.1, by have := hin.2; have := hin.1; omega⟩
    · rcases b.write_cases 0 0 offset data false {} {} with ⟨-, hwrite⟩ | ⟨-, hwrite⟩
      · rw [hwrite] at hcode
        exact absurd hcode (store_code_ne _ _ _ _ _ _)
      · rw [hwrite] at hcode
        exact .inr (checkWrite_eq_outOfRange.1 hcode)
  · intro h exceptVersion newVersion strict dataIo metaIo
    have hrefused : sizeT b.info.size.toInt < sizeT (offset.toInt + data.bytes.length) →
        b.checkWrite exceptVersion offset data strict = .blockOutOfRange :=
      checkWrite_eq_outOfRange.2
    rcases b.write_cases exceptVersion newVersion offset data strict dataIo metaIo with
      ⟨hcheck, hwrite⟩ | ⟨-, hwrite⟩
    · have hpassed : ¬ sizeT b.info.size.toInt < sizeT (offset.toInt + data.bytes.length) := by
        intro hlt
        rw [hrefused hlt] at hcheck
        cases hcheck
      have hnonneg := h.resolve_right hpassed
      have hrange := inRange_of_check hnonneg.1 hnonneg.2 hpassed
      rw [hwrite, store_touched]
      exact ⟨.inl hrange, within_transfer hrange dataIo⟩
    · rw [hwrite]
      refine ⟨?_, b.within_nil⟩
      by_cases hlt : sizeT b.info.size.toInt < sizeT (offset.toInt + data.bytes.length)
      · exact .inr (hrefused hlt)
      · have hnonneg := h.resolve_right hlt
        exact .inl (inRange_of_check hnonneg.1 hnonneg.2 hlt)

end StoredBlock

/-- A read is kept in bounds exactly if its offset is not negative and the sum does not
wrap, or it is refused.  A write is if neither its offset nor the size of the block is
negative, or it is refused. -/
theorem bounds_iff (b : StoredBlock) (offset : Int32) :
    (∀ size : Int32, b.ReadBounded offset size ↔
      (0 ≤ offset.toInt ∧ offset.toInt + size.toInt < 2 ^ 31) ∨ b.info.size < offset + size) ∧
    ∀ data : Payload, b.WriteBounded offset data ↔
      (0 ≤ offset.toInt ∧ 0 ≤ b.info.size.toInt) ∨
        sizeT b.info.size.toInt < sizeT (offset.toInt + data.bytes.length) :=
  ⟨b.readBounded_iff offset, b.writeBounded_iff offset⟩

/-- A block of four bytes. -/
def fourBytes : StoredBlock :=
  { info := { id := 7, version := 1, size := 4 }, file := [1, 2, 3, 4] }

/-- Six bytes of data. -/
def sixBytes : Payload := ⟨[9, 9, 9, 9, 9, 9], by decide⟩

/-- From two bytes before its start it is read, and six bytes are written over it. -/
theorem negative_offset_passes :
    ¬ fourBytes.ReadBounded (-2) 4 ∧ ¬ fourBytes.WriteBounded (-2) sixBytes := by
  refine ⟨fun h => ?_, fun h => ?_⟩
  · have hread := (h { transfers := [.moved 4] }).1
    have hcode : (fourBytes.read (-2) 4 { transfers := [.moved 4] }).1 = some .none := by
      decide +kernel
    rw [hcode] at hread
    rcases hread with hin | hout
    · exact absurd hin.1 (by decide)
    · cases hout
  · have hwithin := (h 1 2 true { transfers := [.moved 6] } {}).2
    have hsix : (⟨0, 0, 6⟩ : Access) ∈
        (fourBytes.write 1 2 (-2) sixBytes true { transfers := [.moved 6] } {}).touched := by
      decide +kernel
    exact absurd (hwithin _ hsix) (by decide)

end Ofs.Node
