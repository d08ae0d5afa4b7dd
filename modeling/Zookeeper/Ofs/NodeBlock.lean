import Zookeeper.Bytes

/-!
# A block on a chunk server

`Block` is the chunk server's copy of one block: the version and size kept in
its meta file, the bytes of its data file, and whether a recovery is running
(`ofs/node/block/Block.h`).  `Block.write` and `Block.append` are `Block::Write`
and `Block::Append`.  Both check first and perform then, and the checks are
functions of their own.

How the two file calls of an operation end is an argument.  A data write that
fails may leave a prefix of its bytes behind.  The meta file holds what the
block holds in memory and is not modelled.
-/

namespace Ofs.Node

/-- How a `RandomAccessFile` call ends. -/
inductive IoResult where
  | success
  | openFailed
  /-- Some bytes were transferred before it gave up. -/
  | failed (transferred : Nat)
deriving DecidableEq, Repr

/-- `api::chunk::ErrorCode`, the codes the two operations return. -/
inductive ErrorCode where
  | none
  | blockNotExist
  | blockWriteFailed
  | blockOutOfRange
  | openOrCreateFileFailed
  | versionCheckFailed
  | checkSizeFailed
  | blockFull
  | leaseExpire
  | blockIsRecovering
deriving DecidableEq, Repr

/-- `ofs::Block` of the chunk server. -/
structure Block where
  version : Int64 := 0
  size : Int := 0
  data : Bytes := []
  recovering : Bool := false
deriving DecidableEq, Repr

/-- A request's change to a block. -/
inductive Op where
  | write (offset : Int) (data : Bytes)
  | append (data : Bytes)
deriving DecidableEq, Repr

def Op.data : Op → Bytes
  | .write _ d => d
  | .append d => d

/-! ## The data file -/

/-- The file after writing `buf` at `pos`.  A gap before `pos` reads as zeros,
and writing no bytes does not touch the file. -/
def overwrite (file : Bytes) (pos : Nat) (buf : Bytes) : Bytes :=
  if buf = [] then file
  else file.take pos ++ List.replicate (pos - file.length) 0 ++ buf ++ file.drop (pos + buf.length)

/-- Where `RandomAccessFile::Write` puts its bytes.  Seeking to a negative
position fails, and a file just opened is at its start. -/
def seekPosition (offset : Int) : Nat := offset.toNat

/-- The bytes of the data file after the write of an operation, of which the
first `k` bytes are transferred. -/
def Op.touch (op : Op) (file : Bytes) (k : Nat) : Bytes :=
  match op with
  | .write offset d => overwrite file (seekPosition offset) (d.take k)
  | .append d => overwrite file file.length (d.take k)

/-- The size after a completed operation. -/
def Op.sizeAfter : Op → Int → Int
  | .write _ _, size => size
  | .append d, size => size + d.length

/-! ## Checks -/

/-- The comparison of versions made by both operations. -/
def Block.versionBad (b : Block) (exceptVersion : Int64) (strict : Bool) : Bool :=
  if strict then b.version != exceptVersion else decide (b.version < exceptVersion)

/-- `size_t` arithmetic: a negative `offset` wraps. -/
def sizeT (x : Int) : Int := x % 2 ^ 64

/-- The checks of `Block::Write` and `Block::Append`, in their order. -/
def Block.check (b : Block) (blockSize : Int) (op : Op) (exceptVersion : Int64)
    (strict : Bool) : ErrorCode :=
  match op with
  | .write offset d =>
      if sizeT b.size < sizeT (offset + d.length) then .blockOutOfRange
      else if b.recovering then .blockIsRecovering
      else if b.versionBad exceptVersion strict then .versionCheckFailed
      else .none
  | .append d =>
      if b.recovering then .blockIsRecovering
      else if b.versionBad exceptVersion strict then .versionCheckFailed
      else if b.size + d.length > blockSize then .blockFull
      else .none

/-! ## The two operations -/

/-- The version an operation moves the block to. -/
def Block.bumped (b : Block) (newVersion : Int64) (strict : Bool) : Int64 :=
  if strict then newVersion
  else if b.version < newVersion then newVersion
  else b.version + 1

/-- The block after a completed operation. -/
def Block.perform (b : Block) (op : Op) (newVersion : Int64) (strict : Bool) : Block :=
  { b with
    data := op.touch b.data op.data.length
    size := op.sizeAfter b.size
    version := b.bumped newVersion strict }

/-- The code returned for the write of the meta file. -/
def IoResult.code : IoResult → ErrorCode
  | .success => .none
  | .openFailed => .openOrCreateFileFailed
  | .failed _ => .blockWriteFailed

/-- The common course of `Block::Write` and `Block::Append`. -/
def Block.apply (b : Block) (blockSize : Int) (op : Op) (exceptVersion newVersion : Int64)
    (strict : Bool) (dataIo metaIo : IoResult) : Block × ErrorCode :=
  match b.check blockSize op exceptVersion strict with
  | .none =>
      match dataIo with
      | .openFailed => (b, .openOrCreateFileFailed)
      | .failed k => ({ b with data := op.touch b.data k }, .blockWriteFailed)
      | .success => (b.perform op newVersion strict, metaIo.code)
  | code => (b, code)

/-- `Block::Write`. -/
def Block.write (b : Block) (blockSize : Int) (exceptVersion newVersion : Int64) (offset : Int)
    (data : Bytes) (strict : Bool) (dataIo metaIo : IoResult) : Block × ErrorCode :=
  b.apply blockSize (.write offset data) exceptVersion newVersion strict dataIo metaIo

/-- `Block::Append`. -/
def Block.append (b : Block) (blockSize : Int) (exceptVersion newVersion : Int64)
    (data : Bytes) (strict : Bool) (dataIo metaIo : IoResult) : Block × ErrorCode :=
  b.apply blockSize (.append data) exceptVersion newVersion strict dataIo metaIo

/-- The call a request makes. -/
def Block.run (b : Block) (blockSize : Int) (op : Op) (exceptVersion newVersion : Int64)
    (strict : Bool) (dataIo metaIo : IoResult) : Block × ErrorCode :=
  match op with
  | .write offset data =>
      b.write blockSize exceptVersion newVersion offset data strict dataIo metaIo
  | .append data => b.append blockSize exceptVersion newVersion data strict dataIo metaIo

/-! ## What an operation can do -/

/-- A file call that, if it fails, left nothing behind. -/
def IoResult.Clean : IoResult → Prop
  | .failed k => k = 0
  | _ => True

instance : ∀ io : IoResult, Decidable io.Clean
  | .success => inferInstanceAs (Decidable True)
  | .openFailed => inferInstanceAs (Decidable True)
  | .failed k => inferInstanceAs (Decidable (k = 0))

@[simp] theorem overwrite_nil (file : Bytes) (pos : Nat) : overwrite file pos [] = file := by
  simp [overwrite]

theorem overwrite_zero (file buf : Bytes) : overwrite file 0 buf = buf ++ file.drop buf.length := by
  rw [overwrite]
  split
  next h => simp [h]
  next => simp

/-- Bytes in front of a write stay. -/
theorem take_overwrite {file : Bytes} {pos k : Nat} (buf : Bytes) (hpos : k ≤ pos)
    (hlen : k ≤ file.length) : (overwrite file pos buf).take k = file.take k := by
  rw [overwrite]
  split
  next => rfl
  next =>
    rw [List.append_assoc, List.append_assoc, List.take_append_of_le_length, List.take_take,
      Nat.min_eq_left hpos]
    rw [List.length_take]
    omega

/-- A write at the end of a file. -/
theorem overwrite_end (file buf : Bytes) :
    overwrite file file.length (buf.take buf.length) = file ++ buf := by
  rw [List.take_length, overwrite]
  split
  next hnil => rw [hnil, List.append_nil]
  next =>
    rw [List.take_length, Nat.sub_self, List.replicate_zero, List.append_nil,
      List.drop_eq_nil_of_le (by omega), List.append_nil]

@[simp] theorem Op.touch_zero (op : Op) (file : Bytes) : op.touch file 0 = file := by
  cases op <;> simp [Op.touch]

theorem Block.run_eq_apply (b : Block) (blockSize : Int) (op : Op) (ev nv : Int64) (strict : Bool)
    (dataIo metaIo : IoResult) :
    b.run blockSize op ev nv strict dataIo metaIo =
      b.apply blockSize op ev nv strict dataIo metaIo := by
  cases op <;> rfl

/-- An operation refuses and changes nothing, or fails in the data file, or is
performed. -/
theorem Block.run_cases (b : Block) (blockSize : Int) (op : Op) (ev nv : Int64) (strict : Bool)
    (dataIo metaIo : IoResult) :
    ((b.run blockSize op ev nv strict dataIo metaIo).1 = b ∧
        (b.run blockSize op ev nv strict dataIo metaIo).2 ≠ .none) ∨
      (∃ k, dataIo = .failed k ∧ b.check blockSize op ev strict = .none ∧
        b.run blockSize op ev nv strict dataIo metaIo =
          ({ b with data := op.touch b.data k }, .blockWriteFailed)) ∨
      (dataIo = .success ∧ b.check blockSize op ev strict = .none ∧
        b.run blockSize op ev nv strict dataIo metaIo =
          (b.perform op nv strict, metaIo.code)) := by
  rw [Block.run_eq_apply]
  unfold Block.apply
  cases hc : b.check blockSize op ev strict with
  | none =>
      cases dataIo with
      | success => exact .inr (.inr ⟨rfl, rfl, rfl⟩)
      | openFailed => exact .inl ⟨rfl, by simp⟩
      | failed k => exact .inr (.inl ⟨k, rfl, rfl, rfl⟩)
  | _ => exact .inl ⟨rfl, by simp⟩

/-- With a clean data file call, an operation is performed or nothing changes. -/
theorem Block.run_clean (b : Block) (blockSize : Int) (op : Op) (ev nv : Int64) (strict : Bool)
    (dataIo metaIo : IoResult) (h : b.check blockSize op ev strict = .none → dataIo.Clean) :
    ((b.run blockSize op ev nv strict dataIo metaIo).1 = b ∧
        (b.run blockSize op ev nv strict dataIo metaIo).2 ≠ .none) ∨
      (dataIo = .success ∧ b.check blockSize op ev strict = .none ∧
        b.run blockSize op ev nv strict dataIo metaIo =
          (b.perform op nv strict, metaIo.code)) := by
  rcases b.run_cases blockSize op ev nv strict dataIo metaIo with hsame | ⟨k, hk, hc, hrun⟩ | hdone
  · exact .inl hsame
  · subst hk
    have hzero : k = 0 := h hc
    subst hzero
    exact .inl ⟨by simp [hrun], by simp [hrun]⟩
  · exact .inr hdone

/-- A block that is recovering refuses every operation. -/
theorem Block.check_recovering {b : Block} {blockSize : Int} {op : Op} {ev : Int64} {strict : Bool}
    (h : b.check blockSize op ev strict = .none) : b.recovering = false := by
  cases hr : b.recovering with
  | false => rfl
  | true =>
      unfold Block.check at h
      cases op with
      | write offset d =>
          simp only [hr, if_true] at h
          split at h <;> cases h
      | append d =>
          simp only [hr, if_true] at h
          cases h

/-- A strict operation is checked against the version it expects. -/
theorem Block.check_strict {b : Block} {blockSize : Int} {op : Op} {ev : Int64}
    (h : b.check blockSize op ev true = .none) : b.version = ev := by
  unfold Block.check at h
  cases op with
  | write offset d =>
      simp only at h
      split at h
      · cases h
      split at h
      · cases h
      split at h
      · cases h
      · rename_i hv
        simpa [Block.versionBad] using hv
  | append d =>
      simp only at h
      split at h
      · cases h
      split at h
      · cases h
      · rename_i hv
        simpa [Block.versionBad] using hv

end Ofs.Node
