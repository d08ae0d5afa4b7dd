import Zookeeper.BitField
import Zookeeper.Ofs.RemoteFile
import Zookeeper.Ofs.OfsId

/-!
# Sizes of files

The master has the size of a file in 32 bits without a sign.  It takes it from the reports
of chunk servers, with `FileSystem::CalcFileSize` for the index in the id of the block, and
takes the number of blocks and the block to append to from it again.

The index has 21 bits and the size of a block 31, so that the product passes what 32 bits
hold long before the last index.  It is an `int32_t` product, which wraps.  `sizes_exact_iff`
has the bound.
-/

namespace Ofs.Master.FileSystem

/-- `MAX_BLOCK_INDEX`. -/
def maxBlockIndex : Int32 := 0x1FFFFF

/-- `INDEX_FROM_BLOCK`. -/
def indexFromBlock (blockId : Int64) : Int64 := (blockId >>> 10) &&& 0x1FFFFF

/-- `CalcBlockCount`, where `_blockSize` becomes an unsigned number. -/
def calcBlockCount (blockSize : Int32) (size : UInt32) : Int32 :=
  Master.calcBlockCount blockSize.toUInt32 size

/-- `CalcAppendBlock`. -/
def calcAppendBlock (blockSize : Int32) (size : UInt32) : Int32 :=
  Master.calcAppendBlock blockSize.toUInt32 size

/-- `CalcFileSize`.  Both factors have a sign, and only the sum has none. -/
def calcFileSize (blockSize blockIndex : Int32) (newSize : UInt32) : UInt32 :=
  ((blockIndex - 1) * blockSize).toUInt32 + newSize

/-- What `DataNodeService::OnReport` and `OnUpdate` hand to `File::UpdateSize`. -/
def reportedSize (blockSize : Int32) (blockId : Int64) (newSize : UInt32) : UInt32 :=
  calcFileSize blockSize (indexFromBlock blockId).toInt32 newSize

/-- `File::UpdateSize`. -/
def updateSize : CompareExchange.Loop UInt32 UInt32 where
  initial := 0
  propose old size := if old < size then some size else none

/-- The three functions agree with the integers for a file whose last block is the `i`-th and
has the size `s`. -/
structure SizeExact (blockSize i : Int32) (s : UInt32) : Prop where
  size : ((calcFileSize blockSize i s).toNat : Int) = (i.toInt - 1) * blockSize.toInt + s.toNat
  count : calcBlockCount blockSize (calcFileSize blockSize i s) = i
  append : calcAppendBlock blockSize (calcFileSize blockSize i s) =
    if s.toNat < blockSize.toInt then i else i + 1

/-! ## The functions on numbers that do not wrap -/

theorem toNat_toUInt32 {x : Int32} (h : 0 ≤ x.toInt) : (x.toUInt32.toNat : Int) = x.toInt := by
  have hcond := BitVec.toInt_eq_toNat_cond x.toBitVec
  have hlt := x.toBitVec.isLt
  rw [show x.toBitVec.toInt = x.toInt from rfl] at hcond
  show (x.toBitVec.toNat : Int) = x.toInt
  split at hcond <;> omega

/-- The product wraps as its bits do, so the sum is the one of unsigned numbers. -/
theorem toNat_calcFileSize (blockSize i : Int32) (s : UInt32) :
    (calcFileSize blockSize i s).toNat =
      ((i - 1).toUInt32.toNat * blockSize.toUInt32.toNat + s.toNat) % 2 ^ 32 := by
  have hmul : ((i - 1) * blockSize).toUInt32.toNat =
      (i - 1).toUInt32.toNat * blockSize.toUInt32.toNat % 2 ^ 32 :=
    BitVec.toNat_mul _ _
  rw [calcFileSize, UInt32.toNat_add, hmul, Nat.mod_add_mod]

/-- A file whose last block is the `k + 1`-st has that many blocks. -/
theorem toInt_calcBlockCount {blockSize size : UInt32} {k r : Nat}
    (hsize : size.toNat = k * blockSize.toNat + r) (hr : 0 < r) (hle : r ≤ blockSize.toNat)
    (hk : k < 2 ^ 21) : (Master.calcBlockCount blockSize size).toInt = (k + 1 : Nat) := by
  have hcount : size.toNat / blockSize.toNat +
      (if size.toNat % blockSize.toNat = 0 then 0 else 1) = k + 1 := by
    rcases hle.lt_or_eq with hlt | hfull
    · rw [hsize, Nat.mul_comm, Nat.mul_add_div (by omega), Nat.mul_add_mod,
        Nat.div_eq_of_lt hlt, Nat.mod_eq_of_lt hlt, if_neg (by omega), Nat.add_zero]
    · rw [hsize, hfull, ← Nat.succ_mul, Nat.mul_div_cancel _ (by omega), Nat.mul_mod_left,
        if_pos rfl, Nat.add_zero]
  have htoNat := RemoteFile.toNat_count (show size.toNat / blockSize.toNat < 2 ^ 31 by omega)
  rw [Master.calcBlockCount, RemoteFile.toInt_toInt32 (by omega), htoNat, hcount]

/-- Data that is appended goes to the last block, or to the next one where that is full. -/
theorem toInt_calcAppendBlock {blockSize size : UInt32} {k r : Nat}
    (hsize : size.toNat = k * blockSize.toNat + r) (hr : 0 < r) (hle : r ≤ blockSize.toNat)
    (hk : k < 2 ^ 21) :
    (Master.calcAppendBlock blockSize size).toInt =
      ((if r < blockSize.toNat then k + 1 else k + 2 : Nat) : Int) := by
  have hdiv : size.toNat / blockSize.toNat + 1 = if r < blockSize.toNat then k + 1 else k + 2 := by
    split
    next hlt =>
        rw [hsize, Nat.mul_comm, Nat.mul_add_div (by omega), Nat.div_eq_of_lt hlt, Nat.add_zero]
    next hfull =>
        rw [hsize, show r = blockSize.toNat by omega, ← Nat.succ_mul,
          Nat.mul_div_cancel _ (by omega)]
  have htoNat := RemoteFile.toNat_div_add_one
    (show size.toNat / blockSize.toNat < 2 ^ 31 by split at hdiv <;> omega)
  rw [Master.calcAppendBlock, RemoteFile.toInt_toInt32 (by split at hdiv <;> omega), htoNat, hdiv]

/-! ## Exactness -/

section Exact

variable {blockSize i : Int32} {s : UInt32}

/-- For every block that the format of ids admits, the three functions are exact as long as
the size fits into 32 bits, and no longer. -/
theorem sizes_exact_iff (hblock : 0 < blockSize) (hfirst : 1 ≤ i) (hlast : i ≤ maxBlockIndex)
    (hs : 0 < s) (hle : (s.toNat : Int) ≤ blockSize.toInt) :
    SizeExact blockSize i s ↔
      (i.toInt - 1) * blockSize.toInt + s.toNat < 2 ^ 32 := by
  rw [Int32.lt_iff_toInt_lt, Int32.toInt_zero] at hblock
  rw [Int32.le_iff_toInt_le, Int32.toInt_one] at hfirst
  rw [Int32.le_iff_toInt_le, show maxBlockIndex.toInt = 2 ^ 21 - 1 from rfl] at hlast
  have hpos : 0 < s.toNat := UInt32.lt_iff_toNat_lt.1 hs
  have hindex : (i - 1).toInt = i.toInt - 1 := by
    rw [Int32.toInt_sub, Int32.toInt_one]
    exact Int.bmod_eq_of_le (by omega) (by omega)
  have hbs := toNat_toUInt32 (show 0 ≤ blockSize.toInt by omega)
  have hk := toNat_toUInt32 (show 0 ≤ (i - 1).toInt by omega)
  rw [hindex] at hk
  constructor
  · intro h
    have hsize := h.size
    have hlt := UInt32.toNat_lt (calcFileSize blockSize i s)
    omega
  · intro hfits
    have hsize := toNat_calcFileSize blockSize i s
    obtain ⟨k, hi⟩ : ∃ k, (i - 1).toUInt32.toNat = k := ⟨_, rfl⟩
    rw [hi] at hk hsize
    rw [← hk, ← hbs, ← Int.natCast_mul] at hfits
    rw [Nat.mod_eq_of_lt (by omega)] at hsize
    have hnext : (i + 1).toInt = i.toInt + 1 := by
      rw [Int32.toInt_add, Int32.toInt_one]
      exact Int.bmod_eq_of_le (by omega) (by omega)
    refine ⟨?_, ?_, ?_⟩
    · rw [hsize, ← hk, ← hbs]
      push_cast
      rfl
    · rw [← Int32.toInt_inj, calcBlockCount, toInt_calcBlockCount hsize hpos (by omega) (by omega)]
      omega
    · rw [← Int32.toInt_inj, calcAppendBlock,
        toInt_calcAppendBlock hsize hpos (by omega) (by omega), apply_ite Int32.toInt, hnext, ← hbs]
      simp only [Nat.cast_lt]
      split <;> omega

end Exact

/-- Blocks of 64 MB: a file that ends in its last block below 4 GB. -/
theorem sizes_exact_64 : SizeExact 0x4000000 64 0x3FFFFFF :=
  (sizes_exact_iff (by decide) (by decide) (by decide) (by decide) (by decide)).2 (by decide)

/-- The next block but one makes it a file of one byte. -/
theorem large_file_wraps : ¬ ∀ (blockSize i : Int32) (s : UInt32), 0 < blockSize → 1 ≤ i →
    i ≤ maxBlockIndex → 0 < s → (s.toNat : Int) ≤ blockSize.toInt → SizeExact blockSize i s := by
  intro h
  have hsize := (h 0x4000000 65 1 (by decide) (by decide) (by decide) (by decide) (by decide)).size
  have hwrapped : calcFileSize 0x4000000 65 1 = 1 := by decide
  rw [hwrapped] at hsize
  exact absurd hsize (by decide)

/-! ## Growing files -/

/-- The bits of the index are not set. -/
def IndexClear (fileId : Int64) : Prop := BitField.Clear 10 21 fileId.toBitVec

theorem indexClear_of_wellFormed {fileId : Int64} (hid : WellFormed fileId) :
    IndexClear fileId := by
  have hseq := hid.seq
  have hfile := toNat_eq_toInt hid.nonneg
  refine BitField.clear_of_getLsbD fun k hstart hend => ?_
  -- a bit of the number below the tick, which is too small to have it
  have hbit : (fileId.toBitVec.toNat % 2 ^ 31).testBit k = fileId.toBitVec.toNat.testBit k := by
    rw [Nat.testBit_mod_two_pow, decide_eq_true (show k < 31 by omega), Bool.true_and]
  show fileId.toBitVec.toNat.testBit k = false
  rw [← hbit]
  exact Nat.testBit_lt_two_pow
    ((show fileId.toBitVec.toNat % 2 ^ 31 < 2 ^ 10 by omega).trans_le
      (Nat.pow_le_pow_right (by decide) hstart))

theorem toBitVec_blockId (fileId : Int64) (i : Int32) :
    (blockId fileId i).toBitVec = BitField.put 10 21 fileId.toBitVec i.toInt64.toBitVec := rfl

theorem toBitVec_indexFromBlock (blockId : Int64) :
    (indexFromBlock blockId).toBitVec = BitField.get 10 21 blockId.toBitVec := rfl

/-- A block id gives its index back. -/
theorem indexFromBlock_blockId {fileId : Int64} {i : Int32} (hclear : IndexClear fileId)
    (hfirst : 0 ≤ i) (hlast : i ≤ maxBlockIndex) :
    indexFromBlock (blockId fileId i) = i.toInt64 := by
  rw [Int32.le_iff_toInt_le, Int32.toInt_zero] at hfirst
  rw [Int32.le_iff_toInt_le, show maxBlockIndex.toInt = 2 ^ 21 - 1 from rfl] at hlast
  have hi : (i.toInt64.toBitVec.toNat : Int) = i.toInt := by
    rw [toNat_eq_toInt (by rw [Int32.toInt_toInt64]; exact hfirst), Int32.toInt_toInt64]
  rw [← Int64.toBitVec_inj, toBitVec_indexFromBlock, toBitVec_blockId]
  exact BitField.get_put hclear (by omega) (by decide)

/-- The size in a report is that of the block that its id names. -/
theorem reportedSize_eq {fileId : Int64} {i : Int32} (hid : WellFormed fileId)
    (hfirst : 0 ≤ i) (hlast : i ≤ maxBlockIndex) (blockSize : Int32) (newSize : UInt32) :
    reportedSize blockSize (blockId fileId i) newSize = calcFileSize blockSize i newSize := by
  rw [reportedSize, indexFromBlock_blockId (indexClear_of_wellFormed hid) hfirst hlast,
    Int32.toInt32_toInt64]

/-- Where the sizes are exact, that of a later block is larger. -/
theorem SizeExact.mono {blockSize i j : Int32} {s t : UInt32} (hi : SizeExact blockSize i s)
    (hj : SizeExact blockSize j t) (hle : (s.toNat : Int) ≤ blockSize.toInt)
    (hblock : 0 < blockSize) (later : i < j ∨ i = j ∧ s ≤ t) :
    calcFileSize blockSize i s ≤ calcFileSize blockSize j t := by
  rw [Int32.lt_iff_toInt_lt, Int32.toInt_zero] at hblock
  have hsizes : (i.toInt - 1) * blockSize.toInt + s.toNat ≤
      (j.toInt - 1) * blockSize.toInt + t.toNat := by
    rcases later with hlt | ⟨rfl, hst⟩
    · rw [Int32.lt_iff_toInt_lt] at hlt
      have hmul : (i.toInt - 1 + 1) * blockSize.toInt ≤ (j.toInt - 1) * blockSize.toInt :=
        Int.mul_le_mul_of_nonneg_right (by omega) (by omega)
      rw [Int.add_mul, Int.one_mul] at hmul
      omega
    · rw [UInt32.le_iff_toNat_le] at hst
      omega
  rw [← hi.size, ← hj.size] at hsizes
  exact UInt32.le_iff_toNat_le.2 (Int.ofNat_le.1 hsizes)

/-- The size of a file only goes up, whatever is reported and in which order. -/
theorem updateSize_grows {s : CompareExchange.Shared UInt32}
    (hr : updateSize.system.Reachable s) :
    s.exchanged.Pairwise fun later earlier => earlier < later := by
  have hgrow := CompareExchange.Loop.increasing (I := fun _ => True) (r := fun a b => a < b)
    (fun _ _ _ => UInt32.lt_trans) trivial
    (fun old size new _ _ hnew => by
      simp only [updateSize, Option.ite_none_right_eq_some, Option.some.injEq] at hnew
      exact ⟨trivial, hnew.2 ▸ hnew.1⟩) (hr.mono fun _ _ _ => CompareExchange.Act.given_true _)
  exact (List.pairwise_append.1 hgrow.up).1

end Ofs.Master.FileSystem
