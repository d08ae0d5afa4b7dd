import Zookeeper.Ofs.FileIndex
import Zookeeper.Ofs.FileSizes

/-!
# Block ids

`BLOCK_ID` puts the index of a block into the 21 bits of a file id that `BUILD_FILE_ID`
leaves clear.  The report of a chunk server has the block id, and the master takes the file
and the index from it again.

A size has 32 bits.  With blocks of 1 MB it has an index of at most 4096, so that every
index fits.  The id of a file does, whatever the clock says (`indexClear_of_generated`).
`blockId_unpacks` says that both come back, and that a block has its id alone.
-/

namespace Ofs.Master

open FileSystem

/-- `MB`. -/
def mb : Int32 := 0x100000

/-- `GenerateId` returns the id to a caller in some run. -/
def Generated (fileId : Int64) : Prop :=
  ∃ s, generateId.system.Reachable s ∧ fileId ∈ s.exchanged

/-- An index that blocks of a file are asked for with, for some size of the file. -/
inductive BlockIndex : Int32 → Prop where
  /-- By `ClientService::Append`. -/
  | append {blockSize : Int32} (hblock : mb ≤ blockSize) (size : UInt32) :
      BlockIndex (FileSystem.calcAppendBlock blockSize size)
  /-- By `ClientService::Read` and `Write`, which check the index of the request. -/
  | request {blockSize : Int32} (hblock : mb ≤ blockSize) (size : UInt32) {index : Int32}
      (first : ¬index < 1) (last : ¬FileSystem.calcBlockCount blockSize size < index) :
      BlockIndex index

/-! ## Indices -/

/-- As many blocks as 32 bits of size have do not reach the end of the field. -/
theorem div_blockSize_lt {blockSize : Int32} (hblock : mb ≤ blockSize) (size : UInt32) :
    size.toNat / blockSize.toUInt32.toNat < 2 ^ 12 := by
  rw [Int32.le_iff_toInt_le, show mb.toInt = 2 ^ 20 from rfl] at hblock
  have hbs := toNat_toUInt32 (show 0 ≤ blockSize.toInt by omega)
  have hmul : 2 ^ 20 * 2 ^ 12 ≤ blockSize.toUInt32.toNat * 2 ^ 12 :=
    Nat.mul_le_mul_right (2 ^ 12) (by omega)
  exact Nat.div_lt_of_lt_mul (size.toNat_lt.trans_le hmul)

/-- The index fits into its field. -/
theorem BlockIndex.bounds {index : Int32} (h : BlockIndex index) :
    0 ≤ index ∧ index ≤ maxBlockIndex := by
  rw [Int32.le_iff_toInt_le, Int32.le_iff_toInt_le, Int32.toInt_zero,
    show maxBlockIndex.toInt = 2 ^ 21 - 1 from rfl]
  cases h with
  | @append blockSize hblock size =>
      have hdiv := div_blockSize_lt hblock size
      have hnext := RemoteFile.toNat_div_add_one (hdiv.trans (by decide))
      rw [FileSystem.calcAppendBlock, Master.calcAppendBlock, RemoteFile.toInt_toInt32 (by omega)]
      omega
  | @request blockSize hblock size _ first last =>
      have hdiv := div_blockSize_lt hblock size
      have hcount := RemoteFile.toNat_count (hdiv.trans (by decide))
      have hround : (if size.toNat % blockSize.toUInt32.toNat = 0 then 0 else 1) ≤ 1 := by
        split <;> decide
      rw [Int32.lt_iff_toInt_lt, Int32.toInt_one] at first
      rw [Int32.lt_iff_toInt_lt, FileSystem.calcBlockCount, Master.calcBlockCount,
        RemoteFile.toInt_toInt32 (by omega), hcount] at last
      omega

/-! ## File ids -/

/-- The tick ends above the index, and the number below it. -/
theorem indexClear_buildFileId (t subId : Int64) : IndexClear (buildFileId t subId) := by
  refine BitField.clear_of_getLsbD fun k hstart hend => ?_
  show (((t.toBitVec &&& 0x1FFFFFFFF#64) <<< 31) ||| (subId.toBitVec &&& 0x3FF#64)).getLsbD k =
    false
  have hseq : (0x3FF#64).getLsbD k = false := by
    rw [show 0x3FF#64 = BitField.low 64 10 from rfl, BitField.getLsbD_low]
    simp [Nat.not_lt.2 hstart]
  rw [BitVec.getLsbD_or, BitVec.getLsbD_shiftLeft, BitVec.getLsbD_and, BitVec.getLsbD_and, hseq]
  simp [hend]

/-- For every reading of the clock, also one whose seconds do not fit into the tick. -/
theorem indexClear_of_generated {fileId : Int64} (h : Generated fileId) : IndexClear fileId := by
  obtain ⟨s, hr, hmem⟩ := h
  refine CompareExchange.Loop.exchanged_of_propose (fun id nowTs new hnext => ?_) hr fileId hmem
  change nextId id nowTs = some new at hnext
  simp only [nextId] at hnext
  split_ifs at hnext
  · exact Option.some.inj hnext ▸ indexClear_buildFileId _ _
  · exact Option.some.inj hnext ▸ indexClear_buildFileId _ _

/-! ## Taking ids apart -/

/-- The mask has the bits that are not those of the index. -/
theorem toBitVec_fileIdFromBlock (blockId : Int64) :
    (fileIdFromBlock blockId).toBitVec = blockId.toBitVec &&& ~~~BitField.mask 64 10 21 := rfl

/-- A block id gives its file id back. -/
theorem fileIdFromBlock_blockId {fileId : Int64} (hclear : IndexClear fileId) (index : Int32) :
    fileIdFromBlock (blockId fileId index) = fileId := by
  rw [← Int64.toBitVec_inj, toBitVec_fileIdFromBlock, toBitVec_blockId]
  exact BitField.clear_put hclear

/-- Two blocks of one id are one block. -/
theorem blockId_inj {fileId fileId' : Int64} {index index' : Int32} (hclear : IndexClear fileId)
    (hclear' : IndexClear fileId') (hindex : 0 ≤ index ∧ index ≤ maxBlockIndex)
    (hindex' : 0 ≤ index' ∧ index' ≤ maxBlockIndex)
    (h : blockId fileId index = blockId fileId' index') : fileId = fileId' ∧ index = index' := by
  have hfile := congrArg fileIdFromBlock h
  have hfield := congrArg (fun id => (indexFromBlock id).toInt32) h
  simp only [indexFromBlock_blockId hclear hindex.1 hindex.2,
    indexFromBlock_blockId hclear' hindex'.1 hindex'.2, Int32.toInt32_toInt64] at hfield
  rw [fileIdFromBlock_blockId hclear, fileIdFromBlock_blockId hclear'] at hfile
  exact ⟨hfile, hfield⟩

/-- The id of a block gives its file and its index back, and no other block has it. -/
theorem blockId_unpacks {fileId : Int64} {index : Int32} (hfile : Generated fileId)
    (hindex : BlockIndex index) :
    fileIdFromBlock (blockId fileId index) = fileId ∧
      indexFromBlock (blockId fileId index) = index.toInt64 ∧
      ∀ fileId' index', Generated fileId' → BlockIndex index' →
        (fileId', index') ≠ (fileId, index) → blockId fileId' index' ≠ blockId fileId index := by
  have hclear := indexClear_of_generated hfile
  obtain ⟨hfirst, hlast⟩ := hindex.bounds
  refine ⟨fileIdFromBlock_blockId hclear index, indexFromBlock_blockId hclear hfirst hlast, ?_⟩
  intro fileId' index' hfile' hindex' hne heq
  obtain ⟨rfl, rfl⟩ :=
    blockId_inj (indexClear_of_generated hfile') hclear hindex'.bounds ⟨hfirst, hlast⟩ heq
  exact hne rfl

/-- The last block of a file of 4 GB in blocks of 1 MB, whose id has its sign bit set. -/
theorem blockId_unpacks_last :
    fileIdFromBlock (blockId (buildFileId 4294967296 0) 4096) = buildFileId 4294967296 0 ∧
      indexFromBlock (blockId (buildFileId 4294967296 0) 4096) = (4096 : Int32).toInt64 ∧
      ∀ fileId' index', Generated fileId' → BlockIndex index' →
        (fileId', index') ≠ (buildFileId 4294967296 0, 4096) →
          blockId fileId' index' ≠ blockId (buildFileId 4294967296 0) 4096 :=
  have hr : generateId.system.Reachable
      ((Transition.exec generateId.step { word := 0 }
        (twoCalls 4294967296000 (buildFileId 4294967296 0))).get rfl) :=
    Transition.exec_reachable rfl (Option.some_get rfl).symm
  blockId_unpacks ⟨_, hr, List.mem_cons_self⟩
    (.append (show mb ≤ 0x100000 by decide) 0xFFFFFFFF)

/-! ## The requests -/

section Requests

variable {settings : Settings} {blockSize : Int32} {node : Node} {fileId : Int64}

/-- A read that is not refused for its index has one of these. -/
theorem readBlock_index (hblock : mb ≤ blockSize) (hsize : settings.blockSize = blockSize.toUInt32)
    {blocks : Blocks} {index : Int32}
    (h : (readBlock settings blocks index (.file node fileId)).errCode ≠ .outOfRange) :
    BlockIndex index := by
  rw [readBlock] at h
  split at h
  next => exact absurd rfl h
  next hrange =>
      rw [not_or, hsize] at hrange
      exact .request hblock node.size hrange.1 hrange.2

/-- A lease touches its block alone. -/
theorem lookup_leaseBlock (outside : Outside) (blocks : Blocks) {id other : Int64} (block : Block)
    (hne : other ≠ id) :
    (leaseBlock settings outside blocks id block).2.lookup other = blocks.lookup other := by
  rw [leaseBlock]
  split
  all_goals exact (KeyedList.lookup_put blocks id other _).trans (if_neg hne)

/-- Appending to a file leaves the blocks of the other files. -/
theorem lookup_appendBlock (hblock : mb ≤ blockSize)
    (hsize : settings.blockSize = blockSize.toUInt32) (outside : Outside) (blocks : Blocks)
    (hfile : Generated fileId) {other : Int64} (hother : Generated other) {index : Int32}
    (hindex : BlockIndex index) (hne : other ≠ fileId) :
    (appendBlock settings outside blocks (.file node fileId)).2.lookup (blockId other index) =
      blocks.lookup (blockId other index) := by
  have hlast : BlockIndex (Master.calcAppendBlock settings.blockSize node.size) := by
    rw [hsize]
    exact .append hblock node.size
  refine lookup_leaseBlock outside blocks _ fun heq => hne ?_
  exact (blockId_inj (indexClear_of_generated hother) (indexClear_of_generated hfile)
    hindex.bounds hlast.bounds heq).1

end Requests

end Ofs.Master
