import Zookeeper.Ofs.ClientService
import Zookeeper.Ofs.NodeBlock

/-!
# A remote file

A file as a client sees it: its size at the master, and its blocks on the chunk servers.
The master leases the block that the size ends in, or the next one.  A chunk server
appends a batch to a block, or finds it full, and reports the size of the block, from
which the master gets the size of the file.

The replicas of a block are alike, so one stands for all.  The files of a chunk server
do not fail, and the version of a lease is the one reported.

`RemoteFile.Holds` says that a file is a string of bytes, cut into blocks.  Leasing,
appending and reading are specified by it.
-/

namespace Ofs

/-- The batch of a transfer. -/
def batchSize : Nat := 4096

/-- A size of blocks: a number of batches that fits into an `int32_t`. -/
structure Volume where
  batches : Nat
  pos : 0 < batches
  fits : batches * batchSize < 2 ^ 31

namespace Volume

def blockSize (v : Volume) : Nat := v.batches * batchSize

theorem batch_le (v : Volume) : batchSize ≤ v.blockSize := Nat.le_mul_of_pos_left _ v.pos

theorem blockSize_pos (v : Volume) : 0 < v.blockSize := Nat.mul_pos v.pos (by decide)

theorem dvd_blockSize (v : Volume) : batchSize ∣ v.blockSize := Nat.dvd_mul_left _ _

/-- The size as the master has it. -/
def blockSize32 (v : Volume) : UInt32 := UInt32.ofNat v.blockSize

theorem toNat_blockSize32 (v : Volume) : v.blockSize32.toNat = v.blockSize :=
  UInt32.toNat_ofNat_of_lt' (lt_of_lt_of_le v.fits (by decide))

/-- The block of a string of bytes behind `j` others. -/
def cut (v : Volume) (bytes : Bytes) (j : Nat) : Bytes :=
  (bytes.drop (j * v.blockSize)).take v.blockSize

theorem length_cut (v : Volume) (bytes : Bytes) (j : Nat) :
    (v.cut bytes j).length = min v.blockSize (bytes.length - j * v.blockSize) := by
  rw [cut, List.length_take, List.length_drop]

/-- Bytes behind the end of a block leave it as it is. -/
theorem cut_append_of_le (v : Volume) {bytes : Bytes} (more : Bytes) {j : Nat}
    (h : (j + 1) * v.blockSize ≤ bytes.length) : v.cut (bytes ++ more) j = v.cut bytes j := by
  rw [Nat.succ_mul] at h
  rw [cut, cut, List.drop_append_of_le_length (by omega),
    List.take_append_of_le_length (by rw [List.length_drop]; omega)]

/-- Bytes that still go into a block. -/
theorem cut_append_of_room (v : Volume) {bytes more : Bytes} {j : Nat}
    (start : j * v.blockSize ≤ bytes.length)
    (room : bytes.length + more.length ≤ (j + 1) * v.blockSize) :
    v.cut (bytes ++ more) j = v.cut bytes j ++ more := by
  rw [Nat.succ_mul] at room
  rw [cut, cut, List.drop_append_of_le_length start, List.take_of_length_le,
    List.take_of_length_le]
  · rw [List.length_drop]
    omega
  · rw [List.length_append, List.length_drop]
    omega

/-- The blocks of a file are those that it has bytes in. -/
theorem lt_blockCount (v : Volume) {n j : Nat} :
    j < n / v.blockSize + (if n % v.blockSize = 0 then 0 else 1) ↔ j * v.blockSize < n := by
  split
  next hzero =>
    have hdvd := Nat.div_mul_cancel (Nat.dvd_of_mod_eq_zero hzero)
    calc j < n / v.blockSize + 0
      _ ↔ j * v.blockSize < n / v.blockSize * v.blockSize :=
          (Nat.mul_lt_mul_right v.blockSize_pos).symm
      _ ↔ j * v.blockSize < n := by rw [hdvd]
  next hmod =>
    have hne : j * v.blockSize ≠ n := fun heq => hmod (by rw [← heq, Nat.mul_mod_left])
    calc j < n / v.blockSize + 1
      _ ↔ j ≤ n / v.blockSize := Nat.lt_succ_iff
      _ ↔ j * v.blockSize ≤ n := Nat.le_div_iff_mul_le v.blockSize_pos
      _ ↔ j * v.blockSize < n := ⟨fun hle => lt_of_le_of_ne hle hne, le_of_lt⟩

/-- Bytes before a block. -/
theorem cut_eq_nil (v : Volume) {bytes : Bytes} {j : Nat} (h : bytes.length ≤ j * v.blockSize) :
    v.cut bytes j = [] := by
  rw [cut, List.drop_eq_nil_of_le h, List.take_nil]

/-- Bytes that still go into the block they begin in change no other block. -/
theorem cut_append (v : Volume) {bytes more : Bytes} {k : Nat}
    (start : k * v.blockSize ≤ bytes.length)
    (room : bytes.length + more.length ≤ (k + 1) * v.blockSize) (j : Nat) :
    v.cut (bytes ++ more) j = if j = k then v.cut bytes k ++ more else v.cut bytes j := by
  rcases Nat.lt_trichotomy j k with hlt | rfl | hgt
  · rw [if_neg hlt.ne]
    exact v.cut_append_of_le more ((Nat.mul_le_mul_right _ hlt).trans start)
  · rw [if_pos rfl]
    exact v.cut_append_of_room start room
  · have hbehind : (k + 1) * v.blockSize ≤ j * v.blockSize := Nat.mul_le_mul_right _ hgt
    have hlength : (bytes ++ more).length ≤ j * v.blockSize := by
      rw [List.length_append]
      exact room.trans hbehind
    rw [if_neg hgt.ne', v.cut_eq_nil hlength,
      v.cut_eq_nil (by omega : bytes.length ≤ j * v.blockSize)]

end Volume

/-- The size of a file and its blocks by index. -/
structure RemoteFile where
  size : UInt32 := 0
  blocks : Nat → Option Node.Block := fun _ => none

/-- What of a lease matters for appending. -/
structure AppendLease where
  index : Nat
  version : Int64
  newVersion : Int64

/-- `Block::Read` of a chunk server. -/
def Node.Block.read (b : Node.Block) (offset size : Nat) : Option Bytes :=
  if b.size < offset + size then none
  else if b.recovering then none
  else if b.data.length < offset + size then none
  else some ((b.data.drop offset).take size)

/-- The index in a `BLOCK_ID`. -/
def blockIndex (i : Int32) : Nat := (i.toUInt32 &&& 0x1FFFFF).toNat

/-- `FileSystem::CalcFileSize`. -/
def calcFileSize (blockSize : UInt32) (index : Nat) (newSize : UInt32) : UInt32 :=
  (UInt32.ofNat index - 1) * blockSize + newSize

namespace RemoteFile

/-- A block, which is made where it is missing. -/
def block (r : RemoteFile) (index : Nat) : Node.Block := (r.blocks index).getD {}

/-- `ClientService::Append` of the master. -/
def lease (v : Volume) (r : RemoteFile) : AppendLease :=
  let index := blockIndex (Master.calcAppendBlock v.blockSize32 r.size)
  let version := (r.block index).version
  { index := index, version := version,
    newVersion := Master.Block.nextVersion { id := 0, version := version } }

/-- `File::UpdateSize`, from the report of a block. -/
def report (v : Volume) (r : RemoteFile) (index : Nat) (newSize : UInt32) : RemoteFile :=
  let fileSize := calcFileSize v.blockSize32 index newSize
  if r.size < fileSize then { r with size := fileSize } else r

/-- `ClientService::Append` of a chunk server, with its report. -/
def append (v : Volume) (r : RemoteFile) (lease : AppendLease) (data : Bytes) :
    RemoteFile × Node.ErrorCode :=
  if data.length ≠ batchSize then (r, .checkSizeFailed)
  else
    let result := (r.block lease.index).append v.blockSize lease.version lease.newVersion data
      false .success .success
    let r := { r with blocks := Function.update r.blocks lease.index (some result.1) }
    if result.2 = .none then
      (r.report v lease.index (UInt32.ofNat result.1.size.toNat), result.2)
    else (r, result.2)

/-- `ClientService::Read` of the master: a block of the file. -/
def locate (v : Volume) (r : RemoteFile) (index : Nat) : Option Node.Block :=
  let i := Int32.ofNat index
  if i < 1 ∨ Master.calcBlockCount v.blockSize32 r.size < i then none
  else r.blocks (blockIndex i)

/-! ## The bytes of a file -/

/-- The file is a string of bytes, cut into blocks. -/
structure Holds (v : Volume) (r : RemoteFile) (bytes : Bytes) : Prop where
  size : r.size.toNat = bytes.length
  data : ∀ j, (r.block (j + 1)).data = v.cut bytes j
  count : ∀ j, (r.block (j + 1)).size = ((v.cut bytes j).length : Int)
  idle : ∀ j, (r.block (j + 1)).recovering = false

variable {v : Volume} {r : RemoteFile} {bytes : Bytes}

/-- A new file is empty. -/
theorem Holds.empty (v : Volume) : Holds v {} [] where
  size := rfl
  data j := (v.cut_eq_nil (Nat.zero_le _)).symm
  count j := by
    rw [v.cut_eq_nil (Nat.zero_le _)]
    rfl
  idle _ := rfl

/-- The index of the block to append to. -/
theorem toNat_div_add_one {blockSize size : UInt32}
    (small : size.toNat / blockSize.toNat < 2 ^ 31) :
    (size / blockSize + 1).toNat = size.toNat / blockSize.toNat + 1 := by
  rw [UInt32.toNat_add, UInt32.toNat_div, UInt32.toNat_one]
  exact Nat.mod_eq_of_lt (by omega)

/-- The lease is for the block that the size ends in, or the next one. -/
theorem Holds.lease_index (h : Holds v r bytes) (small : bytes.length < 2 ^ 31) :
    (r.lease v).index = bytes.length / v.blockSize + 1 := by
  have hdiv : bytes.length / v.blockSize ≤ bytes.length / batchSize :=
    Nat.div_le_div_left v.batch_le (by decide)
  have hle : bytes.length / batchSize < 2 ^ 19 + 1 := by
    rw [batchSize]
    omega
  have hindex : (r.size / v.blockSize32 + 1).toNat = bytes.length / v.blockSize + 1 := by
    have hsmall : r.size.toNat / v.blockSize32.toNat < 2 ^ 31 := by
      rw [h.size, v.toNat_blockSize32]
      omega
    rw [toNat_div_add_one hsmall, h.size, v.toNat_blockSize32]
  show blockIndex (Master.calcAppendBlock v.blockSize32 r.size) = _
  rw [blockIndex, Master.calcAppendBlock, UInt32.toUInt32_toInt32, UInt32.toNat_and, hindex,
    show (0x1FFFFF : UInt32).toNat = 2 ^ 21 - 1 from rfl, Nat.and_two_pow_sub_one_eq_mod]
  exact Nat.mod_eq_of_lt (by omega)

/-- An append to an idle block fails, finds it full, or puts the data behind it. -/
theorem append_cases {b : Node.Block} (idle : b.recovering = false) (blockSize : Int)
    (version newVersion : Int64) (data : Bytes) :
    b.append blockSize version newVersion data false .success .success =
        (b, .versionCheckFailed) ∧ b.versionBad version false = true ∨
    b.append blockSize version newVersion data false .success .success = (b, .blockFull) ∧
        blockSize < b.size + data.length ∨
    b.append blockSize version newVersion data false .success .success =
        ({ b with data := b.data ++ data, size := b.size + data.length,
                  version := b.bumped newVersion false }, .none) ∧
      b.size + data.length ≤ blockSize := by
  have hcheck : b.check blockSize (.append data) version false =
      if b.versionBad version false then .versionCheckFailed
      else if b.size + data.length > blockSize then .blockFull else .none := by
    rw [Node.Block.check, idle]
    rfl
  rw [Node.Block.append, Node.Block.apply, hcheck]
  cases b.versionBad version false with
  | true => exact .inl ⟨rfl, rfl⟩
  | false =>
      rw [if_neg Bool.false_ne_true]
      rcases lt_or_ge blockSize (b.size + data.length) with hfull | hroom
      · rw [if_pos hfull]
        exact .inr (.inl ⟨rfl, hfull⟩)
      · rw [if_neg (Int.not_lt.2 hroom)]
        refine .inr (.inr ⟨?_, hroom⟩)
        have hdata : (Node.Op.append data).touch b.data (Node.Op.append data).data.length =
            b.data ++ data := Node.overwrite_end b.data data
        show (b.perform (.append data) newVersion false, Node.ErrorCode.none) = _
        rw [Node.Block.perform, hdata]
        rfl

theorem Holds.congr {r' : RemoteFile} (h : Holds v r bytes) (size : r'.size = r.size)
    (block : ∀ i, r'.block i = r.block i) : Holds v r' bytes where
  size := by rw [size, h.size]
  data j := by rw [block, h.data]
  count j := by rw [block, h.count]
  idle j := by rw [block, h.idle]

theorem block_update (r : RemoteFile) (i j : Nat) (b : Node.Block) :
    ({ r with blocks := Function.update r.blocks i (some b) } : RemoteFile).block j =
      if j = i then b else r.block j := by
  show (Function.update r.blocks i (some b) j).getD {} = _
  rw [Function.update_apply]
  split <;> rfl

@[simp] theorem block_report (v : Volume) (r : RemoteFile) (i j : Nat) (newSize : UInt32) :
    (r.report v i newSize).block j = r.block j := by
  rw [report]
  split <;> rfl

/-- The size of a file whose last block has a size. -/
theorem toNat_calcFileSize {k n : Nat} (small : k * v.blockSize + n < 2 ^ 32) :
    (calcFileSize v.blockSize32 (k + 1) (UInt32.ofNat n)).toNat = k * v.blockSize + n := by
  have hk : k < 2 ^ 32 := by
    have hle := Nat.le_mul_of_pos_right k v.blockSize_pos
    omega
  have hindex : UInt32.ofNat (k + 1) - 1 = UInt32.ofNat k := by
    rw [UInt32.ofNat_add]
    exact UInt32.add_sub_cancel _ _
  rw [calcFileSize, hindex, UInt32.toNat_add, UInt32.toNat_mul, v.toNat_blockSize32,
    UInt32.toNat_ofNat_of_lt' hk, UInt32.toNat_ofNat_of_lt' (show n < 2 ^ 32 by omega),
    Nat.mod_add_mod, Nat.mod_eq_of_lt small]

/-- A report raises the size to that of the file. -/
theorem size_report {k n : Nat} (small : k * v.blockSize + n < 2 ^ 32)
    (more : r.size.toNat ≤ k * v.blockSize + n) :
    (r.report v (k + 1) (UInt32.ofNat n)).size.toNat = k * v.blockSize + n := by
  rw [report]
  simp only [UInt32.lt_iff_toNat_lt, toNat_calcFileSize small]
  split
  next => exact toNat_calcFileSize small
  next => omega

/-- A block that was appended to, and reported, makes the file longer. -/
theorem Holds.grow (h : Holds v r bytes) {data : Bytes} {b : Node.Block} {k : Nat}
    (hdata : b.data = (r.block (k + 1)).data ++ data)
    (hsize : b.size = (r.block (k + 1)).size + data.length) (hidle : b.recovering = false)
    (small : bytes.length + data.length < 2 ^ 32) (start : k * v.blockSize ≤ bytes.length)
    (room : bytes.length + data.length ≤ (k + 1) * v.blockSize) :
    Holds v (({ r with blocks := Function.update r.blocks (k + 1) (some b) } : RemoteFile).report v
      (k + 1) (UInt32.ofNat b.size.toNat)) (bytes ++ data) := by
  have hcut := v.cut_append start room
  have hlength : b.size = ((v.cut bytes k ++ data).length : Int) := by
    rw [hsize, h.count, List.length_append, Int.natCast_add]
  have hnat : k * v.blockSize + b.size.toNat = bytes.length + data.length := by
    rw [Nat.succ_mul] at room
    rw [hlength, Int.toNat_natCast, List.length_append, v.length_cut]
    omega
  constructor
  · rw [size_report (by omega) (by rw [h.size]; omega), hnat, List.length_append]
  · intro j
    rw [block_report, block_update, hcut]
    rcases eq_or_ne j k with rfl | hj
    · rw [if_pos rfl, if_pos rfl, hdata, h.data]
    · rw [if_neg fun heq => hj (Nat.succ.inj heq), if_neg hj, h.data]
  · intro j
    rw [block_report, block_update, hcut]
    rcases eq_or_ne j k with rfl | hj
    · rw [if_pos rfl, if_pos rfl, hlength]
    · rw [if_neg fun heq => hj (Nat.succ.inj heq), if_neg hj, h.count]
  · intro j
    rw [block_report, block_update]
    split
    next => exact hidle
    next => exact h.idle j

/-- What an append to a file that holds bytes does, under a lease for the block that they
end in: it fails, finds the block full, or puts the data behind them. -/
theorem Holds.append (h : Holds v r bytes) {data : Bytes} (batch : data.length = batchSize)
    (small : bytes.length + batchSize ≤ 2 ^ 31) {lease : AppendLease} {k : Nat}
    (index : lease.index = k + 1) (start : k * v.blockSize ≤ bytes.length)
    (fits : bytes.length ≤ (k + 1) * v.blockSize) :
    ((r.append v lease data).2 = .none ∧ Holds v (r.append v lease data).1 (bytes ++ data) ∧
        bytes.length + batchSize ≤ (k + 1) * v.blockSize) ∨
    ((r.append v lease data).2 = .blockFull ∧ Holds v (r.append v lease data).1 bytes ∧
        (k + 1) * v.blockSize < bytes.length + batchSize) ∨
    (r.append v lease data).2 = .versionCheckFailed ∧
      (r.block lease.index).versionBad lease.version false = true := by
  have hcount := h.count k
  rw [v.length_cut] at hcount
  rw [Nat.succ_mul] at fits ⊢
  rw [RemoteFile.append, if_neg (not_not.2 batch), index]
  rcases append_cases (h.idle k) v.blockSize lease.version lease.newVersion data with
    ⟨hfail, hbad⟩ | ⟨hfull, hroom⟩ | ⟨hdone, hroom⟩
  · rw [hfail]
    exact .inr (.inr ⟨rfl, hbad⟩)
  · rw [hfull]
    refine .inr (.inl ⟨rfl, h.congr rfl fun i => ?_, by omega⟩)
    show ({ r with blocks := Function.update r.blocks (k + 1) (some (r.block (k + 1))) } :
      RemoteFile).block i = r.block i
    rw [block_update]
    split
    next hi => rw [hi]
    next => rfl
  · rw [hdone, if_pos rfl]
    have hfits : bytes.length + batchSize ≤ k * v.blockSize + v.blockSize := by omega
    refine .inl ⟨rfl, h.grow rfl rfl (h.idle k) ?_ start ?_, hfits⟩
    · rw [batch]
      omega
    · rw [batch, Nat.succ_mul]
      exact hfits

/-- The version of a new lease is the one of its block. -/
theorem versionBad_lease (v : Volume) (r : RemoteFile) :
    (r.block (r.lease v).index).versionBad (r.lease v).version false = false :=
  decide_eq_false Int64.lt_irrefl

/-- No append makes a file smaller. -/
theorem size_le_append (v : Volume) (r : RemoteFile) (lease : AppendLease) (data : Bytes) :
    r.size.toNat ≤ (r.append v lease data).1.size.toNat := by
  rw [RemoteFile.append]
  split
  next => exact Nat.le_refl _
  next =>
    simp only
    split
    next =>
      rw [report]
      simp only [UInt32.lt_iff_toNat_lt]
      split
      next hlt => exact hlt.le
      next => exact Nat.le_refl _
    next => exact Nat.le_refl _

/-! ## Reading -/

theorem toInt_toInt32 {x : UInt32} (small : x.toNat < 2 ^ 31) : x.toInt32.toInt = x.toNat :=
  BitVec.toInt_eq_toNat_of_lt (by show 2 * x.toNat < 2 ^ 32; omega)

/-- The index of a block that a file has bytes in. -/
theorem index_lt (v : Volume) {n j : Nat} (small : n < 2 ^ 31) (hj : j * v.blockSize < n) :
    j < 2 ^ 19 := by
  have hle : j * batchSize ≤ j * v.blockSize := Nat.mul_le_mul_left j v.batch_le
  rw [batchSize] at hle
  omega

theorem blockIndex_ofNat {n : Nat} (small : n < 2 ^ 21) : blockIndex (Int32.ofNat n) = n := by
  have hofNat : (Int32.ofNat n).toUInt32 = UInt32.ofNat n := rfl
  rw [blockIndex, hofNat, UInt32.toNat_and, UInt32.toNat_ofNat_of_lt' (show n < 2 ^ 32 by omega),
    show (0x1FFFFF : UInt32).toNat = 2 ^ 21 - 1 from rfl, Nat.and_two_pow_sub_one_eq_mod]
  exact Nat.mod_eq_of_lt small

/-- The count of blocks is rounded up. -/
theorem toNat_count {blockSize size : UInt32} (small : size.toNat / blockSize.toNat < 2 ^ 31) :
    (size / blockSize + if size % blockSize = 0 then 0 else 1).toNat =
      size.toNat / blockSize.toNat + if size.toNat % blockSize.toNat = 0 then 0 else 1 := by
  have hone : (if size % blockSize = 0 then 0 else 1 : UInt32).toNat =
      if size.toNat % blockSize.toNat = 0 then 0 else 1 := by
    simp only [← UInt32.toNat_inj, UInt32.toNat_mod, apply_ite UInt32.toNat]
    rfl
  have hle : (if size.toNat % blockSize.toNat = 0 then 0 else 1) ≤ 1 := by
    split <;> decide
  rw [UInt32.toNat_add, UInt32.toNat_div, hone]
  exact Nat.mod_eq_of_lt (by omega)

/-- The last block is the one that the size ends in. -/
theorem toInt_calcBlockCount (v : Volume) {size : UInt32} (small : size.toNat < 2 ^ 31) :
    (Master.calcBlockCount v.blockSize32 size).toInt =
      ((size.toNat / v.blockSize + if size.toNat % v.blockSize = 0 then 0 else 1 : Nat) : Int) := by
  have hdiv : size.toNat / v.blockSize < 2 ^ 30 := by
    have hle : size.toNat / v.blockSize ≤ size.toNat / batchSize :=
      Nat.div_le_div_left v.batch_le (by decide)
    rw [batchSize] at hle
    omega
  have hcount := @toNat_count v.blockSize32 size (by rw [v.toNat_blockSize32]; omega)
  have hle : (if size.toNat % v.blockSize = 0 then 0 else 1) ≤ 1 := by
    split <;> decide
  rw [v.toNat_blockSize32] at hcount
  rw [Master.calcBlockCount, toInt_toInt32 (by omega), hcount]

/-- The master finds the blocks that the file has bytes in. -/
theorem Holds.locate (h : Holds v r bytes) (small : bytes.length < 2 ^ 31) {j : Nat}
    (hj : j * v.blockSize < bytes.length) :
    r.locate v (j + 1) = some (r.block (j + 1)) := by
  have hthere : r.blocks (j + 1) = some (r.block (j + 1)) := by
    have hdata := h.data j
    cases hblock : r.blocks (j + 1) with
    | some b => rw [block, hblock, Option.getD_some]
    | none =>
        rw [block, hblock] at hdata
        have hlength := v.length_cut bytes j
        rw [← hdata] at hlength
        have hpos := v.blockSize_pos
        have hzero : min v.blockSize (bytes.length - j * v.blockSize) = 0 := hlength.symm
        omega
  have hlt := index_lt v small hj
  have hindex : (Int32.ofNat (j + 1)).toInt = ((j + 1 : Nat) : Int) :=
    Int32.toInt_ofNat_of_lt (by omega)
  have hcount := v.lt_blockCount.2 hj
  rw [RemoteFile.locate]
  simp only [Int32.lt_iff_toInt_lt, hindex]
  rw [if_neg, blockIndex_ofNat (by omega), hthere]
  rw [toInt_calcBlockCount v (by rw [h.size]; exact small), h.size, Int32.toInt_one]
  omega

/-- A block gives back the bytes it has. -/
theorem Holds.read (h : Holds v r bytes) {j offset size : Nat}
    (room : offset + size ≤ (v.cut bytes j).length) :
    (r.block (j + 1)).read offset size = some (((v.cut bytes j).drop offset).take size) := by
  rw [Node.Block.read, h.count, h.idle, h.data, if_neg (by omega), if_neg Bool.false_ne_true,
    if_neg (by omega)]

end RemoteFile

end Ofs
