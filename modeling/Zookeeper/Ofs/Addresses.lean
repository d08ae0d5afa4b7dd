import Zookeeper.Ofs.Transfer

/-!
# Where a file is overwritten and read

`FileUploader::Start` overwrites a file as far as its old size goes, and
`FileDownloader::Start` reads it.  Both go over the blocks, and within a block over its
batches.  A block is asked for by its index, and a batch of it by its offset in the block.

The downloader counts the offset of each block from 0, and the uploader sends the offset in
the file.  They are the same in the first block only (`same_address_iff`).

What the servers answer is left to the steps.
-/

namespace Ofs

/-- A batch of a file: the index of its block, and the offset in the block. -/
structure Address where
  index : Int
  offset : Int
deriving DecidableEq, Repr

/-- Where the byte of a file is. -/
def Volume.address (v : Volume) (position : Nat) : Address :=
  { index := (position / v.blockSize + 1 : Nat), offset := (position % v.blockSize : Nat) }

theorem Volume.address_eq (v : Volume) (k : Nat) {offset : Nat} (h : offset < v.blockSize) :
    v.address (k * v.blockSize + offset) = ⟨(k + 1 : Nat), offset⟩ := by
  rw [address, Nat.mul_comm, Nat.mul_add_div v.blockSize_pos, Nat.mul_add_mod,
    Nat.div_eq_of_lt h, Nat.mod_eq_of_lt h, Nat.add_zero]

/-- The size as clients have it. -/
def Volume.blockSizeSigned (v : Volume) : Int32 := Int32.ofNat v.blockSize

theorem Volume.toInt_blockSizeSigned (v : Volume) : v.blockSizeSigned.toInt = v.blockSize :=
  Int32.toInt_ofNat_of_lt v.fits

/-! ## The uploader -/

/-- Where the loops of `FileUploader::Start` are: at the outer one, overwriting a block,
appending, or behind them. -/
inductive OverwriteStage where
  | outer
  | writing (idx : Int32)
  | appending
  | finished
  | failed
deriving DecidableEq, Repr

/-- A request to overwrite a batch, under the lease for a block, and the offset in the file
that the batch is for. -/
structure WriteSent where
  position : Int32
  blockIndex : Int32
  offset : Int32
  data : Bytes

def WriteSent.address (w : WriteSent) : Address :=
  { index := w.blockIndex.toInt, offset := w.offset.toInt }

/-- The state of `FileUploader::Start`, with the requests it has sent. -/
structure Overwrite where
  file : InFile
  data : Bytes
  offset : Int32 := 0
  stage : OverwriteStage := .outer
  writes : List WriteSent := []

/-- What an uploader goes on with: the answer of the master and the connection, the answer
to a batch, or the end of the local file. -/
inductive OverwriteAct where
  | lease (granted connected : Bool)
  | batch (code : Node.ErrorCode)
  | leave

namespace Overwrite

/-- A batch that was overwritten moves the offset on, and ends its block or the old file. -/
def moved (v : Volume) (oldSize : Int32) (s : Overwrite) (idx : Int32) : Overwrite :=
  let offset := s.offset + Int32.ofNat s.file.gcount
  if offset % v.blockSizeSigned = 0 ∨ oldSize ≤ offset then
    { s with offset := offset, stage := .outer }
  else { s with offset := offset, stage := .writing idx }

/-- The batch is put back, for another lease. -/
def putBack (s : Overwrite) : Overwrite := { s with file := s.file.seekBack, stage := .outer }

/-- One round of a loop. -/
def step (v : Volume) (oldSize : Int32) (s : Overwrite) : OverwriteAct → Option Overwrite
  | .lease granted connected =>
      match s.stage with
      | .outer =>
          if s.file.eof then none
          else if ¬ granted then some { s with stage := .finished }
          else if ¬ connected then some { s with stage := .failed }
          else if s.offset < oldSize then
            some { s with stage := .writing (s.offset / v.blockSizeSigned + 1) }
          else some { s with stage := .appending }
      | _ => none
  | .batch code =>
      if s.file.eof then none
      else
        let read := s.file.read s.data
        match s.stage with
        | .writing idx =>
            let sent := { s with
              file := read.1, data := read.2,
              writes := ⟨s.offset, idx, s.offset, read.2⟩ :: s.writes }
            if code = .none then some (sent.moved v oldSize idx)
            else if code = .leaseExpire then some sent.putBack
            else some { sent with stage := .failed }
        | .appending =>
            let sent := { s with file := read.1, data := read.2 }
            if code = .none then some sent
            else if code = .blockFull ∨ code = .leaseExpire then some sent.putBack
            else some { sent with stage := .failed }
        | _ => none
  | .leave =>
      if s.file.eof then
        match s.stage with
        | .outer => some { s with stage := .finished }
        | .writing _ => some { s with stage := .outer }
        | .appending => some { s with stage := .outer }
        | _ => none
      else none

/-- The uploads of a local file over one with an old size, with what the stack has in the
buffer. -/
def system (v : Volume) (oldSize : Int32) : Transition.System Overwrite OverwriteAct :=
  Transition.ofStep
    (fun s => ∃ content data, data.length = batchSize ∧
      s = { file := { content := content }, data := data }) (step v oldSize)

end Overwrite

/-! ## The downloader -/

/-- A batch that was read, and the position in the local file it was written to. -/
structure BatchRead where
  position : Nat
  address : Address
deriving DecidableEq, Repr

/-- The state of `FileDownloader::Start` in its loop, which has the index of the block and
the offset in it, with the bytes written and the batches read. -/
structure Download where
  index : Nat := 1
  offset : Nat := 0
  written : Nat := 0
  reads : List BatchRead := []
deriving DecidableEq, Repr

/-- What a downloader goes on with: a batch, another endpoint, or the next block. -/
inductive DownloadAct where
  | batch (data : Bytes)
  | endpoint
  | block

namespace Download

/-- The number of blocks of a file. -/
def blockCount (v : Volume) (size : Nat) : Nat :=
  size / v.blockSize + if size % v.blockSize = 0 then 0 else 1

/-- The size of a block of a file, which `FileDownloader::Start` asks for. -/
def sizeOf (v : Volume) (size index : Nat) : Nat :=
  if index ≠ blockCount v size then v.blockSize else size - (index - 1) * v.blockSize

/-- One round of the loop of `GetBlock`, which a chunk server answers with a batch, or the
end of it. -/
def step (v : Volume) (size : Nat) (s : Download) : DownloadAct → Option Download
  | .batch data =>
      if s.index ≤ blockCount v size ∧ s.offset < sizeOf v size s.index ∧
          data.length = batchSize then
        some { s with
          offset := s.offset + data.length, written := s.written + data.length,
          reads := ⟨s.written, ⟨s.index, s.offset⟩⟩ :: s.reads }
      else none
  | .endpoint => some s
  | .block =>
      if s.index ≤ blockCount v size ∧ sizeOf v size s.index ≤ s.offset then
        some { s with index := s.index + 1, offset := 0 }
      else none

/-- The downloads of a file of a size. -/
def system (v : Volume) (size : Nat) : Transition.System Download DownloadAct :=
  Transition.ofStep (fun s => s = {}) (step v size)

end Download

/-! ## What the uploader asks for -/

namespace Overwrite

variable {v : Volume} {oldSize : Int32} {s s' : Overwrite}

/-- The offset is at a batch, and the block that is written is the one it is in.  So every
request has had the index of the block of its position, with the position as its offset. -/
structure Inv (v : Volume) (s : Overwrite) : Prop where
  aligned : s.file.eof = false → (batchSize : Int) ∣ s.offset.toInt
  index : ∀ idx, s.stage = .writing idx → s.file.eof = false → 0 ≤ s.offset.toInt →
    idx.toInt = s.offset.toInt / v.blockSize + 1
  writes : ∀ w ∈ s.writes, w.offset = w.position ∧
    (0 ≤ w.position.toInt → w.blockIndex.toInt = w.position.toInt / v.blockSize + 1)

/-- A read that does not come to the end of the file reads a batch, or nothing. -/
theorem gcount_read {f : InFile} (data : Bytes) (h : (f.read data).1.eof = false) :
    (f.read data).1.gcount = 0 ∨ (f.read data).1.gcount = batchSize := by
  rw [InFile.read] at h ⊢
  split
  next => exact .inl rfl
  next hgood =>
      rw [if_neg hgood] at h
      have hle := List.length_take_le batchSize (f.content.drop f.pos)
      have hge := of_decide_eq_false h
      exact .inr (Nat.le_antisymm hle (Nat.le_of_not_lt hge))

/-- The index of the block that an offset is in. -/
theorem toInt_index (v : Volume) {offset : Int32} (h : 0 ≤ offset.toInt) :
    (offset / v.blockSizeSigned + 1).toInt = offset.toInt / v.blockSize + 1 := by
  have hne : v.blockSizeSigned ≠ -1 := by
    intro heq
    have hval := v.toInt_blockSizeSigned
    rw [heq, show (-1 : Int32).toInt = -1 from rfl] at hval
    omega
  have hsmall : offset.toInt / v.blockSize ≤ offset.toInt / batchSize := by
    have hbatch := v.batch_le
    obtain ⟨n, hn⟩ := Int.eq_ofNat_of_zero_le h
    rw [hn]
    exact Int.ofNat_le.2 (Nat.div_le_div_left v.batch_le (by decide))
  have hlt := Int32.toInt_lt offset
  have hpos : 0 ≤ offset.toInt / v.blockSize := Int.ediv_nonneg h (Int.natCast_nonneg _)
  rw [Int32.toInt_add, Int32.toInt_div_of_ne_right _ _ hne, v.toInt_blockSizeSigned,
    Int.tdiv_eq_ediv_of_nonneg h, Int32.toInt_one]
  rw [batchSize] at hsmall
  exact Int.bmod_eq_of_le (by omega) (by omega)

/-- The next batch, which comes behind the largest offset of all to the smallest. -/
theorem toInt_add_batch {offset : Int32} (h : (batchSize : Int) ∣ offset.toInt) :
    (offset + Int32.ofNat batchSize).toInt = offset.toInt + batchSize ∨
      (offset + Int32.ofNat batchSize).toInt = -2 ^ 31 := by
  have hlt := Int32.toInt_lt offset
  have hge := Int32.le_toInt offset
  rw [Int32.toInt_add, show (Int32.ofNat batchSize).toInt = 4096 from rfl]
  rw [batchSize] at h ⊢
  rcases lt_or_ge (offset.toInt + 4096) (2 ^ 31) with hfits | hwraps
  · exact .inl (Int.bmod_eq_of_le (by omega) (by omega))
  · have heq : offset.toInt = 2 ^ 31 - 4096 := by omega
    rw [heq]
    exact .inr rfl

/-- Within a block the index stays. -/
theorem div_add_batch (v : Volume) {n : Nat} (h : batchSize ∣ n)
    (hblock : ¬ v.blockSize ∣ n + batchSize) : (n + batchSize) / v.blockSize = n / v.blockSize := by
  obtain ⟨k, rfl⟩ := h
  have hsucc : batchSize * k + batchSize = batchSize * (k + 1) := rfl
  have hsize : v.blockSize = batchSize * v.batches := Nat.mul_comm _ _
  have hbatch : 0 < batchSize := by decide
  rw [hsucc, hsize] at hblock ⊢
  rw [Nat.mul_div_mul_left _ _ hbatch, Nat.mul_div_mul_left _ _ hbatch]
  exact Nat.succ_div_of_not_dvd fun hdvd => hblock (Nat.mul_dvd_mul_left _ hdvd)

theorem mod_eq_zero_iff (v : Volume) (offset : Int32) :
    offset % v.blockSizeSigned = 0 ↔ (v.blockSize : Int) ∣ offset.toInt := by
  rw [← Int32.toInt_inj, Int32.toInt_mod, v.toInt_blockSizeSigned, Int32.toInt_zero,
    Int.dvd_iff_tmod_eq_zero]

/-- The offset behind what was read. -/
theorem aligned_add {offset : Int32} (h : (batchSize : Int) ∣ offset.toInt) {gcount : Nat}
    (hread : gcount = 0 ∨ gcount = batchSize) :
    (batchSize : Int) ∣ (offset + Int32.ofNat gcount).toInt := by
  rcases hread with rfl | rfl
  · rw [show Int32.ofNat 0 = 0 from rfl, Int32.add_zero]
    exact h
  · rcases toInt_add_batch h with hnext | hwrapped
    · rw [hnext]
      exact Int.dvd_add h (Int.dvd_refl _)
    · rw [hwrapped]
      decide

/-- Until the block ends its index is that of the offset. -/
theorem index_add (v : Volume) {offset : Int32} (h : (batchSize : Int) ∣ offset.toInt)
    {gcount : Nat} (hread : gcount = 0 ∨ gcount = batchSize) {idx : Int32}
    (hidx : 0 ≤ offset.toInt → idx.toInt = offset.toInt / v.blockSize + 1)
    (hinside : ¬ (offset + Int32.ofNat gcount) % v.blockSizeSigned = 0)
    (hpos : 0 ≤ (offset + Int32.ofNat gcount).toInt) :
    idx.toInt = (offset + Int32.ofNat gcount).toInt / v.blockSize + 1 := by
  rcases hread with rfl | rfl
  · rw [show Int32.ofNat 0 = 0 from rfl, Int32.add_zero] at hpos ⊢
    exact hidx hpos
  · rw [mod_eq_zero_iff] at hinside
    rcases toInt_add_batch h with hnext | hwrapped
    · rw [hnext] at hinside hpos ⊢
      -- a batch before the start of the file ends at a block
      have hoffset : 0 ≤ offset.toInt := by
        by_contra hneg
        have hzero : offset.toInt + batchSize = 0 := by
          rw [batchSize] at h hpos ⊢
          omega
        exact hinside (hzero ▸ Int.dvd_zero _)
      obtain ⟨n, hn⟩ := Int.eq_ofNat_of_zero_le hoffset
      rw [hn] at h hinside
      rw [hidx hoffset, hn]
      have hsame := div_add_batch v (Int.natCast_dvd_natCast.1 h)
        (fun hdvd => hinside (Int.natCast_dvd_natCast.2 hdvd))
      have hcast : ((n : Int) + batchSize) / v.blockSize = (n : Int) / v.blockSize := by
        exact_mod_cast congrArg (Nat.cast (R := Int)) hsame
      rw [hcast]
    · omega

/-- The invariant for a state that is at no block. -/
theorem Inv.of_stage {file : InFile} {data : Bytes} {offset : Int32} {writes : List WriteSent}
    {stage : OverwriteStage} (haligned : file.eof = false → (batchSize : Int) ∣ offset.toInt)
    (hwrites : ∀ w ∈ writes, w.offset = w.position ∧
      (0 ≤ w.position.toInt → w.blockIndex.toInt = w.position.toInt / v.blockSize + 1))
    (hstage : ∀ idx, stage ≠ .writing idx) : Inv v ⟨file, data, offset, stage, writes⟩ where
  aligned := haligned
  index idx hidx := absurd hidx (hstage idx)
  writes := hwrites

/-- The answer of the master opens the block that the offset is in. -/
theorem Inv.lease (h : Inv v s) {granted connected : Bool}
    (hs : step v oldSize s (.lease granted connected) = some s') : Inv v s' := by
  cases hstage : s.stage with
  | outer =>
      simp only [step, hstage] at hs
      split at hs
      next => cases hs
      next =>
          split at hs
          next =>
              cases hs
              exact .of_stage h.aligned h.writes (by simp)
          next =>
              split at hs
              next =>
                  cases hs
                  exact .of_stage h.aligned h.writes (by simp)
              next =>
                  split at hs
                  next =>
                      cases hs
                      refine ⟨h.aligned, fun idx hidx _ hpos => ?_, h.writes⟩
                      obtain rfl := OverwriteStage.writing.inj hidx
                      exact toInt_index v hpos
                  next =>
                      cases hs
                      exact .of_stage h.aligned h.writes (by simp)
  | writing | appending | finished | failed => simp [step, hstage] at hs

/-- A batch that was overwritten is in the block of its lease, and the next one too, if the
block goes on. -/
theorem Inv.writing (h : Inv v s) {idx : Int32} (hstage : s.stage = .writing idx)
    (heof : s.file.eof = false) (code : Node.ErrorCode)
    (hs : step v oldSize s (.batch code) = some s') : Inv v s' := by
  have hsent : ∀ w ∈ (⟨s.offset, idx, s.offset, (s.file.read s.data).2⟩ : WriteSent) :: s.writes,
      w.offset = w.position ∧
        (0 ≤ w.position.toInt → w.blockIndex.toInt = w.position.toInt / v.blockSize + 1) :=
    List.forall_mem_cons.2 ⟨⟨rfl, h.index idx hstage heof⟩, h.writes⟩
  have haligned := h.aligned heof
  have hread := gcount_read (f := s.file) s.data
  simp only [step, hstage, heof, Bool.false_eq_true, if_false] at hs
  split at hs
  next =>
      obtain rfl := Option.some.inj hs
      rw [moved]
      dsimp only
      split
      next => exact .of_stage (fun hend => aligned_add haligned (hread hend)) hsent (by simp)
      next hinside =>
          refine ⟨fun hend => aligned_add haligned (hread hend), fun idx' hidx hend hpos => ?_,
            hsent⟩
          obtain rfl := OverwriteStage.writing.inj hidx
          exact index_add v haligned (hread hend) (h.index idx hstage heof)
            (fun hzero => hinside (.inl hzero)) hpos
  next =>
      split at hs
      next =>
          obtain rfl := Option.some.inj hs
          exact .of_stage (fun _ => haligned) hsent (by simp)
      next =>
          obtain rfl := Option.some.inj hs
          exact .of_stage (fun _ => haligned) hsent (by simp)

theorem Inv.batch (h : Inv v s) {code : Node.ErrorCode}
    (hs : step v oldSize s (.batch code) = some s') : Inv v s' := by
  cases heof : s.file.eof with
  | true => simp [step, heof] at hs
  | false =>
      cases hstage : s.stage with
      | writing idx => exact h.writing hstage heof code hs
      | appending =>
          simp only [step, hstage, heof, Bool.false_eq_true, if_false] at hs
          split at hs
          next =>
              obtain rfl := Option.some.inj hs
              exact .of_stage (fun _ => h.aligned heof) h.writes (by simp)
          next =>
              split at hs
              next =>
                  obtain rfl := Option.some.inj hs
                  exact .of_stage (fun _ => h.aligned heof) h.writes (by simp)
              next =>
                  obtain rfl := Option.some.inj hs
                  exact .of_stage (fun _ => h.aligned heof) h.writes (by simp)
      | outer | finished | failed => simp [step, heof, hstage] at hs

/-- At its end the file closes a block and the upload. -/
theorem Inv.leave (h : Inv v s) (hs : step v oldSize s .leave = some s') : Inv v s' := by
  cases hstage : s.stage with
  | outer | writing | appending =>
      simp only [step, hstage, Option.ite_none_right_eq_some, Option.some.injEq] at hs
      obtain ⟨-, rfl⟩ := hs
      exact .of_stage h.aligned h.writes (by simp)
  | finished | failed => simp [step, hstage] at hs

/-- In every upload, a batch is overwritten in the block it is in, at the offset in the
file. -/
theorem writes_of_reachable (hr : (system v oldSize).Reachable s) {w : WriteSent}
    (hw : w ∈ s.writes) {position : Nat} (hposition : w.position.toInt = position) :
    w.address = ⟨(position / v.blockSize + 1 : Nat), position⟩ := by
  have hinv : Inv v s := by
    refine hr.invariant ?_ ?_
    · rintro s ⟨content, data, -, rfl⟩
      exact .of_stage (fun _ => Int.dvd_zero _) (List.forall_mem_nil _) (by simp)
    · intro s a s' h hs
      cases a with
      | lease granted connected => exact h.lease hs
      | batch code => exact h.batch hs
      | leave => exact h.leave hs
  obtain ⟨hoffset, hindex⟩ := hinv.writes w hw
  rw [WriteSent.address, hoffset, hindex (by omega), hposition]
  push_cast
  rfl

end Overwrite

/-! ## What the downloader asks for -/

namespace Download

variable {v : Volume} {size : Nat} {s s' : Download}

/-- What was written ends at the offset in the block, as long as there is one.  So every
batch was read at the address of its position. -/
structure Inv (v : Volume) (size : Nat) (s : Download) : Prop where
  index : 0 < s.index
  written : s.index ≤ blockCount v size → s.written = (s.index - 1) * v.blockSize + s.offset
  aligned : batchSize ∣ s.offset
  within : s.offset ≤ v.blockSize
  reads : ∀ r ∈ s.reads, r.address = v.address r.position

/-- No block is larger than the block size. -/
theorem sizeOf_le {v : Volume} {size index : Nat} (h : 0 < index) :
    sizeOf v size index ≤ v.blockSize := by
  rw [sizeOf]
  split
  next => exact le_rfl
  next hlast =>
      obtain ⟨k, rfl⟩ := Nat.exists_eq_succ_of_ne_zero h.ne'
      have hcount := (v.lt_blockCount (n := size) (j := k + 1)).not.1 (by
        have heq := not_not.1 hlast
        rw [blockCount] at heq
        omega)
      rw [Nat.succ_mul] at hcount
      rw [Nat.succ_sub_one]
      omega

/-- A batch goes behind what was written, and stays within its block. -/
theorem Inv.batch (h : Inv v size s) {data : Bytes}
    (hs : step v size s (.batch data) = some s') : Inv v size s' := by
  simp only [step, Option.ite_none_right_eq_some, Option.some.injEq] at hs
  obtain ⟨⟨hindex, hlt, hlength⟩, rfl⟩ := hs
  have hwritten := h.written hindex
  have hblock := hlt.trans_le (sizeOf_le h.index)
  rw [hlength]
  exact {
    index := h.index
    written := fun _ => by
      show s.written + batchSize = _ + (s.offset + batchSize)
      rw [hwritten, Nat.add_assoc]
    aligned := Nat.dvd_add h.aligned (Nat.dvd_refl _)
    within := by
      obtain ⟨p, hp⟩ := v.dvd_blockSize
      obtain ⟨q, hq⟩ := h.aligned
      show s.offset + batchSize ≤ v.blockSize
      rw [hp, hq] at hblock ⊢
      exact Nat.mul_le_mul_left batchSize (Nat.lt_of_mul_lt_mul_left hblock)
    reads := List.forall_mem_cons.2 ⟨by
      rw [hwritten, v.address_eq _ hblock, Nat.sub_add_cancel h.index], h.reads⟩ }

/-- A block that is not the last one is read to its end. -/
theorem Inv.block (h : Inv v size s) (hs : step v size s .block = some s') :
    Inv v size s' := by
  simp only [step, Option.ite_none_right_eq_some, Option.some.injEq] at hs
  obtain ⟨⟨hindex, hend⟩, rfl⟩ := hs
  exact {
    index := Nat.succ_pos _
    written := fun hnext => by
      have hnext' : s.index + 1 ≤ blockCount v size := hnext
      rw [sizeOf, if_pos (by omega)] at hend
      obtain ⟨k, hk⟩ := Nat.exists_eq_succ_of_ne_zero h.index.ne'
      have hwithin := h.within
      show s.written = (s.index + 1 - 1) * v.blockSize + 0
      rw [h.written hindex, hk, Nat.succ_sub_one, Nat.add_sub_cancel, Nat.succ_mul]
      omega
    aligned := Nat.dvd_zero _
    within := Nat.zero_le _
    reads := h.reads }

/-- In every download, a batch is read at the address of its position. -/
theorem reads_of_reachable (hr : (system v size).Reachable s) {r : BatchRead} (hmem : r ∈ s.reads) :
    r.address = v.address r.position := by
  have hinv : Inv v size s := by
    refine hr.invariant ?_ ?_
    · rintro s rfl
      exact ⟨Nat.one_pos, fun _ => (Nat.zero_mul _).symm, Nat.dvd_zero _, Nat.zero_le _,
        List.forall_mem_nil _⟩
    · intro s a s' h hs
      cases a with
      | batch data => exact h.batch hs
      | endpoint =>
          obtain rfl := Option.some.inj hs
          exact h
      | block => exact h.block hs
  exact hinv.reads r hmem

end Download

/-! ## The same address -/

section Same

variable {v : Volume} {oldSize : Int32} {size : Nat} {u : Overwrite} {d : Download}

/-- A batch is read at the address of its position, and it is overwritten there exactly if
it is in the first block. -/
theorem same_address_iff (hu : (Overwrite.system v oldSize).Reachable u)
    (hd : (Download.system v size).Reachable d) {w : WriteSent} (hw : w ∈ u.writes)
    {r : BatchRead} (hr : r ∈ d.reads) (hsame : w.position.toInt = r.position) :
    r.address = v.address r.position ∧ (w.address = r.address ↔ r.position < v.blockSize) := by
  have hread := Download.reads_of_reachable hd hr
  have hwrite := Overwrite.writes_of_reachable hu hw hsame
  refine ⟨hread, ?_⟩
  rw [hread, hwrite, Volume.address, Address.mk.injEq]
  constructor
  · rintro ⟨-, hoffset⟩
    have hlt := Nat.mod_lt r.position v.blockSize_pos
    omega
  · intro hlt
    rw [Nat.mod_eq_of_lt hlt]
    exact ⟨rfl, rfl⟩

end Same

/-- A batch of zeros. -/
def zeros : Bytes := List.replicate batchSize 0

theorem length_zeros : zeros.length = batchSize := List.length_replicate

/-- A read of the first or the second of two batches of zeros. -/
theorem read_zeros {pos : Nat} (hpos : pos = 0 ∨ pos = batchSize) (gcount : Nat) :
    InFile.read { content := zeros ++ zeros, pos := pos, gcount := gcount } zeros =
      ({ content := zeros ++ zeros, pos := pos + batchSize, gcount := batchSize }, zeros) := by
  have hroom : pos + batchSize ≤ (zeros ++ zeros).length := by
    rw [List.length_append, length_zeros]
    omega
  have htake : ((zeros ++ zeros).drop pos).take batchSize = zeros := by
    rcases hpos with rfl | rfl
    · rw [List.drop_zero, List.take_left' length_zeros]
    · rw [List.drop_left' length_zeros, List.take_of_length_le length_zeros.le]
  rw [Upload.read_whole rfl rfl length_zeros hroom, htake]

/-- An uploader in the local file of two batches. -/
def zerosAt (pos : Nat) (offset : Int32) (stage : OverwriteStage) (writes : List WriteSent) :
    Overwrite :=
  { file := { content := zeros ++ zeros, pos := pos, gcount := pos ⊓ batchSize },
    data := zeros, offset := offset, stage := stage, writes := writes }

theorem batch_zeros {pos : Nat} (hpos : pos = 0 ∨ pos = batchSize) (oldSize offset idx : Int32)
    (writes : List WriteSent) :
    (zerosAt pos offset (.writing idx) writes).step oneBatch oldSize (.batch .none) =
      some ((zerosAt (pos + batchSize) offset (.writing idx)
        (⟨offset, idx, offset, zeros⟩ :: writes)).moved oneBatch oldSize idx) := by
  simp only [zerosAt, Overwrite.step]
  rw [read_zeros hpos, Nat.min_eq_right (Nat.le_add_left _ _)]
  rfl

/-- The second block of a batch is overwritten at the offset of the file. -/
theorem overwritten : (Overwrite.system oneBatch 8192).Reachable
    (zerosAt (2 * batchSize) 8192 .outer [⟨4096, 2, 4096, zeros⟩, ⟨0, 1, 0, zeros⟩]) := by
  have hstart : (Overwrite.system oneBatch 8192).Reachable (zerosAt 0 0 .outer []) :=
    .start ⟨zeros ++ zeros, zeros, length_zeros, rfl⟩
  have hfirst : (Overwrite.system oneBatch 8192).Reachable (zerosAt 0 0 (.writing 1) []) :=
    hstart.next trivial (a := .lease true true) rfl
  have hmoved : (Overwrite.system oneBatch 8192).Reachable
      (zerosAt batchSize 4096 .outer [⟨0, 1, 0, zeros⟩]) :=
    hfirst.next trivial (a := .batch .none) (batch_zeros (.inl rfl) _ _ _ _)
  have hsecond : (Overwrite.system oneBatch 8192).Reachable
      (zerosAt batchSize 4096 (.writing 2) [⟨0, 1, 0, zeros⟩]) :=
    hmoved.next trivial (a := .lease true true) rfl
  exact hsecond.next trivial (a := .batch .none) (batch_zeros (.inr rfl) _ _ _ _)

theorem step_zeros {size : Nat} {d : Download}
    (hindex : d.index ≤ Download.blockCount oneBatch size)
    (hoffset : d.offset < Download.sizeOf oneBatch size d.index) :
    d.step oneBatch size (.batch zeros) = some { d with
      offset := d.offset + batchSize, written := d.written + batchSize,
      reads := ⟨d.written, ⟨d.index, d.offset⟩⟩ :: d.reads } := by
  rw [Download.step, length_zeros, if_pos ⟨hindex, hoffset, rfl⟩]

theorem step_block {size : Nat} {d : Download}
    (hindex : d.index ≤ Download.blockCount oneBatch size)
    (hend : Download.sizeOf oneBatch size d.index ≤ d.offset) :
    d.step oneBatch size .block = some { d with index := d.index + 1, offset := 0 } := by
  rw [Download.step, if_pos ⟨hindex, hend⟩]

/-- It is read at the start of the block. -/
theorem downloaded : (Download.system oneBatch 8192).Reachable
    { index := 2, offset := 4096, written := 8192, reads := [⟨4096, 2, 0⟩, ⟨0, 1, 0⟩] } := by
  have hstart : (Download.system oneBatch 8192).Reachable {} := .start rfl
  have hfirst : (Download.system oneBatch 8192).Reachable
      { offset := 4096, written := 4096, reads := [⟨0, 1, 0⟩] } :=
    hstart.next trivial (a := .batch zeros) (step_zeros (by decide) (by decide))
  have hsecond : (Download.system oneBatch 8192).Reachable
      { index := 2, offset := 0, written := 4096, reads := [⟨0, 1, 0⟩] } :=
    hfirst.next trivial (a := .block) (step_block (by decide) (by decide))
  exact hsecond.next trivial (a := .batch zeros) (step_zeros (by decide) (by decide))

/-- The first batch of a file is overwritten where it is read. -/
theorem same_address_first :
    (⟨0, 1, 0⟩ : BatchRead).address = oneBatch.address 0 ∧
      ((⟨0, 1, 0, zeros⟩ : WriteSent).address = (⟨0, 1, 0⟩ : BatchRead).address ↔
        0 < oneBatch.blockSize) :=
  same_address_iff overwritten downloaded (List.mem_cons_of_mem _ List.mem_cons_self)
    (List.mem_cons_of_mem _ List.mem_cons_self) rfl

/-- The second batch is not. -/
theorem second_block_differs : ¬ ∀ (v : Volume) (oldSize : Int32) (size : Nat) (u : Overwrite)
    (d : Download), (Overwrite.system v oldSize).Reachable u →
    (Download.system v size).Reachable d → ∀ w ∈ u.writes, ∀ r ∈ d.reads,
    w.position.toInt = r.position → w.address = v.address r.position ∧ w.address = r.address := by
  intro h
  have hsame := h oneBatch 8192 8192 _ _ overwritten downloaded _ List.mem_cons_self _
    List.mem_cons_self rfl
  exact absurd hsame.2 (by decide)

end Ofs
