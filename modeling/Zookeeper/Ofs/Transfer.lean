import Zookeeper.Ofs.RemoteFile

/-!
# Putting and getting a file

`FileUploader::Start` reads a local file in batches and appends them to a remote file,
`FileDownloader::Start` reads the blocks of the remote file and writes a local one
(`ofs/client`).  The remote file is new, so every batch is appended.

A batch is sent whole, whatever part of it `read` has filled.  The file ends with a read
that fills less than a batch, and that one is sent like the others.  So the remote file
ends with what was left in the buffer, at least one byte of it (`download_padded`), and
no file comes back as it was (`put_get_never`).
-/

namespace Ofs

/-! ## The local file -/

/-- A `std::ifstream`. -/
structure InFile where
  content : Bytes
  pos : Nat := 0
  eof : Bool := false
  fail : Bool := false
  gcount : Nat := 0
deriving DecidableEq

namespace InFile

/-- `read` of a batch into a buffer.  A stream that is not good fails and reads nothing. -/
def read (f : InFile) (data : Bytes) : InFile × Bytes :=
  if f.eof || f.fail then ({ f with fail := true, gcount := 0 }, data)
  else
    let got := (f.content.drop f.pos).take batchSize
    let short := decide (got.length < batchSize)
    ({ f with pos := f.pos + got.length, eof := short, fail := short, gcount := got.length },
      got ++ data.drop got.length)

/-- `seekg(-gcount, cur)`.  It clears the end of file, and moves only without a failure. -/
def seekBack (f : InFile) : InFile :=
  if f.fail then { f with eof := false } else { f with eof := false, pos := f.pos - f.gcount }

end InFile

/-! ## Uploading -/

/-- Where `FileUploader::Start` stands: before asking for a lease, before a batch under a
lease, or at its end, after an error or not. -/
inductive UploadStage where
  | outer
  | inner (lease : AppendLease)
  | finished
  | failed

/-- The state of `FileUploader::Start`, with the remote file. -/
structure Upload where
  file : InFile
  data : Bytes
  remote : RemoteFile
  stage : UploadStage

namespace Upload

/-- A batch that was answered. -/
def answered (u : Upload) (lease : AppendLease) (code : Node.ErrorCode) : Upload :=
  if code = .none then { u with stage := .inner lease }
  else if code = .blockFull ∨ code = .leaseExpire then
    { u with file := u.file.seekBack, stage := .outer }
  else { u with stage := .failed }

/-- A batch under a lease. -/
def send (v : Volume) (u : Upload) (lease : AppendLease) : Upload :=
  let read := u.file.read u.data
  let sent := u.remote.append v lease read.2
  answered { u with file := read.1, data := read.2, remote := sent.1 } lease sent.2

/-- One round of the outer or of the inner loop. -/
def next (v : Volume) (u : Upload) : Upload :=
  match u.stage with
  | .outer =>
      if u.file.eof then { u with stage := .finished }
      else { u with stage := .inner (u.remote.lease v) }
  | .inner lease => if u.file.eof then { u with stage := .outer } else u.send v lease
  | .finished => u
  | .failed => u

/-- The start, with what the stack has in the buffer. -/
def start (content : Bytes) (stack : Vector UInt8 batchSize) : Upload :=
  { file := { content := content }, data := stack.toList, remote := {}, stage := .outer }

end Upload

/-! ## Downloading -/

/-- The loop of `FileDownloader::GetBlock` over the batches of a block. -/
def readLoop (b : Node.Block) : Nat → Nat → Nat → Option Bytes
  | 0, offset, size => if offset < size then none else some []
  | fuel + 1, offset, size =>
      if offset < size then
        match b.read offset batchSize with
        | some data => (readLoop b fuel (offset + data.length) size).map (data ++ ·)
        | none => none
      else some []

/-- `FileDownloader::GetBlock`.  A batch is longer than a byte, so the size bounds the
loop. -/
def getBlock (v : Volume) (r : RemoteFile) (index size : Nat) : Option Bytes :=
  (r.locate v index).bind fun b => readLoop b size 0 size

/-- The loop of `FileDownloader::Start`, for the number of blocks left. -/
def getBlocks (v : Volume) (r : RemoteFile) (size blockCount : Nat) : Nat → Nat → Option Bytes
  | _, 0 => some []
  | i, left + 1 =>
      (getBlock v r i (if i ≠ blockCount then v.blockSize else size - (i - 1) * v.blockSize)).bind
        fun bytes => (getBlocks v r size blockCount (i + 1) left).map (bytes ++ ·)

/-- `FileDownloader::Start`: what it writes, where it succeeds. -/
def download (v : Volume) (r : RemoteFile) : Option Bytes :=
  if r.size.toInt32 < 0 ∨ v.blockSize = 0 then none
  else
    let size := r.size.toNat
    let blockCount := size / v.blockSize + if size % v.blockSize = 0 then 0 else 1
    getBlocks v r size blockCount 1 blockCount

/-- Putting a file and getting it gives the same file. -/
def RoundTrip (v : Volume) (content : Bytes) (stack : Vector UInt8 batchSize) : Prop :=
  ∃ n, ((Upload.next v)^[n] (Upload.start content stack)).stage = .finished ∧
    download v ((Upload.next v)^[n] (Upload.start content stack)).remote = some content

/-! ## What is downloaded -/

section Download

variable {v : Volume} {r : RemoteFile} {bytes : Bytes}

theorem readLoop_eq (h : RemoteFile.Holds v r bytes) {j : Nat}
    (dvd : batchSize ∣ (v.cut bytes j).length) {fuel offset : Nat} (hoffset : batchSize ∣ offset)
    (hfuel : (v.cut bytes j).length ≤ offset + fuel) :
    readLoop (r.block (j + 1)) fuel offset (v.cut bytes j).length =
      some ((v.cut bytes j).drop offset) := by
  induction fuel generalizing offset with
  | zero =>
      rw [readLoop, if_neg (by omega), List.drop_eq_nil_of_le (by omega)]
  | succ fuel ih =>
      rw [readLoop]
      split
      next hlt =>
        have hroom : offset + batchSize ≤ (v.cut bytes j).length := by
          obtain ⟨p, hp⟩ := dvd
          obtain ⟨q, rfl⟩ := hoffset
          rw [hp] at hlt ⊢
          have hpq : q < p := Nat.lt_of_mul_lt_mul_left hlt
          rw [← Nat.mul_succ]
          exact Nat.mul_le_mul_left _ hpq
        have hlength : (((v.cut bytes j).drop offset).take batchSize).length = batchSize := by
          rw [List.length_take, List.length_drop]
          omega
        have hrest := ih (Nat.dvd_add hoffset (Nat.dvd_refl _)) (by
          rw [batchSize]
          omega)
        rw [h.read hroom]
        simp only [hlength]
        rw [hrest, Option.map_some, ← List.drop_drop, List.take_append_drop]
      next hge => rw [List.drop_eq_nil_of_le (by omega)]

theorem getBlock_eq (h : RemoteFile.Holds v r bytes) (small : bytes.length < 2 ^ 31)
    (dvd : batchSize ∣ bytes.length) {j : Nat} (hj : j * v.blockSize < bytes.length) :
    getBlock v r (j + 1) (v.cut bytes j).length = some (v.cut bytes j) := by
  have hwhole : batchSize ∣ (v.cut bytes j).length := by
    rw [v.length_cut]
    rcases Nat.le_total v.blockSize (bytes.length - j * v.blockSize) with hle | hle
    · rw [Nat.min_eq_left hle]
      exact v.dvd_blockSize
    · rw [Nat.min_eq_right hle]
      exact Nat.dvd_sub dvd (Nat.dvd_mul_left_of_dvd v.dvd_blockSize j)
  rw [getBlock, h.locate small hj, Option.bind_some,
    readLoop_eq h hwhole (Nat.dvd_zero _) (by omega), List.drop_zero]

theorem getBlocks_eq (h : RemoteFile.Holds v r bytes) (small : bytes.length < 2 ^ 31)
    (dvd : batchSize ∣ bytes.length) {j left blockCount : Nat}
    (count : ∀ m, m < blockCount ↔ m * v.blockSize < bytes.length)
    (hleft : j + left = blockCount) :
    getBlocks v r bytes.length blockCount (j + 1) left =
      some (bytes.drop (j * v.blockSize)) := by
  induction left generalizing j with
  | zero =>
      have hend : ¬j * v.blockSize < bytes.length := fun hlt => by
        have hj := (count j).2 hlt
        omega
      rw [getBlocks, List.drop_eq_nil_of_le (Nat.le_of_not_lt hend)]
  | succ left ih =>
      have hj := (count j).1 (by omega)
      have hnext := count (j + 1)
      rw [Nat.succ_mul] at hnext
      have hsize : (if j + 1 ≠ blockCount then v.blockSize
          else bytes.length - (j + 1 - 1) * v.blockSize) = (v.cut bytes j).length := by
        rw [v.length_cut, Nat.add_sub_cancel]
        split
        next hne =>
          have hlt := hnext.1 (by omega)
          omega
        next heq =>
          have hnot : ¬j * v.blockSize + v.blockSize < bytes.length := fun hlt =>
            absurd (hnext.2 hlt) (by omega)
          omega
      have hrest := ih (j := j + 1) (by omega)
      rw [getBlocks, hsize, getBlock_eq h small dvd hj, Option.bind_some, hrest,
        Option.map_some, Nat.succ_mul, ← List.drop_drop, Volume.cut, List.take_append_drop]

/-- A file of whole batches is downloaded as it is. -/
theorem download_eq (h : RemoteFile.Holds v r bytes) (small : bytes.length < 2 ^ 31)
    (dvd : batchSize ∣ bytes.length) : download v r = some bytes := by
  have hpositive : ¬(r.size.toInt32 < 0 ∨ v.blockSize = 0) := by
    rintro (hneg | hzero)
    · rw [Int32.lt_iff_toInt_lt, RemoteFile.toInt_toInt32 (by rw [h.size]; exact small)] at hneg
      exact absurd hneg (Int.not_lt.2 (Int.natCast_nonneg _))
    · exact absurd hzero v.blockSize_pos.ne'
  rw [download, if_neg hpositive]
  simp only [h.size]
  rw [getBlocks_eq h small dvd (fun m => v.lt_blockCount) (Nat.zero_add _), Nat.zero_mul,
    List.drop_zero]

/-- A file of two gigabytes is not downloaded. -/
theorem download_large (large : 2 ^ 31 ≤ r.size.toNat) : download v r = none := by
  have hneg : r.size.toInt32 < 0 := by
    rw [Int32.lt_iff_toInt_lt]
    show r.size.toBitVec.toInt < 0
    rw [BitVec.toInt_eq_toNat_cond]
    have hlt := r.size.toNat_lt
    have hnat : r.size.toBitVec.toNat = r.size.toNat := rfl
    rw [hnat, if_neg (by omega)]
    omega
  rw [download, if_pos (.inl hneg)]

end Download

/-! ## What is uploaded -/

namespace Upload

/-- Where an upload stands: it has failed, has made the file too large to be downloaded,
repeats a batch, has sent what it has read, or has sent the last batch. -/
inductive Stands (v : Volume) (content : Bytes) (u : Upload) : Prop where
  | failed (stage : u.stage = .failed)
  | large (size : 2 ^ 31 ≤ u.remote.size.toNat)
  | stuck (fail : u.file.fail = true) (eof : u.file.eof = false) (stage : u.stage ≠ .finished)
  | reading (fail : u.file.fail = false) (eof : u.file.eof = false) (stage : u.stage ≠ .finished)
      (whole : batchSize ∣ u.file.pos) (within : u.file.pos ≤ content.length)
      (small : u.file.pos < 2 ^ 31) (holds : u.remote.Holds v (content.take u.file.pos))
      (lease : ∀ lease, u.stage = .inner lease → ∃ k, lease.index = k + 1 ∧
        k * v.blockSize ≤ u.file.pos ∧ u.file.pos ≤ (k + 1) * v.blockSize)
  | ended (eof : u.file.eof = true) (tail : Bytes) (some : tail ≠ [])
      (holds : u.remote.Holds v (content ++ tail)) (small : (content ++ tail).length < 2 ^ 31)
      (whole : batchSize ∣ (content ++ tail).length)

/-- The buffer is whole, the file is the one to send, and the upload stands somewhere. -/
structure Inv (v : Volume) (content : Bytes) (u : Upload) : Prop where
  buffer : u.data.length = batchSize
  file : u.file.content = content
  stands : Stands v content u

variable {v : Volume} {content : Bytes} {u : Upload}

/-- After an answer, an upload stays with the lease, asks for the next one with the batch
put back, or has failed. -/
theorem answered_cases (u : Upload) (lease : AppendLease) (code : Node.ErrorCode) :
    code = .none ∧ u.answered lease code = { u with stage := .inner lease } ∨
    (code = .blockFull ∨ code = .leaseExpire) ∧
      u.answered lease code = { u with file := u.file.seekBack, stage := .outer } ∨
    code ≠ .none ∧ ¬(code = .blockFull ∨ code = .leaseExpire) ∧
      u.answered lease code = { u with stage := .failed } := by
  rw [answered]
  split
  next hnone => exact .inl ⟨hnone, rfl⟩
  next hnone =>
    split
    next hback => exact .inr (.inl ⟨hback, rfl⟩)
    next hother => exact .inr (.inr ⟨hnone, hother, rfl⟩)

@[simp] theorem remote_answered (u : Upload) (lease : AppendLease) (code : Node.ErrorCode) :
    (u.answered lease code).remote = u.remote := by
  obtain ⟨-, h⟩ | ⟨-, h⟩ | ⟨-, -, h⟩ := u.answered_cases lease code <;> rw [h]

@[simp] theorem data_answered (u : Upload) (lease : AppendLease) (code : Node.ErrorCode) :
    (u.answered lease code).data = u.data := by
  obtain ⟨-, h⟩ | ⟨-, h⟩ | ⟨-, -, h⟩ := u.answered_cases lease code <;> rw [h]

@[simp] theorem content_seekBack (f : InFile) : f.seekBack.content = f.content := by
  rw [InFile.seekBack]
  split <;> rfl

@[simp] theorem content_answered (u : Upload) (lease : AppendLease) (code : Node.ErrorCode) :
    (u.answered lease code).file.content = u.file.content := by
  obtain ⟨-, h⟩ | ⟨-, h⟩ | ⟨-, -, h⟩ := u.answered_cases lease code <;> rw [h]
  exact content_seekBack _

/-- A read leaves the buffer whole. -/
theorem length_read (f : InFile) {data : Bytes} (buffer : data.length = batchSize) :
    (f.read data).2.length = batchSize := by
  rw [InFile.read]
  split
  next => exact buffer
  next =>
    have hle := List.length_take_le batchSize (f.content.drop f.pos)
    simp only [List.length_append, List.length_drop]
    omega

theorem content_read (f : InFile) (data : Bytes) : (f.read data).1.content = f.content := by
  rw [InFile.read]
  split <;> rfl

/-- A stream that has failed stays so. -/
theorem read_of_fail {f : InFile} (fail : f.fail = true) (data : Bytes) :
    (f.read data).1.fail = true ∧ (f.read data).1.eof = f.eof := by
  rw [InFile.read, fail, Bool.or_true, if_pos rfl]
  exact ⟨rfl, rfl⟩

/-- A good stream with a batch left. -/
theorem read_whole {f : InFile} {data : Bytes} (fail : f.fail = false) (eof : f.eof = false)
    (buffer : data.length = batchSize) (room : f.pos + batchSize ≤ f.content.length) :
    f.read data = ({ f with pos := f.pos + batchSize, gcount := batchSize },
      (f.content.drop f.pos).take batchSize) := by
  have hlength : ((f.content.drop f.pos).take batchSize).length = batchSize := by
    rw [List.length_take, List.length_drop]
    omega
  rw [InFile.read, fail, eof, Bool.or_false, if_neg Bool.false_ne_true]
  have hrest : data.drop batchSize = [] := List.drop_eq_nil_of_le buffer.le
  simp only [hlength, hrest, Nat.lt_irrefl, decide_false, List.append_nil]

/-- A good stream with less than a batch left, which is at its end after that.  The rest of
the buffer is as it was. -/
theorem read_short {f : InFile} (data : Bytes) (fail : f.fail = false) (eof : f.eof = false)
    (within : f.pos ≤ f.content.length) (short : f.content.length < f.pos + batchSize) :
    (f.read data).1.fail = true ∧ (f.read data).1.eof = true ∧
      (f.read data).2 = f.content.drop f.pos ++ data.drop (f.content.length - f.pos) := by
  have htake : (f.content.drop f.pos).take batchSize = f.content.drop f.pos :=
    List.take_of_length_le (by rw [List.length_drop]; omega)
  have hshort : f.content.length - f.pos < batchSize := by omega
  rw [InFile.read, fail, eof, Bool.or_false, if_neg Bool.false_ne_true]
  simp only [htake, List.length_drop, hshort, decide_true]
  exact ⟨trivial, trivial, trivial⟩

/-- An upload that repeats a batch goes on with it, or fails. -/
theorem Stands.send_stuck (fail : u.file.fail = true) (eof : u.file.eof = false)
    (lease : AppendLease) : Stands v content (u.send v lease) := by
  obtain ⟨hfail, heof⟩ := read_of_fail fail u.data
  rw [send]
  obtain ⟨-, h⟩ | ⟨-, h⟩ | ⟨-, -, h⟩ := answered_cases _ lease (u.remote.append v lease
    (u.file.read u.data).2).2
  · rw [h]
    exact .stuck hfail (heof.trans eof) (by simp)
  · rw [h]
    refine .stuck ?_ ?_ (by simp)
    · rw [InFile.seekBack, if_pos hfail]
      exact hfail
    · rw [InFile.seekBack, if_pos hfail]
  · rw [h]
    exact .failed rfl

/-- A whole batch of the file goes behind the others, waits for the next lease, or makes
the upload fail. -/
theorem Stands.send_whole (buffer : u.data.length = batchSize) (fail : u.file.fail = false)
    (eof : u.file.eof = false) (whole : batchSize ∣ u.file.pos) (small : u.file.pos < 2 ^ 31)
    (holds : u.remote.Holds v (u.file.content.take u.file.pos))
    {lease : AppendLease} {k : Nat} (index : lease.index = k + 1)
    (start : k * v.blockSize ≤ u.file.pos) (fits : u.file.pos ≤ (k + 1) * v.blockSize)
    (room : u.file.pos + batchSize ≤ u.file.content.length) :
    Stands v u.file.content (u.send v lease) := by
  have hlength : (u.file.content.take u.file.pos).length = u.file.pos := by
    rw [List.length_take]
    omega
  have hbatch : ((u.file.content.drop u.file.pos).take batchSize).length = batchSize := by
    rw [List.length_take, List.length_drop]
    omega
  have hsmall : u.file.pos + batchSize ≤ 2 ^ 31 := by
    obtain ⟨q, hq⟩ := whole
    rw [hq, batchSize] at small ⊢
    omega
  have happend := holds.append hbatch (by rw [hlength]; exact hsmall) index
    (by rw [hlength]; exact start) (by rw [hlength]; exact fits)
  rw [hlength, ← List.take_add] at happend
  rw [send, read_whole fail eof buffer room]
  rcases happend with ⟨hcode, hmore, hfits⟩ | ⟨hcode, hsame, -⟩ | ⟨hcode, -⟩
  · rw [hcode, answered, if_pos rfl]
    have hsize : (u.remote.append v lease _).1.size.toNat = _ := hmore.size
    rw [List.length_take, Nat.min_eq_left room] at hsize
    rcases Nat.lt_or_ge (u.file.pos + batchSize) (2 ^ 31) with hlt | hge
    · refine .reading fail eof (by simp) (Nat.dvd_add whole (Nat.dvd_refl _)) room hlt hmore ?_
      intro lease' hlease
      cases hlease
      exact ⟨k, index, start.trans (Nat.le_add_right _ _), hfits⟩
    · exact .large (hsize ▸ hge)
  · rw [hcode, answered, if_neg (by decide), if_pos (.inl rfl)]
    have hback : InFile.seekBack { u.file with
        pos := u.file.pos + batchSize, gcount := batchSize } =
        { u.file with gcount := batchSize } := by
      rw [InFile.seekBack, if_neg (by simp [fail])]
      simp only [Nat.add_sub_cancel]
      rw [← eof]
    rw [hback]
    refine .reading fail eof (by simp) whole ((Nat.le_add_right _ _).trans room) small hsame ?_
    intro lease' hlease
    cases hlease
  · rw [hcode]
    exact .failed rfl

/-- The last batch ends the file with what was left in the buffer, or is repeated from
there on. -/
theorem Stands.send_short (buffer : u.data.length = batchSize) (fail : u.file.fail = false)
    (eof : u.file.eof = false) (whole : batchSize ∣ u.file.pos)
    (within : u.file.pos ≤ u.file.content.length) (small : u.file.pos < 2 ^ 31)
    (holds : u.remote.Holds v (u.file.content.take u.file.pos))
    {lease : AppendLease} {k : Nat} (index : lease.index = k + 1)
    (start : k * v.blockSize ≤ u.file.pos) (fits : u.file.pos ≤ (k + 1) * v.blockSize)
    (short : u.file.content.length < u.file.pos + batchSize) :
    Stands v u.file.content (u.send v lease) := by
  obtain ⟨hfail, heof, hdata⟩ := read_short u.data fail eof within short
  have hbatch := length_read u.file buffer
  have hlength : (u.file.content.take u.file.pos).length = u.file.pos := by
    rw [List.length_take]
    omega
  have hsmall : u.file.pos + batchSize ≤ 2 ^ 31 := by
    obtain ⟨q, hq⟩ := whole
    rw [hq, batchSize] at small ⊢
    omega
  have happend := holds.append hbatch (by rw [hlength]; exact hsmall) index
    (by rw [hlength]; exact start) (by rw [hlength]; exact fits)
  rw [send]
  rcases happend with ⟨hcode, hmore, -⟩ | ⟨hcode, -, -⟩ | ⟨hcode, -⟩
  · rw [hcode, answered, if_pos rfl]
    have hsize : (u.remote.append v lease _).1.size.toNat = _ := hmore.size
    have htotal : (u.file.content.take u.file.pos ++ (u.file.read u.data).2).length =
        u.file.pos + batchSize := by
      rw [List.length_append, hlength, hbatch]
    rcases Nat.lt_or_ge (u.file.pos + batchSize) (2 ^ 31) with hlt | hge
    · have heq : u.file.content.take u.file.pos ++ (u.file.read u.data).2 =
          u.file.content ++ u.data.drop (u.file.content.length - u.file.pos) := by
        rw [hdata, ← List.append_assoc, List.take_append_drop]
      have htail : u.data.drop (u.file.content.length - u.file.pos) ≠ [] := by
        intro hnil
        have hle := List.drop_eq_nil_iff.1 hnil
        omega
      rw [heq] at htotal hmore
      refine .ended heof _ htail hmore (by omega) ?_
      rw [htotal]
      exact Nat.dvd_add whole (Nat.dvd_refl _)
    · exact .large (by rw [htotal] at hsize; exact hsize ▸ hge)
  · rw [hcode, answered, if_neg (by decide), if_pos (.inl rfl)]
    refine .stuck ?_ ?_ (by simp)
    · rw [InFile.seekBack, if_pos hfail]
      exact hfail
    · rw [InFile.seekBack, if_pos hfail]
  · rw [hcode]
    exact .failed rfl

theorem Stands.start (content : Bytes) (stack : Vector UInt8 batchSize) :
    Stands v content (start content stack) :=
  .reading rfl rfl (by simp [Upload.start]) (Nat.dvd_zero _) (Nat.zero_le _)
    (Nat.two_pow_pos 31) (RemoteFile.Holds.empty v) (fun lease h => by simp [Upload.start] at h)

theorem Inv.start (content : Bytes) (stack : Vector UInt8 batchSize) :
    Inv v content (start content stack) :=
  ⟨stack.size_toArray, rfl, .start content stack⟩

theorem Inv.send (h : Inv v content u) {lease : AppendLease} (stage : u.stage = .inner lease)
    (more : u.file.eof = false) : Inv v content (u.send v lease) := by
  obtain ⟨buffer, rfl, stands⟩ := h
  refine ⟨?_, ?_, ?_⟩
  · rw [Upload.send, data_answered]
    exact length_read u.file buffer
  · rw [Upload.send, content_answered]
    exact content_read u.file u.data
  · cases stands with
    | failed hfailed => simp [stage] at hfailed
    | large size =>
        refine .large (size.trans ?_)
        rw [Upload.send, remote_answered]
        exact RemoteFile.size_le_append v u.remote lease _
    | stuck fail eof _ => exact .send_stuck fail eof lease
    | reading fail eof _ whole within small holds hlease =>
        obtain ⟨k, index, start, fits⟩ := hlease lease stage
        rcases Nat.lt_or_ge u.file.content.length (u.file.pos + batchSize) with hshort | hroom
        · exact .send_short buffer fail eof whole within small holds index start fits hshort
        · exact .send_whole buffer fail eof whole small holds index start fits hroom
    | ended eof => simp [more] at eof

/-- At the end of the file, the loops only end. -/
theorem Stands.leave (h : Stands v content u) (stage : u.stage ≠ .failed)
    (eof : u.file.eof = true) (next : UploadStage) :
    Stands v content { u with stage := next } := by
  cases h with
  | failed hfailed => exact absurd hfailed stage
  | large size => exact .large size
  | stuck _ hmore => simp [eof] at hmore
  | reading _ hmore => simp [eof] at hmore
  | ended _ tail some holds small whole => exact .ended eof tail some holds small whole

/-- A new lease is for the block that the bytes read so far end in, or the next one. -/
theorem Stands.ask (h : Stands v content u) (stage : u.stage ≠ .failed)
    (more : u.file.eof = false) :
    Stands v content { u with stage := .inner (u.remote.lease v) } := by
  cases h with
  | failed hfailed => exact absurd hfailed stage
  | large size => exact .large size
  | stuck fail eof => exact .stuck fail eof (by simp)
  | reading fail eof _ whole within small holds =>
      have hlength : (content.take u.file.pos).length = u.file.pos := by
        rw [List.length_take]
        omega
      have hindex := holds.lease_index (by rw [hlength]; exact small)
      rw [hlength] at hindex
      have hfits : u.file.pos ≤ (u.file.pos / v.blockSize + 1) * v.blockSize := by
        rw [Nat.mul_comm]
        exact (Nat.lt_mul_div_succ _ v.blockSize_pos).le
      refine .reading fail eof (by simp) whole within small holds ?_
      intro lease hlease
      cases hlease
      exact ⟨_, hindex, Nat.div_mul_le_self _ _, hfits⟩
  | ended eof => simp [more] at eof

/-- The invariant is kept by every round. -/
theorem Inv.next (h : Inv v content u) : Inv v content (u.next v) := by
  rw [Upload.next]
  cases hstage : u.stage with
  | outer =>
      have hstands := h.stands
      cases heof : u.file.eof with
      | true => exact ⟨h.buffer, h.file, hstands.leave (by simp [hstage]) heof _⟩
      | false => exact ⟨h.buffer, h.file, hstands.ask (by simp [hstage]) heof⟩
  | inner lease =>
      cases heof : u.file.eof with
      | true => exact ⟨h.buffer, h.file, h.stands.leave (by simp [hstage]) heof _⟩
      | false => exact h.send hstage heof
  | finished => exact h
  | failed => exact h

theorem Inv.run (content : Bytes) (stack : Vector UInt8 batchSize) (n : Nat) :
    Inv v content ((Upload.next v)^[n] (Upload.start content stack)) := by
  induction n with
  | zero => exact .start content stack
  | succ n ih =>
      rw [Function.iterate_succ_apply']
      exact ih.next

/-- A file that is uploaded to its end comes back with what was left in the buffer, if at
all. -/
theorem download_padded {stack : Vector UInt8 batchSize} {n : Nat}
    (finished : ((Upload.next v)^[n] (Upload.start content stack)).stage = .finished) :
    download v ((Upload.next v)^[n] (Upload.start content stack)).remote = none ∨
      ∃ tail, tail ≠ [] ∧
        download v ((Upload.next v)^[n] (Upload.start content stack)).remote =
          some (content ++ tail) := by
  cases (Inv.run content stack n).stands with
  | failed hfailed => exact absurd (finished.symm.trans hfailed) (by simp)
  | large size => exact .inl (download_large size)
  | stuck _ _ stage => exact absurd finished stage
  | reading _ _ stage => exact absurd finished stage
  | ended _ tail some holds small whole => exact .inr ⟨tail, some, download_eq holds small whole⟩

/-- A file that is shorter than a batch is uploaded to its end, and comes back as a batch. -/
theorem download_short (v : Volume) (stack : Vector UInt8 batchSize)
    (short : content.length < batchSize) :
    ((Upload.next v)^[4] (Upload.start content stack)).stage = .finished ∧
      download v ((Upload.next v)^[4] (Upload.start content stack)).remote =
        some (content ++ stack.toList.drop content.length) := by
  have hstack : stack.toList.length = batchSize := stack.size_toArray
  obtain ⟨-, heof, hdata⟩ := @read_short { content := content } stack.toList rfl rfl
    (Nat.zero_le _) (by simpa using short)
  have hbatch := length_read { content := content } hstack
  have happend := (RemoteFile.Holds.empty v).append hbatch (by decide)
    ((RemoteFile.Holds.empty v).lease_index (by decide)) (by simp) (by simp)
  rcases happend with ⟨hcode, hholds, -⟩ | ⟨-, -, hfull⟩ | ⟨-, hbad⟩
  · have hrounds : (Upload.next v)^[4] (Upload.start content stack) =
        Upload.next v (Upload.next v (Upload.send v { Upload.start content stack with
          stage := .inner (RemoteFile.lease v {}) } (RemoteFile.lease v {}))) := rfl
    have hsent : (Upload.send v { Upload.start content stack with
        stage := .inner (RemoteFile.lease v {}) } (RemoteFile.lease v {})) = {
          file := (InFile.read { content := content } stack.toList).1
          data := (InFile.read { content := content } stack.toList).2
          remote := (RemoteFile.append v {} (RemoteFile.lease v {})
            (InFile.read { content := content } stack.toList).2).1
          stage := .inner (RemoteFile.lease v {}) } := by
      show answered _ _ (RemoteFile.append v {} (RemoteFile.lease v {})
        (InFile.read { content := content } stack.toList).2).2 = _
      rw [hcode]
      rfl
    rw [hrounds, hsent]
    simp only [Upload.next, heof, if_true, true_and]
    have heq : [] ++ (InFile.read { content := content } stack.toList).2 =
        content ++ stack.toList.drop content.length := hdata
    rw [heq] at hholds
    have hlength : (content ++ stack.toList.drop content.length).length = batchSize := by
      rw [← heq]
      exact hbatch
    exact download_eq hholds (by rw [hlength]; decide) (by rw [hlength])
  · have hle := v.batch_le
    simp only [List.length_nil, Nat.zero_div, Nat.zero_add, Nat.one_mul] at hfull
    omega
  · exact absurd hbad (by simp [RemoteFile.versionBad_lease])

/-- No file comes back as it was. -/
theorem download_ne {stack : Vector UInt8 batchSize} {n : Nat}
    (finished : ((Upload.next v)^[n] (Upload.start content stack)).stage = .finished) :
    download v ((Upload.next v)^[n] (Upload.start content stack)).remote ≠ some content := by
  intro hsame
  obtain hnone | ⟨tail, htail, hpadded⟩ := download_padded finished
  · exact absurd (hnone.symm.trans hsame) (by simp)
  · exact htail (List.append_right_eq_self.1 (Option.some.inj (hpadded.symm.trans hsame)))

end Upload

/-- Putting a file and getting it never gives the same file. -/
theorem put_get_never (v : Volume) (content : Bytes) (stack : Vector UInt8 batchSize) :
    ¬RoundTrip v content stack := by
  rintro ⟨n, finished, hsame⟩
  exact Upload.download_ne finished hsame

/-- Blocks of one batch. -/
def oneBatch : Volume := ⟨1, by decide, by decide⟩

/-- Three bytes come back as a batch. -/
theorem three_bytes_padded : ¬∀ v content stack, RoundTrip v content stack := by
  intro h
  obtain ⟨n, finished, hsame⟩ := h oneBatch [97, 98, 99] (Vector.replicate batchSize 0)
  exact Upload.download_ne finished hsame

end Ofs
