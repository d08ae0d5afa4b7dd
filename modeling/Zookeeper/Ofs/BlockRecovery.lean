import Zookeeper.Ofs.BlockBounds
import Zookeeper.Pieces

/-!
# Recovering a block

A chunk server whose copy of a block is behind gets it from another one.
`BlockCopyToAction::Start` sends the version and the size, the content in pieces and the
end.  `Block::Resize` begins a recovery or lets a newer one take over, `RecoverData`
writes a piece and sets its flag, and `CompleteRecover` is served once every flag is set
(`ofs/node/block`).

While a recovery runs, the data file has the announced size, and where a flag is set it
has the content of the recovery's version (`RecoverableBlock.Inv`).  A piece of an older
version is dropped, and one that comes twice is written over itself.  So a recovery that
completes leaves exactly the content, and until then nothing is served
(`recovery_complete`).
-/

namespace Ofs.Node

/-! ## The source of a recovery -/

/-- The messages about one block, without its id. -/
inductive RecoverMessage where
  | startRecoverBlock (version : Int64) (size : Int32)
  | recoverBlockData (version : Int64) (offset : Int32) (data : Bytes)
  | recoverBlockComplete (version : Int64)
deriving DecidableEq, Repr

namespace BlockCopyToAction

/-- The loop of `Start`, from an offset on, with the offset it ends at. -/
def sendData (batchSize : Nat) (version : Int64) (offset : Int32) (input : Bytes) :
    List RecoverMessage × Int32 :=
  let buf := input.take batchSize
  if buf = [] then ([], offset)
  else
    let r := sendData batchSize version (offset + Int32.ofNat buf.length) (input.drop batchSize)
    (.recoverBlockData version offset buf :: r.1, r.2)
termination_by input.length
decreasing_by
  rename_i hbuf
  rw [List.take_eq_nil_iff, not_or] at hbuf
  rw [List.length_drop]
  have := List.length_pos_iff.2 hbuf.2
  omega

/-- `BlockCopyToAction::Start`. -/
def start (batchSize : Nat) (version : Int64) (size : Int32) (file : Bytes) :
    List RecoverMessage :=
  if Int32.ofNat file.length ≠ size then []
  else if size.toInt.tmod batchSize ≠ 0 then []
  else
    let r := sendData batchSize version 0 file
    .startRecoverBlock version size :: r.1 ++
      if r.2 ≠ size then [] else [.recoverBlockComplete version]

end BlockCopyToAction

/-- What the sources have: a content for each version, in whole batches. -/
structure Contents (batchSize : Nat) where
  bytes : Int64 → Bytes
  short : ∀ v, (bytes v).length < 2 ^ 31
  whole : ∀ v, batchSize ∣ (bytes v).length

/-- Some source sends the message. -/
def Contents.Sends {batchSize : Nat} (C : Contents batchSize) (m : RecoverMessage) : Prop :=
  ∃ version size, m ∈ BlockCopyToAction.start batchSize version size (C.bytes version)

/-! ## The block that is recovered -/

/-- `RecoverController::CheckIsComplete`. -/
def Recover.checkIsComplete (r : Recover) (version : Int64) : Bool :=
  r.version = version ∧ false ∉ r.dataFlags

/-- `ofs::Block` with its data file, if there is one, and the recovery that runs. -/
structure RecoverableBlock where
  info : BlockInfo
  file : Option Bytes := none
  recover : Option Recover := none
deriving DecidableEq, Repr

/-- The file behind a call that writes and succeeds in opening it. -/
def writeFile (file : Option Bytes) (data : Bytes) (offset : Int32) (io : FileIo) : Option Bytes :=
  if data = [] ∨ io.opens = false then file
  else some (written data (file.getD []) (RandomAccessFile.write offset.toInt data.length io).2)

namespace RecoverableBlock

/-- The bytes of the data file. -/
def data (b : RecoverableBlock) : Bytes := b.file.getD []

/-- The block as requests see it.  They compare with the size before they take the lock,
so it is one that they have seen. -/
def stored (b : RecoverableBlock) (seen : Int32) : StoredBlock :=
  { info := { b.info with size := seen }, file := b.data, recovering := b.recover.isSome }

/-- The block after a request has been through its checks. -/
def stores (b : RecoverableBlock) (size : Int32) (data : Payload) (newVersion : Int64)
    (strict : Bool) (r : RandomAccessFileResult × List Access) (dataIo metaIo : FileIo) :
    RecoverableBlock × ErrorCode :=
  let out := (b.stored b.info.size).store data.bytes size newVersion strict r metaIo
  ({ b with
      info := out.block.info
      file := if data.bytes = [] ∨ dataIo.opens = false then b.file else some out.block.file },
    out.code)

/-- `Block::Write`. -/
def write (b : RecoverableBlock) (seen : Int32) (exceptVersion newVersion : Int64)
    (offset : Int32) (data : Payload) (strict : Bool) (dataIo metaIo : FileIo) :
    RecoverableBlock × ErrorCode :=
  match (b.stored seen).checkWrite exceptVersion offset data strict with
  | .none =>
      b.stores b.info.size data newVersion strict
        (RandomAccessFile.write offset.toInt data.bytes.length dataIo) dataIo metaIo
  | code => (b, code)

/-- `Block::Append`, which sees the size under the lock. -/
def append (b : RecoverableBlock) (blockSize : Int32) (exceptVersion newVersion : Int64)
    (data : Payload) (strict : Bool) (dataIo metaIo : FileIo) : RecoverableBlock × ErrorCode :=
  match (b.stored b.info.size).checkAppend blockSize exceptVersion data strict with
  | .none =>
      b.stores (b.info.size + Int32.ofNat data.bytes.length) data newVersion strict
        (RandomAccessFile.append b.data.length data.bytes.length dataIo) dataIo metaIo
  | code => (b, code)

/-- The end of `Resize`: `fs::resize_file`, of a file that is made with one byte if it does
not exist.  It throws if it fails, and for a negative size. -/
def resizeFile (b : RecoverableBlock) (size : Int32) (resized : Bool) : RecoverableBlock :=
  let bytes := b.file.getD [99]
  let n := size.toNatClampNeg
  { b with
    file := some
      (if size < 0 ∨ resized = false then bytes
      else bytes.take n ++ List.replicate (n - bytes.length) 0) }

/-- `Block::Resize`. -/
def resize (b : RecoverableBlock) (batchSize : Nat) (version : Int64) (size : Int32)
    (resized : Bool) : RecoverableBlock :=
  if version ≤ b.info.version then b
  else
    let r := ({ info := b.info, recover := b.recover } : Live).startRecover batchSize version size
    let b := { b with recover := r.1.recover }
    if r.2 then b.resizeFile size resized else b

/-- `Block::RecoverData`, with `RecoverController::Recover`.  A flag behind the last one is
not there to be set. -/
def recoverData (b : RecoverableBlock) (batchSize : Nat) (version : Int64) (offset : Int32)
    (data : Bytes) (io : FileIo) : RecoverableBlock :=
  match b.recover with
  | none => b
  | some r =>
      if r.version = version then
        { b with
          file := writeFile b.file data offset io
          recover := some
            (if (RandomAccessFile.write offset.toInt data.length io).1 = .success then
              { r with dataFlags := r.dataFlags.set (offset.toInt.tdiv batchSize).toNat true }
            else r) }
      else b

/-- `Block::CompleteRecover`. -/
def completeRecover (b : RecoverableBlock) (version : Int64) (metaIo : FileIo) :
    RecoverableBlock × Bool :=
  match b.recover with
  | none => (b, false)
  | some r =>
      if r.checkIsComplete version then
        ({ b with
            info := { b.info with version := version, size := r.size }
            recover := none },
          (RandomAccessFile.write 0 StoredBlock.metaSize metaIo).1 = .success)
      else (b, false)

/-- What a message makes of the block. -/
def receive (b : RecoverableBlock) (batchSize : Nat) (io : FileIo) :
    RecoverMessage → RecoverableBlock
  | .startRecoverBlock version size => b.resize batchSize version size true
  | .recoverBlockData version offset data => b.recoverData batchSize version offset data io
  | .recoverBlockComplete version => (b.completeRecover version io).1

end RecoverableBlock

/-- A message or a request.  The ends of its file calls are with it, apart from
`fs::resize_file`, which succeeds. -/
inductive RecoverAct where
  | message (m : RecoverMessage) (io : FileIo)
  | write (seen : Int32) (exceptVersion newVersion : Int64) (offset : Int32) (data : Payload)
      (strict : Bool) (dataIo metaIo : FileIo)
  | append (exceptVersion newVersion : Int64) (data : Payload) (strict : Bool)
      (dataIo metaIo : FileIo)

def RecoverableBlock.step (blockSize : Int32) (batchSize : Nat) (b : RecoverableBlock) :
    RecoverAct → RecoverableBlock
  | .message m io => b.receive batchSize io m
  | .write seen exceptVersion newVersion offset data strict dataIo metaIo =>
      (b.write seen exceptVersion newVersion offset data strict dataIo metaIo).1
  | .append exceptVersion newVersion data strict dataIo metaIo =>
      (b.append blockSize exceptVersion newVersion data strict dataIo metaIo).1

/-- The runs of a block from a state. -/
def recoverSystem (blockSize : Int32) (batchSize : Nat) (init : RecoverableBlock → Prop) :
    Transition.System RecoverableBlock RecoverAct :=
  Transition.ofStep init fun b a => some (b.step blockSize batchSize a)

/-- A block that is created or loaded. -/
def RecoverableBlock.Idle (b : RecoverableBlock) : Prop := b.recover = none

instance (b : RecoverableBlock) : Decidable b.Idle := inferInstanceAs (Decidable (_ = _))

/-! ## What is to hold -/

section

variable {batchSize : Nat} (C : Contents batchSize)

/-- Messages come from the sources. -/
def Contents.Allows (_ : RecoverableBlock) : RecoverAct → Prop
  | .message m _ => C.Sends m
  | _ => True

/-- The step does not complete the recovery, and not because the meta file is not written. -/
def RecoverableBlock.Incomplete (b : RecoverableBlock) : RecoverAct → Prop
  | .message (.recoverBlockComplete version) io =>
      (RandomAccessFile.write 0 StoredBlock.metaSize io).1 = .success ∧
        (b.completeRecover version io).2 = false
  | _ => True

/-- The block has a version and exactly its content. -/
structure RecoverableBlock.Holds (b : RecoverableBlock) (version : Int64) : Prop where
  version_eq : b.info.version = version
  size_eq : b.info.size.toInt = (C.bytes version).length
  file_eq : b.file = some (C.bytes version)

/-- No read and no write is served. -/
structure RecoverableBlock.Refuses (blockSize : Int32) (b : RecoverableBlock) : Prop where
  read : ∀ seen offset size io, ((b.stored seen).read offset size io).1 ≠ some .none ∧
    ((b.stored seen).read offset size io).2 = []
  write : ∀ seen exceptVersion newVersion offset data strict dataIo metaIo,
    (b.write seen exceptVersion newVersion offset data strict dataIo metaIo).1 = b ∧
      (b.write seen exceptVersion newVersion offset data strict dataIo metaIo).2 ≠ .none
  append : ∀ exceptVersion newVersion data strict dataIo metaIo,
    (b.append blockSize exceptVersion newVersion data strict dataIo metaIo).1 = b ∧
      (b.append blockSize exceptVersion newVersion data strict dataIo metaIo).2 ≠ .none

end

/-! ## What the sources send -/

/-- The data is a whole piece of the content, from the offset on. -/
def IsPiece (batchSize : Nat) (content : Bytes) (offset : Int32) (data : Bytes) : Prop :=
  ∃ i, offset.toInt = ((i * batchSize : Nat) : Int) ∧
    data = (content.drop (i * batchSize)).take batchSize ∧
    0 < batchSize ∧ i * batchSize + batchSize ≤ content.length

/-- What is in a message is the version's. -/
def Contents.Right {batchSize : Nat} (C : Contents batchSize) : RecoverMessage → Prop
  | .startRecoverBlock version size => size.toInt = (C.bytes version).length
  | .recoverBlockData version offset data => IsPiece batchSize (C.bytes version) offset data
  | .recoverBlockComplete _ => True

namespace BlockCopyToAction

variable {batchSize : Nat} {version : Int64}

/-- From a piece on, the loop sends pieces. -/
theorem sendData_pieces {content : Bytes} (short : content.length < 2 ^ 31)
    (whole : batchSize ∣ content.length) {offset : Int32} {input : Bytes} {m : RecoverMessage}
    (h : m ∈ (sendData batchSize version offset input).1) {i : Nat}
    (hoffset : offset.toInt = ((i * batchSize : Nat) : Int))
    (hinput : input = content.drop (i * batchSize)) :
    ∃ offset data, m = .recoverBlockData version offset data ∧
      IsPiece batchSize content offset data := by
  induction offset, input using sendData.induct batchSize generalizing i with
  | version => exact version
  | case1 offset input buf hnil =>
      rw [sendData, if_pos hnil] at h
      exact absurd h List.not_mem_nil
  | case2 offset input buf hbuf ih =>
      rw [sendData, if_neg hbuf] at h
      have hleft : 0 < batchSize ∧ 0 < input.length := by
        have hnonempty := (not_congr List.take_eq_nil_iff).1 hbuf
        rw [not_or] at hnonempty
        exact ⟨Nat.pos_of_ne_zero hnonempty.1, List.length_pos_iff.2 hnonempty.2⟩
      have hfit : i * batchSize + batchSize ≤ content.length := by
        rw [hinput, List.length_drop] at hleft
        have hle := Nat.le_of_dvd hleft.2 (Nat.dvd_sub whole (Nat.dvd_mul_left batchSize i))
        omega
      have hlength : (input.take batchSize).length = batchSize := by
        rw [List.length_take, hinput, List.length_drop]
        omega
      rcases List.mem_cons.1 h with rfl | hlater
      · exact ⟨offset, _, rfl, i, hoffset, by rw [hinput], hleft.1, hfit⟩
      · have hsum : (i + 1) * batchSize = i * batchSize + batchSize := Nat.succ_mul i batchSize
        refine ih hlater (i := i + 1) ?_ ?_
        · show (offset + Int32.ofNat (input.take batchSize).length).toInt = _
          rw [hlength, Int32.toInt_add, hoffset, Int32.toInt_ofNat_of_lt (by omega), hsum,
            Int.bmod_eq_of_le (by omega) (by omega), Nat.cast_add]
        · rw [hinput, List.drop_drop, hsum]

/-- `Start` announces the size, sends pieces and ends. -/
theorem start_right {size : Int32} {content : Bytes} (short : content.length < 2 ^ 31)
    (whole : batchSize ∣ content.length) {m : RecoverMessage}
    (h : m ∈ start batchSize version size content) :
    m = .startRecoverBlock version size ∧ size.toInt = content.length ∨
      (∃ offset data, m = .recoverBlockData version offset data ∧
        IsPiece batchSize content offset data) ∨
      m = .recoverBlockComplete version := by
  rw [start] at h
  split at h
  next => exact absurd h List.not_mem_nil
  next hsize =>
    split at h
    next => exact absurd h List.not_mem_nil
    next =>
      simp only [List.mem_append, List.mem_cons] at h
      rcases h with (hfirst | hpiece) | hlast
      · rw [Decidable.not_not] at hsize
        exact .inl ⟨hfirst, by rw [← hsize, Int32.toInt_ofNat_of_lt short]⟩
      · exact .inr (.inl (sendData_pieces short whole hpiece (i := 0)
          (by rw [Nat.zero_mul]; rfl) (by rw [Nat.zero_mul, List.drop_zero])))
      · split at hlast
        next => exact absurd hlast List.not_mem_nil
        next => exact .inr (.inr (List.mem_singleton.1 hlast))

end BlockCopyToAction

/-- Every message from a source is right. -/
theorem Contents.Sends.right {batchSize : Nat} {C : Contents batchSize} {m : RecoverMessage}
    (h : C.Sends m) : C.Right m := by
  obtain ⟨version, size, hm⟩ := h
  rcases BlockCopyToAction.start_right (C.short version) (C.whole version) hm with
    ⟨rfl, hsize⟩ | ⟨offset, data, rfl, hpiece⟩ | rfl
  · exact hsize
  · exact hpiece
  · trivial

/-! ## What the steps keep -/

/-- The data file has the announced size, and the content where a flag is set. -/
structure Recover.Inv {batchSize : Nat} (C : Contents batchSize) (r : Recover)
    (file : Option Bytes) : Prop where
  size_eq : r.size.toInt = (C.bytes r.version).length
  length_flags : r.dataFlags.length = (C.bytes r.version).length / batchSize
  filled : ∃ bytes, file = some bytes ∧
    Pieces.Filled batchSize (C.bytes r.version) r.dataFlags bytes

/-- A call that opens no file writes nothing. -/
theorem writeFile_some (bytes data : Bytes) (offset : Int32) (io : FileIo) :
    writeFile (some bytes) data offset io =
      some (written data bytes (RandomAccessFile.write offset.toInt data.length io).2) := by
  rw [writeFile]
  split
  next h =>
    have hnothing : (RandomAccessFile.write offset.toInt data.length io).2 = [] := by
      rw [RandomAccessFile.write, RandomAccessFile.transfer]
      rcases h with hnil | hclosed
      · rw [if_pos (List.length_eq_zero_iff.2 hnil)]
      · rw [hclosed]
        split <;> rfl
    rw [hnothing, written_nil]
  next => rfl

/-- The end of a call that writes a piece.  The piece is there if it succeeds. -/
theorem filled_written {batchSize : Nat} {content bytes : Bytes} {flags : List Bool}
    (h : Pieces.Filled batchSize content flags bytes) {offset : Int32} {i : Nat}
    (hoffset : offset.toInt = ((i * batchSize : Nat) : Int))
    (hfit : i * batchSize + batchSize ≤ content.length) (hbatch : 0 < batchSize) {data : Bytes}
    (hdata : data = (content.drop (i * batchSize)).take batchSize) (io : FileIo) :
    let r := RandomAccessFile.write offset.toInt data.length io
    Pieces.Filled batchSize content flags (written data bytes r.2) ∧
      (r.1 = .success →
        Pieces.Filled batchSize content (flags.set i true) (written data bytes r.2)) := by
  intro r
  have hlength : data.length = batchSize := by
    rw [hdata, List.length_take, List.length_drop]
    omega
  obtain ⟨k, hk, hwritten, hsuccess⟩ :=
    RandomAccessFile.write_written (i * batchSize) data bytes io
  rw [← hoffset] at hwritten hsuccess
  have hinside : i * batchSize + (data.take k).length ≤ bytes.length := by
    rw [List.length_take, h.length_eq]
    omega
  -- the bytes of the piece that are written are the content's
  have hplace : ∀ j : Nat, i * batchSize ≤ j → j < i * batchSize + k →
      (data.take k)[j - i * batchSize]? = content[j]? := by
    intro j hle hlt
    rw [List.getElem?_take_of_lt (by omega), hdata, List.getElem?_take_of_lt (by omega),
      List.getElem?_drop, Nat.add_sub_cancel' hle]
  have hkept : Pieces.Filled batchSize content flags (written data bytes r.2) := by
    rw [hwritten]
    refine h.keep (length_overwrite_le hinside) fun j => ?_
    rw [getElem?_overwrite hinside]
    split
    next hin =>
      rw [List.length_take] at hin
      exact .inl (hplace j hin.1 (by omega))
    next => exact .inr rfl
  refine ⟨hkept, fun hdone => hkept.set fun j hj => ?_⟩
  have hall := hsuccess.1 hdone
  have hin : i * batchSize ≤ j ∧ j < i * batchSize + batchSize := by
    rw [← hj]
    exact ⟨Nat.div_mul_le_self j batchSize, Nat.lt_div_mul_add hbatch⟩
  rw [hwritten, getElem?_overwrite hinside, if_pos]
  · exact hplace j hin.1 (by omega)
  · rw [List.length_take]
    omega

namespace RecoverableBlock

variable {batchSize : Nat} {C : Contents batchSize} {b : RecoverableBlock} {r : Recover}
  {version : Int64}

/-- What holds while a recovery runs. -/
def Inv (C : Contents batchSize) (b : RecoverableBlock) : Prop := ∀ r ∈ b.recover, r.Inv C b.file

theorem inv_of_none (h : b.recover = none) : b.Inv C := by
  intro r hr
  rw [h] at hr
  cases hr

/-- `Resize` is refused, or begins or replaces a recovery. -/
theorem resize_cases {size : Int32} {count : Nat} (hsize : size.toInt = count) :
    b.resize batchSize version size true = b ∨
      ∃ bytes, bytes.length = count ∧ b.resize batchSize version size true =
        { b with
          recover := some ⟨version, size, List.replicate (count / batchSize) false⟩
          file := some bytes } := by
  have hcount : size.toInt.tdiv batchSize = ((count / batchSize : Nat) : Int) := by
    rw [hsize]
    rfl
  have hnonneg : ¬ ((count / batchSize : Nat) : Int) < 0 := Int.not_lt.2 (Int.natCast_nonneg _)
  have hfile : ∀ r, ∃ bytes, bytes.length = count ∧
      resizeFile { b with recover := r } size true =
        { b with recover := r, file := some bytes } := by
    intro r
    refine ⟨_, ?_, rfl⟩
    have hn : size.toNatClampNeg = count := by
      rw [Int32.toNatClampNeg, hsize, Int.toNat_natCast]
    rw [if_neg, hn, List.length_append, List.length_take, List.length_replicate]
    · omega
    · rw [Int32.lt_iff_toInt_lt, hsize, not_or]
      exact ⟨Int.not_lt.2 (Int.natCast_nonneg count), by simp⟩
  rw [resize]
  split
  next => exact .inl rfl
  next =>
    rw [Live.startRecover]
    cases hrecover : b.recover with
    | none =>
        simp only [hcount, if_neg hnonneg, if_true, Int.toNat_natCast]
        exact .inr (hfile _)
    | some r =>
        simp only [hcount]
        split
        next =>
          rw [decide_eq_true (Int.natCast_nonneg _), if_pos rfl, Int.toNat_natCast]
          exact .inr (hfile _)
        next =>
          left
          rw [if_neg Bool.false_ne_true, ← hrecover]

/-- `RecoverData` writes a piece of the content over the file, and sets the flag of a piece
that is written. -/
theorem Inv.recoverData (h : b.Inv C) {offset : Int32} {data : Bytes}
    (hpiece : IsPiece batchSize (C.bytes version) offset data) (io : FileIo) :
    (b.recoverData batchSize version offset data io).Inv C := by
  rw [RecoverableBlock.recoverData]
  split
  next => exact h
  next r hr =>
    split
    next hversion =>
      obtain ⟨i, hoffset, hdata, hbatch, hfit⟩ := hpiece
      subst hversion
      obtain ⟨hsize, hflags, bytes, hfile, hfilled⟩ := h r hr
      have hwritten := filled_written hfilled hoffset hfit hbatch hdata io
      have hindex : (offset.toInt.tdiv batchSize).toNat = i := by
        rw [hoffset, Int.natCast_mul, Int.mul_tdiv_cancel _ (by omega), Int.toNat_natCast]
      rintro r' hr'
      cases hr'
      rw [hfile, writeFile_some, hindex]
      split
      next hsuccess =>
        exact ⟨hsize, by rw [List.length_set, hflags], _, rfl, hwritten.2 hsuccess⟩
      next => exact ⟨hsize, hflags, _, rfl, hwritten.1⟩
    next => exact h

/-- A recovery completes with all its flags set, and is over then. -/
theorem completeRecover_cases (b : RecoverableBlock) (version : Int64) (io : FileIo) :
    b.completeRecover version io = (b, false) ∨
      ∃ r, b.recover = some r ∧ r.version = version ∧ false ∉ r.dataFlags ∧
        b.completeRecover version io =
          ({ b with
              info := { b.info with version := version, size := r.size }
              recover := none },
            decide ((RandomAccessFile.write 0 StoredBlock.metaSize io).1 = .success)) := by
  rw [completeRecover]
  cases hrecover : b.recover with
  | none => exact .inl rfl
  | some r =>
      simp only
      split
      next hcomplete =>
        rw [Recover.checkIsComplete, decide_eq_true_iff] at hcomplete
        exact .inr ⟨r, rfl, hcomplete.1, hcomplete.2, rfl⟩
      next => exact .inl rfl

@[simp] theorem recovering_stored (b : RecoverableBlock) (seen : Int32) :
    (b.stored seen).recovering = b.recover.isSome := rfl

/-- While a recovery runs nothing is served. -/
theorem refuses_of_recover (h : b.recover.isSome = true) (blockSize : Int32) :
    b.Refuses blockSize where
  read seen offset size io := by
    rw [StoredBlock.read]
    split
    next => exact ⟨by simp, rfl⟩
    next =>
      rw [recovering_stored, if_pos h]
      exact ⟨by simp, rfl⟩
  write seen exceptVersion newVersion offset data strict dataIo metaIo := by
    have hcheck : (b.stored seen).checkWrite exceptVersion offset data strict ≠ .none := by
      rw [StoredBlock.checkWrite]
      split
      next => simp
      next =>
        rw [recovering_stored, if_pos h]
        simp
    rw [write]
    split
    next hnone => exact absurd hnone hcheck
    next => exact ⟨rfl, hcheck⟩
  append exceptVersion newVersion data strict dataIo metaIo := by
    have hcheck : (b.stored b.info.size).checkAppend blockSize exceptVersion data strict ≠
        .none := by
      rw [StoredBlock.checkAppend, recovering_stored, if_pos h]
      simp
    rw [append]
    split
    next hnone => exact absurd hnone hcheck
    next => exact ⟨rfl, hcheck⟩

/-- A request does not begin a recovery. -/
theorem recover_write (seen : Int32) (exceptVersion newVersion : Int64) (offset : Int32)
    (data : Payload) (strict : Bool) (dataIo metaIo : FileIo) :
    (b.write seen exceptVersion newVersion offset data strict dataIo metaIo).1.recover =
      b.recover := by
  rw [write]
  split <;> rfl

theorem recover_append (blockSize : Int32) (exceptVersion newVersion : Int64) (data : Payload)
    (strict : Bool) (dataIo metaIo : FileIo) :
    (b.append blockSize exceptVersion newVersion data strict dataIo metaIo).1.recover =
      b.recover := by
  rw [append]
  split <;> rfl

theorem Inv.resize (h : b.Inv C) {size : Int32} (hsize : size.toInt = (C.bytes version).length) :
    (b.resize batchSize version size true).Inv C := by
  rcases @resize_cases batchSize b version size _ hsize with hsame | ⟨bytes, hlength, hnew⟩
  · rw [hsame]
    exact h
  · rw [hnew]
    rintro r hr
    cases hr
    exact ⟨hsize, List.length_replicate, bytes, rfl, Pieces.filled_replicate _ hlength⟩

theorem Inv.completeRecover (h : b.Inv C) (io : FileIo) :
    (b.completeRecover version io).1.Inv C := by
  rcases b.completeRecover_cases version io with hsame | ⟨r, -, -, -, hdone⟩
  · rw [hsame]
    exact h
  · rw [hdone]
    exact inv_of_none rfl

/-- A call that does not begin a recovery, and does nothing while one runs. -/
theorem Inv.request (h : b.Inv C) {b' : RecoverableBlock} (hrecover : b'.recover = b.recover)
    (hrefused : b.recover.isSome = true → b' = b) : b'.Inv C := by
  cases hrunning : b.recover with
  | none => exact inv_of_none (hrecover.trans hrunning)
  | some r =>
      rw [hrefused (by rw [hrunning]; rfl)]
      exact h

/-- A step that is allowed keeps what holds while a recovery runs. -/
theorem Inv.step (h : b.Inv C) {blockSize : Int32} {a : RecoverAct} (hallowed : C.Allows b a) :
    (b.step blockSize batchSize a).Inv C := by
  cases a with
  | message m io =>
      have hright : C.Right m := Contents.Sends.right hallowed
      cases m with
      | startRecoverBlock version size => exact h.resize hright
      | recoverBlockData version offset data => exact h.recoverData hright io
      | recoverBlockComplete version => exact h.completeRecover io
  | write seen exceptVersion newVersion offset data strict dataIo metaIo =>
      exact h.request (recover_write ..) fun hrunning =>
        ((refuses_of_recover hrunning blockSize).write ..).1
  | append exceptVersion newVersion data strict dataIo metaIo =>
      exact h.request (recover_append ..) fun hrunning =>
        ((refuses_of_recover hrunning blockSize).append ..).1

/-- A recovery that completes has filled the file. -/
theorem Inv.holds (h : b.Inv C) {io : FileIo} (htrue : (b.completeRecover version io).2 = true) :
    (b.completeRecover version io).1.Holds C version := by
  rcases b.completeRecover_cases version io with hsame | ⟨r, hr, rfl, hall, hdone⟩
  · rw [hsame] at htrue
    cases htrue
  · obtain ⟨hsize, hflags, bytes, hfile, hfilled⟩ := h r hr
    rw [hdone]
    refine ⟨rfl, hsize, ?_⟩
    rw [← hfilled.complete hflags (C.whole r.version) hall]
    exact hfile

/-- A recovery goes on until it completes. -/
theorem recover_step {blockSize : Int32} {a : RecoverAct} (h : b.recover.isSome = true)
    (hallowed : C.Allows b a) (hincomplete : b.Incomplete a) :
    (b.step blockSize batchSize a).recover.isSome = true := by
  cases a with
  | message m io =>
      have hright : C.Right m := Contents.Sends.right hallowed
      cases m with
      | startRecoverBlock version size =>
          show (b.resize batchSize version size true).recover.isSome = true
          rcases @resize_cases batchSize b version size _ hright with hsame | ⟨bytes, -, hnew⟩
          · rw [hsame]
            exact h
          · rw [hnew]
            rfl
      | recoverBlockData version offset data =>
          show (b.recoverData batchSize version offset data io).recover.isSome = true
          rw [RecoverableBlock.recoverData]
          split
          next => exact h
          next => split <;> first | rfl | exact h
      | recoverBlockComplete version =>
          show (b.completeRecover version io).1.recover.isSome = true
          rcases b.completeRecover_cases version io with hsame | ⟨r, -, -, -, hdone⟩
          · rw [hsame]
            exact h
          · obtain ⟨hwritten, hfalse⟩ := hincomplete
            rw [hdone, hwritten] at hfalse
            cases hfalse
  | write seen exceptVersion newVersion offset data strict dataIo metaIo =>
      exact (congrArg Option.isSome (recover_write ..)).trans h
  | append exceptVersion newVersion data strict dataIo metaIo =>
      exact (congrArg Option.isSome (recover_append ..)).trans h

end RecoverableBlock

/-- With messages from the sources only, a recovery that completes leaves the version, the
announced size and exactly the content, and from the first `Resize` that is accepted until
then no read and no write is served. -/
theorem recovery_complete {blockSize : Int32} {batchSize : Nat} {C : Contents batchSize}
    {b : RecoverableBlock}
    (hr : (recoverSystem blockSize batchSize RecoverableBlock.Idle).Run C.Allows b) :
    (∀ version io, (b.completeRecover version io).2 = true →
      (b.completeRecover version io).1.Holds C version) ∧
    ∀ version size, C.Sends (.startRecoverBlock version size) → b.Idle →
      ¬ (b.resize batchSize version size true).Idle →
      ∀ b', (recoverSystem blockSize batchSize (· = b.resize batchSize version size true)).Run
          (fun s a => C.Allows s a ∧ s.Incomplete a) b' →
        b'.Refuses blockSize := by
  constructor
  · intro version io htrue
    refine RecoverableBlock.Inv.holds ?_ htrue
    refine hr.invariant (I := RecoverableBlock.Inv C) ?_ ?_
    · intro s hidle
      exact RecoverableBlock.inv_of_none hidle
    · rintro s a s' hinv hallowed hstep
      cases hstep
      exact hinv.step hallowed
  · intro version size _ _ haccepted b' hr'
    refine RecoverableBlock.refuses_of_recover ?_ blockSize
    refine hr'.invariant (I := fun s => s.recover.isSome = true) ?_ ?_
    · rintro s rfl
      exact Option.isSome_iff_ne_none.2 haccepted
    · rintro s a s' hrunning hok hstep
      cases hstep
      exact RecoverableBlock.recover_step hrunning hok.1 hok.2

/-- Sources with four bytes in version 2. -/
def fourBytesOfTwo : Contents 2 where
  bytes version := if version = 2 then [1, 2, 3, 4] else []
  short version := by split <;> decide
  whole version := by split <;> decide

/-- The second piece comes before the first one. -/
def outOfOrder : List RecoverAct :=
  [.message (.startRecoverBlock 2 4) {},
    .message (.recoverBlockData 2 2 [3, 4]) { transfers := [.moved 2] },
    .message (.recoverBlockData 2 0 [1, 2]) { transfers := [.moved 2] }]

theorem recovery_complete_out_of_order :
    ((outOfOrder.foldl (RecoverableBlock.step 4096 2) { info := { id := 7 } }).completeRecover 2
        { transfers := [.moved 24] }).1.Holds fourBytesOfTwo 2 ∧
      (RecoverableBlock.resize { info := { id := 7 } } 2 2 4 true).Refuses 4096 := by
  have hsent : BlockCopyToAction.start 2 2 4 (fourBytesOfTwo.bytes 2) =
      [.startRecoverBlock 2 4, .recoverBlockData 2 0 [1, 2], .recoverBlockData 2 2 [3, 4],
        .recoverBlockComplete 2] := by
    simp [BlockCopyToAction.start, BlockCopyToAction.sendData, fourBytesOfTwo]
  have hsends : ∀ m ∈ BlockCopyToAction.start 2 2 4 (fourBytesOfTwo.bytes 2),
      fourBytesOfTwo.Sends m := fun m hm => ⟨2, 4, hm⟩
  rw [hsent] at hsends
  have hidle : (recoverSystem 4096 2 RecoverableBlock.Idle).Run fourBytesOfTwo.Allows
      { info := { id := 7 } } := .start rfl
  constructor
  · have hexec : Transition.exec (fun b a => some (RecoverableBlock.step 4096 2 b a))
        { info := { id := 7 } } outOfOrder =
          some (outOfOrder.foldl (RecoverableBlock.step 4096 2) { info := { id := 7 } }) := rfl
    refine (recovery_complete (Transition.exec_run hidle ?_ hexec)).1 2 _ (by decide +kernel)
    exact ⟨hsends _ (by decide), fun _ _ => ⟨hsends _ (by decide), fun _ _ =>
      ⟨hsends _ (by decide), fun _ _ => trivial⟩⟩⟩
  · exact (recovery_complete hidle).2 2 4 (hsends _ (by decide)) rfl (by decide) _ (.start rfl)

end Ofs.Node
