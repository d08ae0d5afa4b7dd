import Zookeeper.Paxos.LogReading

/-!
# A proposal that is refused

`DataSet::SaveLogData` takes the next slot of the header in memory before it writes the
data and the header.  When a write fails, `DataSet::Propose` drops the bill and returns
false, but the slot stays taken, and the next proposal that succeeds writes it to the
file (`paxos/transaction/dataset.cpp`).

Here the file calls may fail, a write after any number of bytes.  `no_trace_iff` says
when a refused proposal leaves no trace, and `refused_slot_saved` is the trace.
-/

namespace Paxos

/-! ## File calls that fail -/

/-- How the file calls of `SaveLogData` end. -/
structure SaveIo where
  /-- A log file that exists can be opened. -/
  fopen : Bool := true
  /-- The write of the data fails, after so many bytes. -/
  data : Option Nat := none
  /-- The write of the header fails, after so many bytes. -/
  header : Option Nat := none

/-- The contents after an `fwrite` that fails after `n` bytes. -/
def fwritePart (contents : Bytes) (pos : Nat) (buf : Bytes) (n : Nat) : Bytes :=
  if n = 0 then contents else fwrite contents pos (buf.take n)

namespace Disk

/-- `openLog`, where `fopen` may fail. -/
def openLogIo (disk : Disk) (io : SaveIo) (zxId : Int64) : Disk × Bool :=
  match disk.lastLogFile with
  | some _ => (disk, true)
  | none =>
      let disk := { disk with header := { disk.header with start := zxId, count := 0 } }
      match if io.fopen then disk.dir.open_ zxId else none with
      | none => (disk, false)
      | some _ => ({ disk with lastLogFile := some zxId }, true)

/-- `writeBill`, where each write may fail. -/
def writeBillIo (disk : Disk) (io : SaveIo) (file : Int64) (bill : Bill) : Disk × Bool :=
  let slot := filled disk.header bill
  let header := fillSlot disk.header bill
  let contents := (disk.dir.open_ file).getD []
  if bill.data = [] then ({ disk with header := header }, false)
  else
    let pos := slot.offset.toNatClampNeg
    match io.data with
    | some n =>
        ({ disk with
            header := header
            dir := disk.dir.store file (fwritePart contents pos bill.data n) }, false)
    | none =>
        let contents := fwrite contents pos bill.data
        let bytes := LogHeader.codec.encode header
        match io.header with
        | some n =>
            ({ disk with
                header := header
                dir := disk.dir.store file (fwritePart contents 0 bytes n) }, false)
        | none =>
            ({ disk with header := header, dir := disk.dir.store file (fwrite contents 0 bytes) },
              true)

/-- `DataSet::SaveLogData`, with the ends of its file calls. -/
def saveLogDataIo (disk : Disk) (io : SaveIo) (bill : Bill) : Disk × Bool :=
  match disk.closeFull.openLogIo io bill.zxId with
  | (disk, false) => (disk, false)
  | (disk, true) => disk.writeBillIo io (disk.lastLogFile.getD bill.zxId) bill

/-- Where no call fails, this is `saveLogData`. -/
theorem saveLogDataIo_ok (disk : Disk) (bill : Bill) :
    disk.saveLogDataIo {} bill = disk.saveLogData bill :=
  rfl

/-- A log file is open, or can be opened, for a bill. -/
def Opens (disk : Disk) (io : SaveIo) (zxId : Int64) : Prop :=
  disk.lastLogFile.isSome = true ∧ disk.header.count < 100 ∨
    io.fopen = true ∧ (disk.dir.open_ zxId).isSome = true

instance (disk : Disk) (io : SaveIo) (zxId : Int64) : Decidable (disk.Opens io zxId) := by
  unfold Opens
  infer_instance

variable {disk disk' : Disk} {io : SaveIo} {zxId : Int64} {bill : Bill}

/-- What is open behind the first lines of `SaveLogData`. -/
theorem open_cases (disk : Disk) (io : SaveIo) (zxId : Int64) :
    (∃ file, disk.lastLogFile = some file ∧ disk.header.count < 100 ∧
        disk.closeFull.openLogIo io zxId = (disk, true)) ∨
      ((disk.lastLogFile = none ∨ ¬ disk.header.count < 100) ∧
        disk.closeFull.openLogIo io zxId =
          if disk.Opens io zxId then
            (⟨disk.dir, some zxId, { disk.header with start := zxId, count := 0 }⟩, true)
          else (⟨disk.dir, none, { disk.header with start := zxId, count := 0 }⟩, false)) := by
  have hopen : ∀ header, openLogIo ⟨disk.dir, none, header⟩ io zxId =
      if io.fopen = true ∧ (disk.dir.open_ zxId).isSome = true then
        (⟨disk.dir, some zxId, { header with start := zxId, count := 0 }⟩, true)
      else (⟨disk.dir, none, { header with start := zxId, count := 0 }⟩, false) := by
    intro header
    cases hfopen : io.fopen <;> cases hfile : disk.dir.open_ zxId <;>
      simp [openLogIo, hfopen, hfile]
  cases hfile : disk.lastLogFile with
  | none =>
      have hclosed : disk.closeFull = ⟨disk.dir, none, disk.header⟩ := by
        rw [closeFull, hfile, if_neg (by simp), ← hfile]
      have hopens : disk.Opens io zxId ↔
          io.fopen = true ∧ (disk.dir.open_ zxId).isSome = true := by
        simp [Opens, hfile]
      refine .inr ⟨.inl rfl, ?_⟩
      rw [hclosed, hopen]
      exact if_congr hopens.symm rfl rfl
  | some file =>
      by_cases hroom : disk.header.count < 100
      · have hkept : disk.closeFull = disk := by
          rw [closeFull, if_neg fun hfull => Int32.not_le.mpr hroom hfull.2]
        refine .inl ⟨file, rfl, hroom, ?_⟩
        rw [hkept, openLogIo, hfile]
      · have hclosed : disk.closeFull =
            ⟨disk.dir, none, { disk.header with count := 0 }⟩ := by
          rw [closeFull, if_pos ⟨by rw [hfile]; rfl, Int32.not_lt.mp hroom⟩]
        have hopens : disk.Opens io zxId ↔
            io.fopen = true ∧ (disk.dir.open_ zxId).isSome = true := by
          simp [Opens, hroom]
        refine .inr ⟨.inr hroom, ?_⟩
        rw [hclosed, hopen]
        exact if_congr hopens.symm rfl rfl

/-- The slot is taken in any case, and it is written if no call fails. -/
theorem writeBillIo_end (disk : Disk) (io : SaveIo) (file : Int64) (bill : Bill) :
    (disk.writeBillIo io file bill).1.header = fillSlot disk.header bill ∧
      (disk.writeBillIo io file bill).1.lastLogFile = disk.lastLogFile ∧
      ((disk.writeBillIo io file bill).2 = true ↔
        bill.data ≠ [] ∧ io.data = none ∧ io.header = none) := by
  rw [writeBillIo]
  dsimp only
  split
  next hnil => simp [hnil]
  next hne =>
    cases io.data with
    | some n => simp
    | none => cases io.header <;> simp [hne]

/-- No write removes the file. -/
theorem writeBillIo_open (io : SaveIo) {file : Int64} {old : Bytes}
    (hopen : disk.dir.open_ file = some old) (bill : Bill) :
    ∃ contents, (disk.writeBillIo io file bill).1.dir.open_ file = some contents := by
  have hstore : ∀ new, (disk.dir.store file new).open_ file = some new := by
    intro new
    rw [Dir.open_store, if_pos rfl, hopen, Option.map_some]
  rw [writeBillIo]
  dsimp only
  split
  next => exact ⟨old, hopen⟩
  next =>
    cases io.data with
    | some n => exact ⟨_, hstore _⟩
    | none => cases io.header <;> exact ⟨_, hstore _⟩

/-- With an open file that has room nothing is opened. -/
theorem saveLogDataIo_of_room {file : Int64} (hfile : disk.lastLogFile = some file)
    (hroom : disk.header.count < 100) (io : SaveIo) (bill : Bill) :
    disk.saveLogDataIo io bill = disk.writeBillIo io file bill := by
  rcases disk.open_cases io bill.zxId with ⟨_, _, _, heq⟩ | ⟨hnew, _⟩
  · rw [saveLogDataIo, heq]
    dsimp only
    rw [hfile, Option.getD_some]
  · rcases hnew with hnone | hfull
    · rw [hfile] at hnone
      cases hnone
    · exact absurd hroom hfull

theorem ofNat_room {n : Nat} (hn : n < 100) :
    Int32.ofNat n < 100 ∧ (Int32.ofNat n).toNatClampNeg = n := by
  have hhundred : (100 : Int32).toInt = 100 := rfl
  refine ⟨?_, Int32.toNatClampNeg_ofNat_of_lt (by omega)⟩
  rw [Int32.lt_iff_toInt_lt, Int32.toInt_ofNat_of_lt (by omega), hhundred]
  omega

/-- The slot behind the counted ones is filled, and the others stay. -/
theorem getD_fillSlot (h : LogHeader) (bill : Bill) {n : Nat} (hcount : h.count = Int32.ofNat n)
    (hn : n < 100) :
    ((fillSlot h bill).logs.getD n {}).zxId = bill.zxId ∧
      ∀ j, j ≠ n → (fillSlot h bill).logs.getD j {} = h.logs.getD j {} := by
  have hidx : h.count.toNatClampNeg = n := hcount ▸ (ofNat_room hn).2
  rw [fillSlot]
  dsimp only
  rw [hidx]
  refine ⟨?_, fun j hj => ?_⟩
  · rw [getD_setIfInBounds, if_pos ⟨rfl, hn⟩]
  · rw [getD_setIfInBounds, if_neg fun heq => hj heq.1]

/-- A bill that is saved to the open file: its header is the one in memory. -/
theorem saveLogData_written {file : Int64} {old : Bytes} {bill : Bill}
    (hfile : disk.lastLogFile = some file) (hopen : disk.dir.open_ file = some old)
    (hroom : disk.header.count < 100) (hne : bill.data ≠ []) :
    ∃ disk' contents rest, disk.saveLogData bill = (disk', true) ∧
      disk'.dir.open_ file = some contents ∧
      LogHeader.codec.read contents = some (fillSlot disk.header bill, rest) := by
  obtain ⟨rest, hread⟩ := FileHolds.read_fwrite
    (fwrite old (filled disk.header bill).offset.toNatClampNeg bill.data)
    (fillSlot disk.header bill)
  refine ⟨⟨disk.dir.store file (fwrite (fwrite old
    (filled disk.header bill).offset.toNatClampNeg bill.data) 0
    (LogHeader.codec.encode (fillSlot disk.header bill))), some file, fillSlot disk.header bill⟩,
    _, rest, ?_, ?_, hread⟩
  · simp [saveLogData, closeFull, openLog, writeBill, hfile, Int32.not_le.mpr hroom, hne, hopen]
  · rw [Dir.open_store, if_pos rfl, hopen, Option.map_some]

/-- However its writes end, a bill keeps its slot, and the next one that is saved writes it
to the file. -/
theorem refused_slot_saved {file : Int64} {old : Bytes} {later : Bill} {k : Nat}
    (hfile : disk.lastLogFile = some file) (hopen : disk.dir.open_ file = some old)
    (hcount : disk.header.count = Int32.ofNat k) (hk : k + 1 < 100) (hne : later.data ≠ []) :
    ∃ disk' contents header rest,
      (disk.saveLogDataIo io bill).1.saveLogData later = (disk', true) ∧
      disk'.dir.open_ file = some contents ∧
      LogHeader.codec.read contents = some (header, rest) ∧
      header.count = Int32.ofNat (k + 2) ∧
      (header.logs.getD k {}).zxId = bill.zxId ∧
      (header.logs.getD (k + 1) {}).zxId = later.zxId := by
  have hlt : k < 100 := by omega
  have hroom : disk.header.count < 100 := hcount ▸ (ofNat_room hlt).1
  obtain ⟨hheader, hlast, -⟩ := disk.writeBillIo_end io file bill
  obtain ⟨contents, hcontents⟩ := writeBillIo_open io hopen bill
  rw [saveLogDataIo_of_room hfile hroom]
  generalize (disk.writeBillIo io file bill).1 = disk₁ at hheader hlast hcontents
  have hcount₁ : disk₁.header.count = Int32.ofNat (k + 1) := hheader ▸ (count_succ hcount hlt).1
  obtain ⟨disk', contents', rest, hsaved, hopen', hread⟩ := saveLogData_written
    (hlast.trans hfile) hcontents (hcount₁ ▸ (ofNat_room hk).1) hne
  obtain ⟨hlater, hkept⟩ := getD_fillSlot disk₁.header later hcount₁ hk
  refine ⟨disk', contents', _, rest, hsaved, hopen', hread, (count_succ hcount₁ hk).1, ?_, hlater⟩
  rw [hkept k (by omega), hheader]
  exact (getD_fillSlot disk.header bill hcount hlt).1

end Disk

/-! ## The trace -/

namespace Store

variable {σ : Type}

/-- `DataSet::Propose`, with the ends of its file calls. -/
def proposeIo (s : Store σ) (io : SaveIo) (zxId : Int64) (data : Bytes) : Store σ × Bool :=
  let (disk, saved) := s.disk.saveLogDataIo io ⟨zxId, data⟩
  let (d, ok) := s.dataset.propose zxId data saved
  (⟨d, disk⟩, ok)

/-- The queue and the header of the log file are as before, and after any later proposals
that succeed, a new data set reads what it would read without the call. -/
structure NoTrace (s s' : Store σ) : Prop where
  uncommit : s'.dataset.uncommit = s.dataset.uncommit
  file : s'.disk.lastLogFile = s.disk.lastLogFile
  count : s'.disk.header.count = s.disk.header.count
  logs : s'.disk.header.logs = s.disk.header.logs
  reading : ∀ bills s₁, proposeAll bills s' = (s₁, true) →
    ∃ s₂, proposeAll bills s = (s₂, true) ∧ s₁.disk.dir.reading = s₂.disk.dir.reading

/-- A call that returns false leaves no trace. -/
def RefusedCleanly (s : Store σ) (io : SaveIo) (zxId : Int64) (data : Bytes) : Prop :=
  (s.proposeIo io zxId data).2 = false → s.NoTrace (s.proposeIo io zxId data).1

theorem proposeIo_eq (s : Store σ) (io : SaveIo) (zxId : Int64) (data : Bytes) :
    (s.proposeIo io zxId data).1.disk = (s.disk.saveLogDataIo io ⟨zxId, data⟩).1 ∧
      (s.proposeIo io zxId data).2 = (s.disk.saveLogDataIo io ⟨zxId, data⟩).2 ∧
      ((s.proposeIo io zxId data).2 = false →
        (s.proposeIo io zxId data).1.dataset = s.dataset) := by
  rw [proposeIo]
  rcases s.disk.saveLogDataIo io ⟨zxId, data⟩ with ⟨disk, saved⟩
  cases saved with
  | false => exact ⟨rfl, rfl, fun _ => rfl⟩
  | true => exact ⟨rfl, rfl, nofun⟩

/-- Without an open file, a proposal does not look at the first number of the header. -/
theorem proposeAll_start (bills : List Bill) {s : Store σ} (hclosed : s.disk.lastLogFile = none)
    (start : Int64) {s₁ : Store σ}
    (h : proposeAll bills { s with disk := { s.disk with header :=
      { s.disk.header with start := start } } } = (s₁, true)) :
    ∃ s₂, proposeAll bills s = (s₂, true) ∧ s₁.disk.dir = s₂.disk.dir := by
  cases bills with
  | nil =>
      cases h
      exact ⟨s, rfl, rfl⟩
  | cons bill bills =>
      have hsame : { s with disk := { s.disk with header :=
          { s.disk.header with start := start } } }.propose bill.zxId bill.data =
          s.propose bill.zxId bill.data := by
        simp [propose, Disk.saveLogData, Disk.closeFull, Disk.openLog, hclosed]
      rw [proposeAll, hsame] at h
      exact ⟨s₁, h, rfl⟩

/-- Where the call leaves a trace in any case, it must not return false. -/
theorem refusedCleanly_iff_of_trace {s : Store σ} {io : SaveIo} {zxId : Int64} {data : Bytes}
    (h : ¬ s.NoTrace (s.proposeIo io zxId data).1) :
    s.RefusedCleanly io zxId data ↔ (s.proposeIo io zxId data).2 = true := by
  rw [RefusedCleanly, ← Bool.not_eq_false]
  exact ⟨fun hclean hfalse => h (hclean hfalse), fun htrue hfalse => absurd hfalse htrue⟩

/-- Where nothing could be opened and no slot was taken, only the first number of the header
has changed. -/
theorem noTrace_start {s : Store σ} (hclosed : s.disk.lastLogFile = none) (start : Int64) :
    s.NoTrace { s with disk := { s.disk with header :=
      { s.disk.header with start := start } } } := by
  refine ⟨rfl, rfl, rfl, rfl, fun bills s₁ h => ?_⟩
  obtain ⟨s₂, h₂, hdir⟩ := proposeAll_start bills hclosed start h
  exact ⟨s₂, h₂, congrArg Dir.reading hdir⟩

/-- A call leaves no trace if and only if nothing fails, or the log file cannot be opened
and no slot was taken. -/
theorem no_trace_iff (s : Store σ) (io : SaveIo) (zxId : Int64) (data : Bytes) :
    s.RefusedCleanly io zxId data ↔
      if s.disk.Opens io zxId then data ≠ [] ∧ io.data = none ∧ io.header = none
      else s.disk.header.count = 0 := by
  obtain ⟨hdisk, hok, hdata⟩ := s.proposeIo_eq io zxId data
  have hend := fun disk : Disk =>
    disk.writeBillIo_end io (disk.lastLogFile.getD zxId) ⟨zxId, data⟩
  rw [Disk.saveLogDataIo] at hdisk hok
  rcases s.disk.open_cases io zxId with ⟨file, hfile, hroom, heq⟩ | ⟨hnew, heq⟩
  · -- the open file: one more slot is counted
    have hopens : s.disk.Opens io zxId := .inl ⟨by rw [hfile]; rfl, hroom⟩
    obtain ⟨hheader, -, hsaved⟩ := hend s.disk
    rw [heq] at hdisk hok
    dsimp only at hdisk hok
    rw [if_pos hopens, ← hsaved, ← hok]
    refine refusedCleanly_iff_of_trace fun h => ?_
    have hcount := h.count
    rw [hdisk, hheader] at hcount
    have hsucc : s.disk.header.count + 1 = s.disk.header.count := hcount
    exact absurd hsucc (by simp)
  · split at heq
    next hopens =>
      -- a new file: it is open now, and one slot is counted
      obtain ⟨hheader, hlast, hsaved⟩ :=
        hend ⟨s.disk.dir, some zxId, { s.disk.header with start := zxId, count := 0 }⟩
      rw [heq] at hdisk hok
      dsimp only at hdisk hok
      rw [if_pos hopens, ← hsaved, ← hok]
      refine refusedCleanly_iff_of_trace fun h => ?_
      have hfile := h.file
      have hcount := h.count
      rw [hdisk, hlast] at hfile
      rw [hdisk, hheader] at hcount
      rcases hnew with hnone | hfull
      · rw [hnone] at hfile
        cases hfile
      · have hone : (1 : Int32) = s.disk.header.count := hcount
        exact hfull (hone ▸ by decide)
    next hopens =>
      -- no file: the count is zero behind the call
      rw [heq] at hdisk hok
      rw [if_neg hopens]
      constructor
      · intro h
        have hcount := (h hok).count
        rw [hdisk] at hcount
        exact hcount.symm
      · intro hzero _
        have hclosed : s.disk.lastLogFile = none := by
          refine hnew.resolve_right fun hfull => hfull ?_
          rw [hzero]
          decide
        have hstore : (s.proposeIo io zxId data).1 = { s with disk := { s.disk with header :=
            { s.disk.header with start := zxId } } } := by
          have hdata := hdata hok
          generalize (s.proposeIo io zxId data).1 = s' at hdisk hdata
          obtain ⟨d, disk⟩ := s'
          dsimp only at hdisk hdata
          rw [hdisk, hdata]
          change _ = Store.mk s.dataset
            ⟨s.disk.dir, s.disk.lastLogFile, zxId, s.disk.header.count, s.disk.header.logs⟩
          rw [hclosed, hzero]
        rw [hstore]
        exact noTrace_start hclosed zxId

/-- A log file with one bill is open, and the header of the next bill cannot be written. -/
theorem refused_slot_stays : ¬ ∀ (s : Store Unit) (io : SaveIo) (zxId : Int64) (data : Bytes),
    s.RefusedCleanly io zxId data := by
  intro hall
  have h := hall ⟨{ stateData := () }, .one ⟨zxIdOf 1 1, [65]⟩ [], some (zxIdOf 1 1),
    FileHolds.oneHeader ⟨zxIdOf 1 1, [65]⟩⟩ { header := some 0 } (zxIdOf 1 2) [66]
  rw [no_trace_iff, if_pos (.inl (by decide))] at h
  cases h.2.2

end Store

end Paxos
