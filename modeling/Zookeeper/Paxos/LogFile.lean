import Mathlib.Data.List.Sort
import Zookeeper.Paxos.DataSet

/-!
# The log files of a server

Proposed bills are saved in files of up to one hundred bills each, named by the
first one's id (`DataSet::SaveLogData`).  A file starts with a header of fixed
size whose slots point at the data, and the header is rewritten for every bill.
`DataSet::Load` takes the newest snapshot it can read and replays the bills of
the files that may lie above it.

The directory and the open file are modelled byte by byte.  File calls behave
as the C library specifies: `fopen` with mode `rb+` opens what exists and
creates nothing, a write behind the end of a file fills the gap with zeros.

Since nothing creates a log file, no bill is ever saved into an empty directory:
`roundTrip_iff` says that a sequence of bills survives only if it is empty.
-/

namespace Paxos

/-! ## The header -/

/-- `SINGLE_LOG_FILE_COUNT`. -/
def singleLogFileCount : Nat := 100

/-- `LogDataFileLogDesc`. -/
structure LogDesc where
  zxId : Int64 := 0
  offset : Int32 := 0
  size : Int32 := 0
deriving DecidableEq, Repr

/-- `LogDataFileHeader`. -/
structure LogHeader where
  start : Int64 := 0
  count : Int32 := 0
  logs : Vector LogDesc singleLogFileCount := Vector.replicate _ {}
deriving DecidableEq

def LogDesc.codec : Codec LogDesc :=
  (Codec.int64.pair (Codec.int32.pair Codec.int32)).map (fun x => ⟨x.1, x.2.1, x.2.2⟩)
    (fun l => (l.zxId, l.offset, l.size)) fun _ => rfl

/-- The packed header: 1612 bytes. -/
def LogHeader.codec : Codec LogHeader :=
  (Codec.int64.pair (Codec.int32.pair (LogDesc.codec.array _))).map
    (fun x => ⟨x.1, x.2.1, x.2.2⟩) (fun h => (h.start, h.count, h.logs)) fun _ => rfl

theorem LogHeader.codec_size : LogHeader.codec.size = 1612 := rfl

/-- Where the data of the slot in front of slot `i` ends.  In front of slot 0 lie
the bytes of `start` and `count`, read as the `offset` and `size` of a slot. -/
def LogHeader.endBefore (h : LogHeader) : Nat → Int32
  | 0 => (h.start >>> 32).toInt32 + h.count
  | i + 1 => (h.logs.getD i {}).offset + (h.logs.getD i {}).size

/-! ## Files -/

/-- The files of a data directory by the number in their name: `<id>.logdata`
and `<id>.snap`. -/
structure Dir where
  logdata : List (Int64 × Bytes) := []
  snap : List (Int64 × Bytes) := []
deriving DecidableEq

/-- The files of the data set: the directory, `_lastLogFile` and its header. -/
structure Disk where
  dir : Dir := {}
  lastLogFile : Option Int64 := none
  header : LogHeader
deriving DecidableEq

/-- `fopen` with mode `rb+`: the contents, if the file exists. -/
def Dir.open_ (dir : Dir) (id : Int64) : Option Bytes := dir.logdata.lookup id

/-- Replace the contents of a file.  A file that is gone from the directory
keeps its writes to itself. -/
def Dir.store (dir : Dir) (id : Int64) (contents : Bytes) : Dir :=
  { dir with
    logdata := dir.logdata.map fun file => if file.1 = id then (id, contents) else file }

def Dir.remove (dir : Dir) (gone : Int64 → Bool) : Dir :=
  { dir with logdata := dir.logdata.filter fun file => !gone file.1 }

/-- The contents after `fwrite` at a position.  A gap reads as zeros. -/
def fwrite (contents : Bytes) (pos : Nat) (buf : Bytes) : Bytes :=
  contents.take pos ++ List.replicate (pos - contents.length) 0 ++ buf ++
    contents.drop (pos + buf.length)

/-- `fseek` and `fread` of one item.  A negative offset is no position, and an
item of no bytes or of more than there are is not read. -/
def fread (contents : Bytes) (offset size : Int32) : Option Bytes :=
  if offset < 0 ∨ size ≤ 0 then none
  else
    let item := (contents.drop offset.toNatClampNeg).take size.toNatClampNeg
    if item.length < size.toNatClampNeg then none else some item

/-! ## Saving -/

namespace Disk

/-- The first lines of `SaveLogData`: a full file is closed. -/
def closeFull (disk : Disk) : Disk :=
  if disk.lastLogFile.isSome ∧ (100 : Int32) ≤ disk.header.count then
    { disk with lastLogFile := none, header := { disk.header with count := 0 } }
  else disk

/-- Without an open file, the bill's own is opened. -/
def openLog (disk : Disk) (zxId : Int64) : Disk × Bool :=
  match disk.lastLogFile with
  | some _ => (disk, true)
  | none =>
      let disk := { disk with header := { disk.header with start := zxId, count := 0 } }
      match disk.dir.open_ zxId with
      | none => (disk, false)
      | some _ => ({ disk with lastLogFile := some zxId }, true)

/-- The next slot, filled for a bill.  `count` is raised before it is compared
with zero, so every slot follows the one in front of it. -/
def fillSlot (h : LogHeader) (bill : Bill) : LogHeader :=
  let idx := h.count.toNatClampNeg
  let h := { h with count := h.count + 1 }
  let size := Int32.ofNat bill.data.length
  let offset := if h.count = 0 then 1612 else h.endBefore idx
  { h with logs := h.logs.setIfInBounds idx ⟨bill.zxId, offset, size⟩ }

/-- The slot `fillSlot` fills. -/
def filled (h : LogHeader) (bill : Bill) : LogDesc :=
  (fillSlot h bill).logs.getD h.count.toNatClampNeg {}

/-- The two writes of `SaveLogData` to the open file.  An empty bill writes
nothing, which `fwrite` reports as a failure.  A seek to a negative offset, which
takes a negative epoch or a file of two gigabytes, is taken to go to the start. -/
def writeBill (disk : Disk) (file : Int64) (bill : Bill) : Disk × Bool :=
  let slot := filled disk.header bill
  let header := fillSlot disk.header bill
  let contents := (disk.dir.open_ file).getD []
  if bill.data = [] then ({ disk with header := header }, false)
  else
    let contents := fwrite contents slot.offset.toNatClampNeg bill.data
    let contents := fwrite contents 0 (LogHeader.codec.encode header)
    ({ disk with header := header, dir := disk.dir.store file contents }, true)

/-- `DataSet::SaveLogData`. -/
def saveLogData (disk : Disk) (bill : Bill) : Disk × Bool :=
  match disk.closeFull.openLog bill.zxId with
  | (disk, false) => (disk, false)
  | (disk, true) => disk.writeBill (disk.lastLogFile.getD bill.zxId) bill

/-! ## Cutting -/

/-- The loop of `DataSet::TruncFile` over the slots of a header: slots above `start` are
cleared, and the others counted. -/
def truncSlots (start : Int64) : List Nat → LogHeader → Int32 → LogHeader × Int32
  | [], h, count => (h, count)
  | i :: is, h, count =>
      let slot := h.logs.getD i {}
      if slot.zxId = 0 then (h, count)
      else if start < slot.zxId then
        truncSlots start is { h with logs := h.logs.setIfInBounds i { slot with zxId := 0 } } count
      else truncSlots start is h (count + 1)

/-- `DataSet::TruncFile`. -/
def truncFile (disk : Disk) (fileId start : Int64) : Disk × Option Thrown :=
  match disk.dir.open_ fileId with
  | none => (disk, some .truncLogFailed)
  | some contents =>
      match LogHeader.codec.read contents with
      | none => (disk, some .truncLogFailed)
      | some (header, _) =>
          let (header, count) :=
            truncSlots start (List.range header.count.toNatClampNeg) header 0
          let header := { header with count := count }
          ({ dir := disk.dir.store fileId (fwrite contents 0 (LogHeader.codec.encode header))
             lastLogFile := some fileId
             header := header }, none)

/-- The end of `DataSet::Snap` and `DataSet::Trunc`: log files above an id are removed,
and the last one left is cut. -/
def cutLogs (disk : Disk) (zxId : Int64) : Disk × Option Thrown :=
  let disk : Disk := { dir := disk.dir.remove fun id => decide (zxId < id), header := {} }
  let biggest := (disk.dir.logdata.map Prod.fst).foldl
    (fun biggest id => if biggest < id then id else biggest) 0
  if biggest = 0 then (disk, none) else disk.truncFile biggest zxId

/-- The files of `DataSet::Snap`. -/
def snapFiles (disk : Disk) (zxId : Int64) : Disk × Option Thrown :=
  { disk with dir := { disk.dir with
    snap := disk.dir.snap.filter fun file => !decide (zxId < file.1) } }.cutLogs zxId

end Disk

/-! ## Loading -/

/-- The bills of the first slots of a header that lie above `zxId`, the id
reached, and whether all of them could be read. -/
def readSlots (contents : Bytes) : List LogDesc → Int64 → List Bill × Int64 × Bool
  | [], zxId => ([], zxId, true)
  | slot :: slots, zxId =>
      if slot.zxId = 0 then ([], zxId, true)
      else if zxId < slot.zxId then
        match fread contents slot.offset slot.size with
        | none => ([], slot.zxId, false)
        | some data =>
            let (bills, last, ok) := readSlots contents slots slot.zxId
            (⟨slot.zxId, data⟩ :: bills, last, ok)
      else readSlots contents slots zxId

variable {σ τ : Type}

/-- A data set with its files. -/
structure Store (σ : Type) where
  dataset : DataSet σ
  disk : Disk

/-- What the application does with a snapshot file: `IStateData::LoadFromFile`. -/
abbrev SnapLoader (σ : Type) := σ → Bytes → Option σ

namespace Store

variable (m : Machine σ τ)

/-- Replay a bill that is read from a log file. -/
def replay (d : DataSet σ) (bill : Bill) : Option (DataSet σ) :=
  (m.applyBill d.stateData bill).map fun s =>
    { d with stateData := s, commitLog := d.commitLog ++ [bill] }

/-- `DataSet::LoadLogData`: the bills of one file, replayed.  `none` is the
exception of a bill that cannot be applied. -/
def loadLogData (s : Store σ) (fileId : Int64) : Option (Store σ × Bool) :=
  match s.disk.dir.open_ fileId with
  | none => some ({ s with disk := { s.disk with lastLogFile := none } }, false)
  | some contents =>
      let disk := { s.disk with lastLogFile := some fileId }
      match LogHeader.codec.read contents with
      | none => some ({ s with disk := disk }, false)
      | some (header, _) =>
          let slots := header.logs.toList.take header.count.toNatClampNeg
          let (bills, last, ok) := readSlots contents slots s.dataset.zxId
          (bills.foldlM (replay m) s.dataset).map fun d =>
            ({ dataset := { d with zxId := last }, disk := { disk with header := header } }, ok)

/-- The loop of `DataSet::Load` over the log files.  From the first that cannot
be read on, they are removed. -/
def loadLogs : List Int64 → Store σ → Option (Store σ)
  | [], s => some s
  | log :: logs, s =>
      match s.loadLogData m log with
      | none => none
      | some (s, true) => loadLogs logs s
      | some (s, false) =>
          some { s with disk := { s.disk with dir := s.disk.dir.remove (log :: logs).contains } }

/-- The loop of `DataSet::Load` over the snapshots, newest first.  A snapshot
that cannot be loaded is removed and tried again, without end. -/
def loadSnap (load : SnapLoader σ) (d : DataSet σ) (dir : Dir) : Option (DataSet σ) :=
  match dir.snap.mergeSort fun a b => b.1 ≤ a.1 with
  | [] => some { d with zxId := d.minZxId }
  | (id, contents) :: _ =>
      (load d.stateData contents).map fun s => { d with stateData := s, minZxId := id, zxId := id }

/-- The log files that may hold bills above the snapshot, oldest first. -/
def wantedLogs (dir : Dir) (zxId : Int64) : List Int64 :=
  ((dir.logdata.map Prod.fst).filter fun id => zxId < id + 100).mergeSort fun a b => a ≤ b

/-- `DataSet::Load`.  `snaperCount` is the number drawn at its end. -/
def load (loader : SnapLoader σ) (s : Store σ) (snaperCount : Nat) : Option (Store σ) :=
  (loadSnap loader s.dataset s.disk.dir).bind fun d =>
    (loadLogs m (wantedLogs s.disk.dir d.zxId) { s with dataset := d }).map fun s =>
      { s with dataset := { s.dataset with snaperCount := snaperCount } }

/-- `DataSet::Propose`, with its file calls. -/
def propose (s : Store σ) (zxId : Int64) (data : Bytes) : Store σ × Bool :=
  let (disk, saved) := s.disk.saveLogData ⟨zxId, data⟩
  let (d, ok) := s.dataset.propose zxId data saved
  (⟨d, disk⟩, ok)

/-- A sequence of proposals, and whether every call returned true. -/
def proposeAll : List Bill → Store σ → Store σ × Bool
  | [], s => (s, true)
  | bill :: bills, s =>
      let (s, ok) := s.propose bill.zxId bill.data
      let (s, oks) := proposeAll bills s
      (s, ok && oks)

/-! ## The round trip -/

/-- A data set as constructed, over a directory.  Its header is whatever was in
memory. -/
def fresh (init : σ) (header : LogHeader) (dir : Dir) : Store σ :=
  ⟨{ stateData := init }, { dir := dir, header := header }⟩

/-- Every proposal made after the first `Load` returns true, and another data
set that loads the directory replays them. -/
def RoundTrip (loader : SnapLoader σ) (init : σ) (h h' : LogHeader) (count count' : Nat)
    (bills : List Bill) : Prop :=
  ∃ s, (fresh init h {}).load m loader count = some s ∧ (proposeAll bills s).2 = true ∧
    ∃ s', (fresh init h' (proposeAll bills s).1.disk.dir).load m loader count' = some s' ∧
      s'.dataset.commitLog = bills

variable {m}

/-- There is nothing to load in an empty directory. -/
theorem load_empty (loader : SnapLoader σ) (init : σ) (h : LogHeader) (count : Nat) :
    (fresh init h {}).load m loader count =
      some ⟨{ stateData := init, snaperCount := count }, { header := h }⟩ := by
  simp [load, loadSnap, wantedLogs, fresh, loadLogs]

/-- Without an open file and without a file of its own, no bill is saved. -/
theorem propose_closed (s : Store σ) (zxId : Int64) (data : Bytes)
    (hclosed : s.disk.lastLogFile = none) (hmissing : s.disk.dir.open_ zxId = none) :
    (s.propose zxId data).2 = false := by
  have hfull : s.disk.closeFull = s.disk := by
    simp [Disk.closeFull, hclosed]
  simp [propose, DataSet.propose, Disk.saveLogData, hfull, Disk.openLog, hclosed, hmissing]

/-- A sequence that starts with a bill is refused from the start. -/
theorem proposeAll_empty {s : Store σ} {bill : Bill} {bills : List Bill}
    (hclosed : s.disk.lastLogFile = none) (hdir : s.disk.dir = {}) :
    (proposeAll (bill :: bills) s).2 = false := by
  have hfirst := propose_closed s bill.zxId bill.data hclosed (by rw [hdir]; rfl)
  simp [proposeAll, hfirst]

/-- Only the empty sequence survives. -/
theorem roundTrip_iff (m : Machine σ τ) (loader : SnapLoader σ) (init : σ) (h h' : LogHeader)
    (count count' : Nat) (bills : List Bill) :
    RoundTrip m loader init h h' count count' bills ↔ bills = [] := by
  constructor
  · rintro ⟨s, hs, hok, _⟩
    rw [load_empty, Option.some.injEq] at hs
    subst hs
    cases bills with
    | nil => rfl
    | cons bill bills =>
        rw [proposeAll_empty rfl rfl] at hok
        cases hok
  · rintro rfl
    exact ⟨_, load_empty loader init h count, rfl, _, load_empty loader init h' count', rfl⟩

/-- A machine whose state is all the data it was given: one bill is refused. -/
theorem first_bill_lost :
    ¬ ∀ bills : List Bill, bills.Pairwise (fun a b => a.zxId < b.zxId) →
      (∀ bill ∈ bills, bill.data ≠ []) →
      RoundTrip Machine.tape (fun _ data => some data) [] {} {} 100000 100000 bills := by
  intro hall
  obtain ⟨s, hs, hok, _⟩ := hall [⟨zxIdOf 1 1, [1]⟩] (by simp) (by simp)
  rw [load_empty, Option.some.injEq] at hs
  subst hs
  rw [proposeAll_empty rfl rfl] at hok
  cases hok

end Store

end Paxos
