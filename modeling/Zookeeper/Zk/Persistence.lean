import Zookeeper.Paxos.DamagedLog

/-!
# What the log functions report

The zookeeper module has a data set of its own, much like `paxos::DataSet`
(`zookeeper/transaction/dataset.cpp`).  It checks most of its file calls by
`!fread(..) < 1`, which C reads as `(!fread(..)) < 1`: the branch for a failure is the one
that is taken when the call succeeds.

How each file call ends is an argument here, and a function also gives the calls it has
made.  `truthful_iff` says when what it reports is true.
-/

namespace Zk

open Paxos (Bill LogDesc dueSlots singleLogFileCount)

/-! ## The data set -/

/-- `LogDataFileHeader`, whose count has 64 bits. -/
structure LogHeader where
  start : Int64 := 0
  count : Int64 := 0
  logs : Vector LogDesc singleLogFileCount := Vector.replicate _ {}

/-- `DataSet`, as far as the log functions use it. -/
structure DataSet (σ : Type) where
  stateData : σ
  zxId : Int64 := 0
  commitLog : List Bill := []
  uncommit : List Bill := []
  /-- `_lastLogFile` is not null. -/
  lastLogFile : Bool := false
  header : LogHeader := {}

/-- A file call. -/
inductive FileCall where
  | fopen
  | readHeader
  | readEntry
  | writeEntry
  | writeHeader
deriving DecidableEq, Repr

/-- The file calls made, and whether they succeeded. -/
abbrev Calls := List (FileCall × Bool)

/-- `!n` in C. -/
def cNot (n : Nat) : Nat := if n = 0 then 1 else 0

@[simp] theorem cNot_zero : cNot 0 = 1 := rfl

@[simp] theorem cNot_one : cNot 1 = 0 := rfl

/-- The slots in front of the first empty one. -/
def LogHeader.used (h : LogHeader) : List LogDesc :=
  (h.logs.toList.take h.count.toNatClampNeg).takeWhile fun slot => slot.zxId ≠ 0

/-- Where the data of the slot in front of slot `i` ends.  In front of slot 0 lie the bytes
of `count`. -/
def LogHeader.endBefore (h : LogHeader) : Nat → Int32
  | 0 => h.count.toInt32 + (h.count >>> 32).toInt32
  | i + 1 => (h.logs.getD i {}).offset + (h.logs.getD i {}).size

/-- The next slot, filled for a bill. -/
def LogHeader.fillSlot (h : LogHeader) (bill : Bill) : LogHeader :=
  let idx := h.count.toNatClampNeg
  let h := { h with count := h.count + 1 }
  let offset := if h.count = 0 then 1616 else h.endBefore idx
  { h with
    logs := h.logs.setIfInBounds idx ⟨bill.zxId, offset, Int32.ofNat bill.data.length⟩ }

namespace DataSet

variable {σ : Type}

/-! ## Saving -/

/-- How the file calls of `SaveLogData` end, those that are made. -/
structure SaveIo where
  fopen : Bool
  data : Bool
  header : Bool

/-- The first lines of `SaveLogData`: a full file is closed, and without an open file, the
bill's own is opened. -/
def openLog (d : DataSet σ) (io : SaveIo) (zxId : Int64) : DataSet σ × Bool × Calls :=
  let d :=
    if d.lastLogFile ∧ 100 ≤ d.header.count then
      { d with lastLogFile := false, header := { d.header with count := 0 } }
    else d
  if d.lastLogFile then (d, true, [])
  else
    ({ d with
        lastLogFile := io.fopen
        header := { d.header with start := zxId, count := 0 } }, io.fopen, [(.fopen, io.fopen)])

/-- `DataSet::SaveLogData`.  An empty bill writes nothing, which `fwrite` reports as a
failure. -/
def saveLogData (d : DataSet σ) (io : SaveIo) (bill : Bill) : DataSet σ × Bool × Calls :=
  match d.openLog io bill.zxId with
  | (d, false, calls) => (d, false, calls)
  | (d, true, calls) =>
      let d := { d with header := d.header.fillSlot bill }
      let written := io.data && !bill.data.isEmpty
      if written.toNat = 0 then (d, false, calls ++ [(.writeEntry, false)])
      else if cNot io.header.toNat < 1 then
        (d, false, calls ++ [(.writeEntry, true), (.writeHeader, io.header)])
      else (d, true, calls ++ [(.writeEntry, true), (.writeHeader, io.header)])

/-- `DataSet::Propose`. -/
def propose (d : DataSet σ) (io : SaveIo) (zxId : Int64) (data : Bytes) :
    DataSet σ × Bool × Calls :=
  match saveLogData { d with uncommit := d.uncommit ++ [⟨zxId, data⟩] } io ⟨zxId, data⟩ with
  | (d, false, calls) => ({ d with uncommit := d.uncommit.dropLast }, false, calls)
  | (d, true, calls) => (d, true, calls)

/-! ## Loading -/

/-- How the file calls of `LoadLogData` end. -/
structure LoadIo where
  fopen : Bool
  read : Bool
  /-- What is in memory behind the `fread` of the header, whether it succeeds or not. -/
  header : LogHeader
  /-- What `fseek` and `fread` give for a slot. -/
  entry : LogDesc → Option Bytes

/-- The loop of `LoadLogData`. -/
def replaySlots (apply : σ → Bytes → σ) (entry : LogDesc → Option Bytes) :
    List LogDesc → DataSet σ → DataSet σ × Bool × Calls
  | [], d => (d, true, [])
  | slot :: slots, d =>
      if slot.zxId = 0 then (d, true, [])
      else if d.zxId < slot.zxId then
        let d := { d with zxId := slot.zxId }
        match entry slot with
        | none => (d, false, [(.readEntry, false)])
        | some data =>
            let (d, ok, calls) := replaySlots apply entry slots { d with
              commitLog := d.commitLog ++ [⟨slot.zxId, data⟩]
              stateData := apply d.stateData data }
            (d, ok, (.readEntry, true) :: calls)
      else replaySlots apply entry slots d

/-- `DataSet::LoadLogData`. -/
def loadLogData (apply : σ → Bytes → σ) (d : DataSet σ) (io : LoadIo) :
    DataSet σ × Bool × Calls :=
  let d := { d with lastLogFile := io.fopen }
  if !io.fopen then (d, false, [(.fopen, false)])
  else
    let d := { d with header := io.header }
    let calls := [(.fopen, true), (.readHeader, io.read)]
    if cNot io.read.toNat < 1 then (d, false, calls)
    else
      let (d, ok, more) := replaySlots apply io.entry
        (d.header.logs.toList.take d.header.count.toNatClampNeg) d
      (d, ok, calls ++ more)

/-! ## Cutting -/

/-- How the file calls of `TruncFile` end. -/
structure TruncIo where
  fopen : Bool
  read : Bool
  /-- What is in memory behind the `fread` of the header. -/
  header : LogHeader
  write : Bool

/-- The loop of `TruncFile`: slots above `start` are cleared, and the others counted. -/
def truncSlots (start : Int64) : List Nat → LogHeader → Int32 → LogHeader × Int32
  | [], h, count => (h, count)
  | i :: is, h, count =>
      let slot := h.logs.getD i {}
      if slot.zxId = 0 then (h, count)
      else if start < slot.zxId then
        truncSlots start is { h with logs := h.logs.setIfInBounds i { slot with zxId := 0 } } count
      else truncSlots start is h (count + 1)

/-- `DataSet::TruncFile`, and whether it throws. -/
def truncFile (d : DataSet σ) (io : TruncIo) (start : Int64) : DataSet σ × Bool × Calls :=
  let d := { d with lastLogFile := io.fopen }
  if !io.fopen then (d, true, [(.fopen, false)])
  else
    let calls := [(.fopen, true), (.readHeader, io.read)]
    if cNot io.read.toNat < 1 then
      ({ d with lastLogFile := false, header := io.header }, true, calls)
    else
      let (header, count) :=
        truncSlots start (List.range io.header.count.toNatClampNeg) io.header 0
      ({ d with header := { header with count := count.toInt64 } },
        decide (cNot io.write.toNat < 1), calls ++ [(.writeHeader, io.write)])

/-! ## What they report -/

/-- A call of a log function. -/
inductive LogCall where
  | propose (io : SaveIo) (zxId : Int64) (data : Bytes)
  | loadLogData (io : LoadIo)
  | truncFile (io : TruncIo) (start : Int64)

/-- `Propose` returns true if the entry and the header were written, and then the entry is in
the queue.  `LoadLogData` returns true if the header was read, and each entry above the id
was read and logged.  `TruncFile` throws only if a call has failed. -/
def Truthful (apply : σ → Bytes → σ) (d : DataSet σ) : LogCall → Prop
  | .propose io zxId data =>
      let (d', ok, calls) := d.propose io zxId data
      (ok = true ↔ (.writeEntry, true) ∈ calls ∧ (.writeHeader, true) ∈ calls) ∧
        (ok = true ↔ d'.uncommit = d.uncommit ++ [⟨zxId, data⟩])
  | .loadLogData io =>
      let (d', ok, calls) := d.loadLogData apply io
      ok = true ↔ (.readHeader, true) ∈ calls ∧
        d'.commitLog.map Bill.zxId =
          d.commitLog.map Bill.zxId ++ (dueSlots d'.header.used d.zxId).map LogDesc.zxId
  | .truncFile io start =>
      let (_, threw, calls) := d.truncFile io start
      threw = true → ∃ call, (call, false) ∈ calls

/-- The log file is open and has room, or can be opened. -/
def Opens (d : DataSet σ) (io : SaveIo) : Prop :=
  d.lastLogFile = true ∧ d.header.count < 100 ∨ io.fopen = true

/-- No call succeeds whose success is taken for a failure, or it does not show. -/
def Sound (d : DataSet σ) : LogCall → Prop
  | .propose io _ data => d.Opens io → io.data = true → data = []
  | .loadLogData io =>
      io.fopen = true →
        if io.read = true then dueSlots io.header.used d.zxId ≠ []
        else ∃ slot ∈ dueSlots io.header.used d.zxId, io.entry slot = none
  | .truncFile io _ => io.fopen = true → io.read = false

variable {d : DataSet σ} {apply : σ → Bytes → σ}

theorem openLog_opens (d : DataSet σ) (io : SaveIo) (zxId : Int64) :
    ((d.openLog io zxId).2.1 = true ↔ d.Opens io) ∧
      (d.openLog io zxId).1.uncommit = d.uncommit ∧
      ∀ call ∈ (d.openLog io zxId).2.2, call.1 = .fopen := by
  by_cases hfull : d.lastLogFile = true ∧ 100 ≤ d.header.count
  · have hlong : ¬ d.header.count < 100 := Int64.not_lt.mpr hfull.2
    simp [openLog, Opens, hfull, hlong]
  · cases hopen : d.lastLogFile with
    | false => simp [openLog, Opens, hopen]
    | true =>
        have hroom : d.header.count < 100 := Int64.not_le.mp fun hlong => hfull ⟨hopen, hlong⟩
        simp [openLog, Opens, hopen, hroom, Int64.not_le.mpr hroom]

/-- `Propose` is truthful where no data is written: the header is not written then, either. -/
theorem propose_truthful (io : SaveIo) (zxId : Int64) (data : Bytes) :
    d.Truthful apply (.propose io zxId data) ↔ d.Sound (.propose io zxId data) := by
  obtain ⟨hopens, hqueue, hcalls⟩ :=
    openLog_opens { d with uncommit := d.uncommit ++ [⟨zxId, data⟩] } io zxId
  have hmissing : ∀ call ok, call ≠ .fopen → (call, ok) ∉
      (openLog { d with uncommit := d.uncommit ++ [⟨zxId, data⟩] } io zxId).2.2 :=
    fun call ok hne hmem => hne (hcalls _ hmem)
  change _ ↔ d.Opens io at hopens
  rw [Truthful, Sound, propose, saveLogData]
  generalize openLog { d with uncommit := d.uncommit ++ [⟨zxId, data⟩] } io zxId = opening
    at hopens hqueue hmissing ⊢
  obtain ⟨d₁, opened, calls⟩ := opening
  dsimp only at hopens hqueue hmissing ⊢
  cases opened with
  | false =>
      have hclosed : ¬ d.Opens io := fun hopen => by cases hopens.mpr hopen
      simp [hclosed, hqueue, hmissing]
  | true =>
      have hopen : d.Opens io := hopens.mp rfl
      cases hwritten : io.data && !data.isEmpty with
      | false =>
          have hempty : io.data = true → data = [] := by
            intro htrue
            simpa [htrue] using hwritten
          refine iff_of_true ?_ fun _ => hempty
          simp [hqueue, hmissing]
      | true =>
          rw [Bool.and_eq_true, Bool.not_eq_true', List.isEmpty_eq_false_iff] at hwritten
          cases hheader : io.header <;> simp [hopen, hwritten, hmissing]

/-- The loop is read to its end if every entry above the id can be read. -/
theorem replaySlots_whole (apply : σ → Bytes → σ) (entry : LogDesc → Option Bytes)
    (slots : List LogDesc) (d : DataSet σ) :
    ((replaySlots apply entry slots d).2.1 = true ↔
        ∀ slot ∈ dueSlots (slots.takeWhile fun slot => slot.zxId ≠ 0) d.zxId,
          entry slot ≠ none) ∧
      ∀ call ∈ (replaySlots apply entry slots d).2.2, call.1 = .readEntry := by
  induction slots generalizing d with
  | nil =>
      refine ⟨iff_of_true rfl fun _ h => ?_, fun _ h => ?_⟩
      · exact absurd h List.not_mem_nil
      · exact absurd h List.not_mem_nil
  | cons slot slots ih =>
      rw [replaySlots]
      split
      next hzero =>
        rw [List.takeWhile_cons_of_neg (by simpa using hzero)]
        refine ⟨iff_of_true rfl fun _ h => ?_, fun _ h => ?_⟩
        · exact absurd h List.not_mem_nil
        · exact absurd h List.not_mem_nil
      next hne =>
        rw [List.takeWhile_cons_of_pos (by simpa using hne), dueSlots]
        split
        next hlt =>
          dsimp only
          cases hentry : entry slot with
          | none =>
              refine ⟨iff_of_false Bool.false_ne_true fun h => h slot (.head _) hentry,
                fun call hcall => ?_⟩
              rw [List.mem_singleton.mp hcall]
          | some data =>
              obtain ⟨hiff, hcalls⟩ := ih { d with
                zxId := slot.zxId
                commitLog := d.commitLog ++ [⟨slot.zxId, data⟩]
                stateData := apply d.stateData data }
              refine ⟨hiff.trans ?_, fun call hcall => ?_⟩
              · rw [List.forall_mem_cons, hentry]
                exact (and_iff_right (Option.some_ne_none _)).symm
              · rcases List.mem_cons.mp hcall with rfl | hcall
                · rfl
                · exact hcalls call hcall
        next => exact ih d

theorem loadLogData_truthful (io : LoadIo) :
    d.Truthful apply (.loadLogData io) ↔ d.Sound (.loadLogData io) := by
  rw [Truthful, Sound, loadLogData]
  cases hopen : io.fopen with
  | false => simp
  | true =>
      cases hread : io.read with
      | true =>
          -- the header was read, and nothing is replayed
          simp [List.self_eq_append_right]
      | false =>
          obtain ⟨hiff, hcalls⟩ := replaySlots_whole apply io.entry
            (io.header.logs.toList.take io.header.count.toNatClampNeg)
            { d with lastLogFile := true, header := io.header }
          have hmissing : (FileCall.readHeader, true) ∉ (replaySlots apply io.entry
              (io.header.logs.toList.take io.header.count.toNatClampNeg)
              { d with lastLogFile := true, header := io.header }).2.2 := fun hmem =>
            absurd (hcalls _ hmem) (by decide)
          change _ ↔ ∀ slot ∈ dueSlots io.header.used d.zxId, _ at hiff
          have hend : ¬ ((replaySlots apply io.entry
              (io.header.logs.toList.take io.header.count.toNatClampNeg)
              { d with lastLogFile := true, header := io.header }).2.1 = true) ↔
              ∃ slot ∈ dueSlots io.header.used d.zxId, io.entry slot = none := by
            rw [hiff]
            push Not
            rfl
          simp [hmissing, ← hend]

theorem truncFile_truthful (io : TruncIo) (start : Int64) :
    d.Truthful apply (.truncFile io start) ↔ d.Sound (.truncFile io start) := by
  rw [Truthful, Sound, truncFile]
  cases io.fopen with
  | false => simp
  | true => cases io.read <;> simp

/-- A log function reports the truth if and only if no successful call is taken for a failure,
or that does not show. -/
theorem truthful_iff (apply : σ → Bytes → σ) (d : DataSet σ) (call : LogCall) :
    d.Truthful apply call ↔ d.Sound call := by
  cases call with
  | propose io zxId data => exact propose_truthful io zxId data
  | loadLogData io => exact loadLogData_truthful io
  | truncFile io start => exact truncFile_truthful io start

/-- An entry and the header are written, and `Propose` returns false. -/
theorem written_refused : ¬ ∀ (d : DataSet Bytes) (call : LogCall),
    d.Truthful (fun s data => s ++ data) call := by
  intro hall
  have h := hall { stateData := [], lastLogFile := true } (.propose ⟨true, true, true⟩ 1 [65])
  rw [truthful_iff] at h
  cases h (.inl (by decide)) rfl

end DataSet

end Zk
