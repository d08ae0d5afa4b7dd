import Zookeeper.Paxos.LogReading

/-!
# A damaged log file

`DataSet::LoadLogData` moves `_zxId` on before it reads the entry, and `DataSet::Load`
removes the log files from the first on that cannot be read, while that file is still open
(`paxos/transaction/dataset.cpp`).  A header whose count is above a hundred, with a
hundred used slots, is read on behind its end.

`load_honest_iff` says for any directory when the id that is reached is that of the last
entry applied, and the open file is still there: when no file that is wanted is damaged.
-/

namespace Paxos

/-! ## What a file has to hold -/

/-- The slots whose bills are read: each is above all before it. -/
def dueSlots : List LogDesc → Int64 → List LogDesc
  | [], _ => []
  | slot :: slots, zxId =>
      if zxId < slot.zxId then slot :: dueSlots slots slot.zxId else dueSlots slots zxId

/-- The id behind some slots. -/
def topSlot (slots : List LogDesc) (zxId : Int64) : Int64 :=
  slots.foldl (fun zxId slot => if zxId < slot.zxId then slot.zxId else zxId) zxId

/-- The data of a slot lies in the file. -/
def LogDesc.LiesIn (slot : LogDesc) (contents : Bytes) : Prop :=
  0 ≤ slot.offset.toInt ∧ 0 < slot.size.toInt ∧
    slot.offset.toInt + slot.size.toInt ≤ contents.length

/-- A header that is read on behind its last slot. -/
def LogHeader.Overruns (h : LogHeader) : Prop :=
  (100 : Int32) < h.count ∧ ∀ slot ∈ h.logs.toList, slot.zxId ≠ 0

/-- The files are whole: each has a header that stays within its slots, and the data of
the slots that are due. -/
def Dir.Undamaged (dir : Dir) : List Int64 → Int64 → Prop
  | [], _ => True
  | id :: ids, zxId =>
      ∃ contents h rest, dir.open_ id = some contents ∧
        LogHeader.codec.read contents = some (h, rest) ∧ ¬ h.Overruns ∧
        (∀ slot ∈ dueSlots h.used zxId, slot.LiesIn contents) ∧
        dir.Undamaged ids (topSlot h.used zxId)

/-- The reading gets to the end of a header that overruns. -/
def Dir.Overrun (dir : Dir) : List Int64 → Int64 → Prop
  | [], _ => False
  | id :: ids, zxId =>
      match dir.readLog id zxId with
      | (_, _, false) => False
      | (_, last, true) =>
          (∃ contents h rest, dir.open_ id = some contents ∧
            LogHeader.codec.read contents = some (h, rest) ∧ h.Overruns) ∨ dir.Overrun ids last

variable {contents : Bytes} {slots : List LogDesc} {zxId : Int64}

theorem fread_isSome (contents : Bytes) (slot : LogDesc) :
    (fread contents slot.offset slot.size).isSome = true ↔ slot.LiesIn contents := by
  have hoffset := Int32.toNat_toInt slot.offset
  have hsize := Int32.toNat_toInt slot.size
  rw [fread, LogDesc.LiesIn]
  split
  next hbad =>
    rw [Int32.lt_iff_toInt_lt, Int32.le_iff_toInt_le, Int32.toInt_zero] at hbad
    refine iff_of_false Bool.false_ne_true ?_
    omega
  next hgood =>
    rw [Int32.lt_iff_toInt_lt, Int32.le_iff_toInt_le, Int32.toInt_zero] at hgood
    dsimp only
    rw [List.length_take, List.length_drop]
    split
    next hshort =>
      refine iff_of_false Bool.false_ne_true ?_
      omega
    next hlong =>
      refine iff_of_true rfl ?_
      omega

/-- The slots are read to the end if and only if the data of those that are due is there. -/
theorem readSlots_whole (hne : ∀ slot ∈ slots, slot.zxId ≠ 0) :
    ((readSlots contents slots zxId).2.2 = true ↔
        ∀ slot ∈ dueSlots slots zxId, slot.LiesIn contents) ∧
      ((readSlots contents slots zxId).2.2 = true →
        (readSlots contents slots zxId).2.1 = topSlot slots zxId) := by
  induction slots generalizing zxId with
  | nil => exact ⟨iff_of_true rfl fun _ h => absurd h List.not_mem_nil, fun _ => rfl⟩
  | cons slot slots ih =>
      have hrest : ∀ other ∈ slots, other.zxId ≠ 0 := fun other hother => hne other (.tail _ hother)
      rw [readSlots, if_neg (hne slot (.head _)), dueSlots, topSlot, List.foldl_cons, ← topSlot]
      split
      next hlt =>
        have hlies := fread_isSome contents slot
        obtain ⟨hiff, htop⟩ := ih hrest
        rw [List.forall_mem_cons, ← hlies]
        cases fread contents slot.offset slot.size with
        | none =>
            refine ⟨iff_of_false Bool.false_ne_true fun h => ?_, fun h => ?_⟩
            · exact absurd h.1 Bool.false_ne_true
            · exact absurd h Bool.false_ne_true
        | some data => exact ⟨hiff.trans (and_iff_right rfl).symm, htop⟩
      next => exact ih hrest

namespace Dir

variable {dir : Dir} {ids : List Int64}

theorem readLog_header {id : Int64} {h : LogHeader} {rest : Bytes}
    (hopen : dir.open_ id = some contents)
    (hread : LogHeader.codec.read contents = some (h, rest)) :
    dir.readLog id zxId = readSlots contents h.used zxId := by
  rw [readLog, hopen]
  dsimp only
  rw [hread]

/-- All files are read to the end, and within their headers, if and only if none is damaged. -/
theorem undamaged_iff (dir : Dir) (ids : List Int64) (zxId : Int64) :
    (dir.readLogs ids zxId).2.2 = true ∧ ¬ dir.Overrun ids zxId ↔ dir.Undamaged ids zxId := by
  induction ids generalizing zxId with
  | nil => exact iff_of_true ⟨rfl, id⟩ trivial
  | cons id ids ih =>
      have hfile : (dir.readLog id zxId).2.2 = true → ∃ contents h rest,
          dir.open_ id = some contents ∧ LogHeader.codec.read contents = some (h, rest) := by
        intro hok
        rw [readLog] at hok
        split at hok
        next => cases hok
        next contents hopen =>
          split at hok
          next => cases hok
          next h rest hread => exact ⟨contents, h, rest, hopen, hread⟩
      have hwhole : ∀ {contents h rest}, dir.open_ id = some contents →
          LogHeader.codec.read contents = some (h, rest) →
          ((dir.readLog id zxId).2.2 = true ↔ ∀ slot ∈ dueSlots h.used zxId, slot.LiesIn contents) ∧
            ((dir.readLog id zxId).2.2 = true →
              (dir.readLog id zxId).2.1 = topSlot h.used zxId) := by
        intro contents h rest hopen hread
        rw [readLog_header hopen hread]
        exact readSlots_whole fun slot hslot =>
          of_decide_eq_true (List.all_eq_true.mp List.all_takeWhile slot hslot)
      rw [readLogs, Overrun, Undamaged]
      rcases hlog : dir.readLog id zxId with ⟨bills, last, ok⟩
      rw [hlog] at hfile hwhole
      cases ok with
      | false =>
          refine iff_of_false (fun h => absurd h.1 Bool.false_ne_true) ?_
          rintro ⟨contents, h, rest, hopen, hread, -, hlies, -⟩
          exact absurd ((hwhole hopen hread).1.mpr hlies) Bool.false_ne_true
      | true =>
          obtain ⟨contents, h, rest, hopen, hread⟩ := hfile rfl
          obtain ⟨hlies, htop⟩ := hwhole hopen hread
          obtain rfl : last = topSlot h.used zxId := htop rfl
          dsimp only
          rw [not_or, and_left_comm, ih]
          constructor
          · rintro ⟨hnot, hrest⟩
            exact ⟨contents, h, rest, hopen, hread,
              fun hover => hnot ⟨contents, h, rest, hopen, hread, hover⟩, hlies.mp rfl, hrest⟩
          · rintro ⟨contents', h', rest', hopen', hread', hnot, -, hrest⟩
            cases hopen.symm.trans hopen'
            cases hread.symm.trans hread'
            refine ⟨?_, hrest⟩
            rintro ⟨contents'', h'', rest'', hopen'', hread'', hover⟩
            cases hopen.symm.trans hopen''
            cases hread.symm.trans hread''
            exact hnot hover

theorem open_of_mem {id : Int64} (h : id ∈ dir.logIds) :
    ∃ contents, dir.open_ id = some contents := by
  cases hopen : dir.open_ id with
  | some contents => exact ⟨contents, rfl⟩
  | none =>
      obtain ⟨file, hfile, rfl⟩ := List.mem_map.mp h
      have hne := List.lookup_eq_none_iff.mp hopen file hfile
      simp at hne

theorem not_mem_removed (dir : Dir) {gone : Int64 → Bool} {id : Int64} (h : gone id = true) :
    id ∉ (dir.remove gone).logIds := by
  intro hmem
  obtain ⟨file, hfile, rfl⟩ := List.mem_map.mp hmem
  have hleft := (List.mem_filter.mp hfile).2
  rw [h] at hleft
  cases hleft

end Dir

/-! ## The open file -/

variable {σ τ : Type} {m : Machine σ τ}

namespace Store

/-- Where a file cannot be read on, it is open and removed. -/
theorem loadLogs_file (ids : List Int64) {s s' : Store σ}
    (hfiles : ∀ id ∈ ids, id ∈ s.disk.dir.logIds) (h : loadLogs m ids s = some s') :
    if (s.disk.dir.readLogs ids s.dataset.zxId).2.2 = true then
      s'.disk.dir = s.disk.dir ∧
        (s'.disk.lastLogFile = s.disk.lastLogFile ∨ ∃ id ∈ ids, s'.disk.lastLogFile = some id)
    else ∃ id, s'.disk.lastLogFile = some id ∧ id ∉ s'.disk.dir.logIds := by
  induction ids generalizing s with
  | nil =>
      cases h
      exact ⟨rfl, .inl rfl⟩
  | cons id ids ih =>
      obtain ⟨contents, hopen⟩ := Dir.open_of_mem (hfiles id (.head _))
      rw [loadLogs] at h
      split at h
      next => cases h
      next s₁ hs₁ =>
        obtain ⟨hdata, hdir, hfile, hok⟩ := loadLogData_some hs₁
        have hlast : s₁.dataset.zxId = (s.disk.dir.readLog id s.dataset.zxId).2.1 := by
          obtain ⟨_, _, heq⟩ := Option.map_eq_some_iff.mp hdata
          rw [← heq]
        have hrest := ih (fun other hother => hdir ▸ hfiles other (.tail _ hother)) h
        rw [Dir.readLogs]
        rcases hlog : s.disk.dir.readLog id s.dataset.zxId with ⟨bills, last, ok⟩
        rw [hlog] at hok hlast
        cases hok
        rw [hdir, hlast, hfile, hopen] at hrest
        dsimp only
        split
        next hwhole =>
          rw [if_pos hwhole] at hrest
          obtain ⟨hsame, hopened⟩ := hrest
          refine ⟨hsame, .inr ?_⟩
          rcases hopened with hfirst | ⟨other, hother, heq⟩
          · exact ⟨id, .head _, hfirst⟩
          · exact ⟨other, .tail _ hother, heq⟩
        next hbroken =>
          rw [if_neg hbroken] at hrest
          exact hrest
      next s₁ hs₁ =>
        obtain ⟨-, hdir, hfile, hok⟩ := loadLogData_some hs₁
        rw [Dir.readLogs]
        rcases hlog : s.disk.dir.readLog id s.dataset.zxId with ⟨bills, last, ok⟩
        rw [hlog] at hok
        cases hok
        cases h
        rw [if_neg Bool.false_ne_true]
        exact ⟨id, by rw [hfile, hopen, Option.map_some],
          s₁.disk.dir.not_mem_removed (List.contains_iff_mem.mpr (.head _))⟩

/-- A load stays within the headers, ends at the id of the last bill it has applied, or of
the snapshot, and the file it leaves open is in the directory. -/
structure LoadHonest (dir : Dir) (s : Store σ) : Prop where
  inBounds : ¬ dir.Overrun (wantedLogs dir dir.startId) dir.startId
  zxId : s.dataset.zxId = (s.dataset.commitLog.getLast?.map Bill.zxId).getD s.dataset.minZxId
  file : ∀ id, s.disk.lastLogFile = some id → id ∈ s.disk.dir.logIds

/-- A load that returns is honest if and only if no wanted file is damaged. -/
theorem load_honest_iff (m : Machine σ τ) (loader : SnapLoader σ) (init : σ) (h : LogHeader)
    (dir : Dir) (count : Nat) (s : Store σ)
    (hload : (fresh init h dir).load m loader count = some s) :
    LoadHonest dir s ↔ dir.Undamaged (wantedLogs dir dir.startId) dir.startId := by
  obtain ⟨d, hsnap, -, hmin, hzxId, hlog, -⟩ := load_fresh hload
  have hmem : ∀ id ∈ wantedLogs dir dir.startId, id ∈ dir.logIds := fun id hid =>
    (List.mem_filter.mp (List.mem_mergeSort.mp hid)).1
  have hfile : if dir.reading.2.2 = true then
      s.disk.dir = dir ∧ (s.disk.lastLogFile = none ∨
        ∃ id ∈ wantedLogs dir dir.startId, s.disk.lastLogFile = some id)
      else ∃ id, s.disk.lastLogFile = some id ∧ id ∉ s.disk.dir.logIds := by
    rw [load] at hload
    obtain ⟨d', hd', hlogs⟩ := Option.bind_eq_some_iff.mp hload
    obtain ⟨s₁, hs₁, rfl⟩ := Option.map_eq_some_iff.mp hlogs
    obtain ⟨-, hstart, -, -⟩ := loadSnap_startId hd'
    change loadLogs m (wantedLogs dir d'.zxId) _ = _ at hs₁
    rw [hstart] at hs₁
    have hdisk := loadLogs_file _ (s := ⟨d', { dir := dir, header := h }⟩) hmem hs₁
    change if (dir.readLogs (wantedLogs dir dir.startId) d'.zxId).2.2 = true then _ else _ at hdisk
    rw [hstart] at hdisk
    exact hdisk
  rw [← dir.undamaged_iff]
  change _ ↔ dir.reading.2.2 = true ∧ _
  constructor
  · intro hhonest
    refine ⟨?_, hhonest.inBounds⟩
    by_contra hbroken
    rw [if_neg hbroken] at hfile
    obtain ⟨id, hopen, hgone⟩ := hfile
    exact hgone (hhonest.file id hopen)
  · rintro ⟨hwhole, hinside⟩
    rw [if_pos hwhole] at hfile
    obtain ⟨hdir, hopened⟩ := hfile
    refine ⟨hinside, ?_, fun id hid => ?_⟩
    · rw [hzxId, hlog, hmin]
      exact (dir.ascends_readLogs _ _).whole hwhole
    · rw [hdir]
      rcases hopened with hnone | ⟨other, hother, heq⟩
      · rw [hnone] at hid
        cases hid
      · cases heq.symm.trans hid
        exact hmem id hother

/-- A log file with one slot, for one byte, and these bytes behind its header. -/
def oneSlot (rest : Bytes) : Dir where
  logdata := [(zxIdOf 1 1,
    LogHeader.codec.encode (FileHolds.oneHeader ⟨zxIdOf 1 1, [65]⟩) ++ rest)]

/-- The file is undamaged if there is a byte. -/
theorem undamaged_oneSlot (rest : Bytes) :
    (oneSlot rest).Undamaged (wantedLogs (oneSlot rest) (oneSlot rest).startId)
      (oneSlot rest).startId ↔ rest ≠ [] := by
  have hstart : (oneSlot rest).startId = 0 := by
    simp [Dir.startId, oneSlot]
  have hwanted : wantedLogs (oneSlot rest) 0 = [zxIdOf 1 1] := by
    have hlate : (0 : Int64) < zxIdOf 1 1 + 100 := by decide
    simp [wantedLogs, oneSlot, hlate]
  have hused : (FileHolds.oneHeader ⟨zxIdOf 1 1, [65]⟩).used = [⟨zxIdOf 1 1, 1612, 1⟩] := rfl
  have hread := LogHeader.codec.read_encode (FileHolds.oneHeader ⟨zxIdOf 1 1, [65]⟩) rest
  have hlen : (LogHeader.codec.encode (FileHolds.oneHeader ⟨zxIdOf 1 1, [65]⟩) ++ rest).length =
      1612 + rest.length := by
    rw [List.length_append, Codec.length_encode, LogHeader.codec_size]
  have hdue : dueSlots [⟨zxIdOf 1 1, 1612, 1⟩] 0 = [⟨zxIdOf 1 1, 1612, 1⟩] := rfl
  have hlies : ∀ contents : Bytes, LogDesc.LiesIn ⟨zxIdOf 1 1, 1612, 1⟩ contents ↔
      1613 ≤ contents.length := by
    intro contents
    have hoffset : (1612 : Int32).toInt = 1612 := rfl
    have hsize : (1 : Int32).toInt = 1 := rfl
    rw [LogDesc.LiesIn, hoffset, hsize]
    omega
  rw [hstart, hwanted, Dir.Undamaged]
  constructor
  · rintro ⟨contents, h, rest', hopen, hread', -, hall, -⟩ rfl
    cases hopen
    cases hread.symm.trans hread'
    rw [hused, hdue] at hall
    have hfits := (hlies _).mp (hall _ (.head _))
    rw [hlen, List.length_nil] at hfits
    omega
  · intro hne
    refine ⟨_, _, rest, rfl, hread, fun hover => absurd hover.1 (by decide), ?_, trivial⟩
    rw [hused, hdue]
    intro slot hslot
    rw [List.mem_singleton.mp hslot, hlies, hlen]
    have := List.length_pos_iff.mpr hne
    omega

/-- The byte is there. -/
theorem load_honest_oneSlot : ∃ s : Store Bytes,
    (fresh [] {} (oneSlot [65])).load Machine.tape (fun _ _ => some []) 100000 = some s ∧
      LoadHonest (oneSlot [65]) s := by
  obtain ⟨s, hload⟩ := tape_load {} (oneSlot [65]) 100000
  exact ⟨s, hload, (load_honest_iff Machine.tape _ _ _ _ _ s hload).mpr
    ((undamaged_oneSlot _).mpr (List.cons_ne_nil _ _))⟩

/-- The file ends behind its header. -/
theorem cut_off_entry : ¬ ∀ (dir : Dir) (s : Store Bytes),
    (fresh [] {} dir).load Machine.tape (fun _ _ => some []) 100000 = some s →
      LoadHonest dir s := by
  intro hall
  obtain ⟨s, hload⟩ := tape_load {} (oneSlot []) 100000
  have hhonest := hall _ s hload
  rw [load_honest_iff Machine.tape _ _ _ _ _ s hload, undamaged_oneSlot] at hhonest
  exact hhonest rfl

end Store

end Paxos
