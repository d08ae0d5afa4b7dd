import Zookeeper.Paxos.LogDirectory

/-!
# What `Load` reads

`DataSet::LoadLogData` takes a log file as it finds it: the header may be short, a slot
may point anywhere, and the ids may come in any order.  Here is what it reads from any
directory, as a function of the bytes alone (`Dir.readLog`, `Dir.readLogs`), and what a
data set has replayed behind it (`loadLogs_dataset`).

However the bytes look, the bills that are read ascend from the id the reading starts at
(`Dir.ascends_readLogs`).
-/

namespace Paxos

/-! ## The slots of a header -/

/-- The slots a header is read for: those in front of the first empty one. -/
def LogHeader.used (h : LogHeader) : List LogDesc :=
  (h.logs.toList.take h.count.toNatClampNeg).takeWhile fun slot => slot.zxId ≠ 0

variable {contents : Bytes} {slots : List LogDesc} {zxId : Int64}

theorem readSlots_takeWhile (contents : Bytes) (slots : List LogDesc) (zxId : Int64) :
    readSlots contents (slots.takeWhile fun slot => slot.zxId ≠ 0) zxId =
      readSlots contents slots zxId := by
  induction slots generalizing zxId with
  | nil => rfl
  | cons slot slots ih =>
      rw [List.takeWhile_cons]
      by_cases hzero : slot.zxId = 0
      · simp [readSlots, hzero]
      · rw [if_pos (decide_eq_true hzero), readSlots, readSlots, if_neg hzero, if_neg hzero]
        simp only [ih]

/-- Every bill that is read has the id of a slot. -/
theorem mem_readSlots {bill : Bill} (h : bill ∈ (readSlots contents slots zxId).1) :
    ∃ slot ∈ slots, slot.zxId = bill.zxId := by
  induction slots generalizing zxId with
  | nil => cases h
  | cons slot slots ih =>
      rw [readSlots] at h
      split at h
      next => cases h
      next =>
        split at h
        next =>
          split at h
          next => cases h
          next =>
            rcases List.mem_cons.mp h with rfl | h
            · exact ⟨slot, .head _, rfl⟩
            · obtain ⟨other, hother, heq⟩ := ih h
              exact ⟨other, .tail _ hother, heq⟩
        next =>
          obtain ⟨other, hother, heq⟩ := ih h
          exact ⟨other, .tail _ hother, heq⟩

/-! ## The order of what is read -/

/-- The bills of a reading ascend from the id it starts at, and the id it ends at is not
below them.  A whole reading ends at its last bill. -/
structure Ascends (zxId : Int64) (r : List Bill × Int64 × Bool) : Prop where
  sorted : r.1.Pairwise fun a b => a.zxId < b.zxId
  above : ∀ bill ∈ r.1, zxId < bill.zxId
  upTo : ∀ bill ∈ r.1, bill.zxId ≤ r.2.1
  le : zxId ≤ r.2.1
  whole : r.2.2 = true → r.2.1 = (r.1.getLast?.map Bill.zxId).getD zxId

namespace Ascends

variable {last : Int64} {bills : List Bill} {r : List Bill × Int64 × Bool}

theorem none (ok : Bool) : Ascends zxId ([], zxId, ok) :=
  ⟨.nil, nofun, nofun, Std.le_refl zxId, fun _ => rfl⟩

theorem append (h : Ascends zxId (bills, last, true)) (h' : Ascends last r) :
    Ascends zxId (bills ++ r.1, r.2.1, r.2.2) := by
  constructor
  case sorted =>
    refine List.pairwise_append.mpr ⟨h.sorted, h'.sorted, fun a ha b hb => ?_⟩
    exact Std.lt_of_le_of_lt (h.upTo a ha) (h'.above b hb)
  case above =>
    intro bill hbill
    rcases List.mem_append.mp hbill with hbill | hbill
    · exact h.above bill hbill
    · exact Std.lt_of_le_of_lt h.le (h'.above bill hbill)
  case upTo =>
    intro bill hbill
    rcases List.mem_append.mp hbill with hbill | hbill
    · exact Std.le_trans (h.upTo bill hbill) h'.le
    · exact h'.upTo bill hbill
  case le => exact Std.le_trans h.le h'.le
  case whole =>
    intro hok
    have hlast := h.whole rfl
    have hmore := h'.whole hok
    dsimp only at hlast hmore ⊢
    rw [hmore, List.getLast?_append]
    cases r.1.getLast? with
    | none => exact hlast
    | some bill => rfl

end Ascends

theorem ascends_readSlots (contents : Bytes) (slots : List LogDesc) (zxId : Int64) :
    Ascends zxId (readSlots contents slots zxId) := by
  induction slots generalizing zxId with
  | nil => exact .none true
  | cons slot slots ih =>
      rw [readSlots]
      split
      next => exact .none true
      next =>
        split
        next hlt =>
          split
          next =>
            refine ⟨.nil, ?_, ?_, Std.le_of_lt hlt, fun h => absurd h Bool.false_ne_true⟩
            · exact fun _ h => absurd h List.not_mem_nil
            · exact fun _ h => absurd h List.not_mem_nil
          next data _ =>
            have hfirst : Ascends zxId ([⟨slot.zxId, data⟩], slot.zxId, true) := by
              refine ⟨List.pairwise_singleton .., ?_, ?_, Std.le_of_lt hlt, fun _ => rfl⟩
              · intro bill hbill
                rw [List.mem_singleton.mp hbill]
                exact hlt
              · intro bill hbill
                rw [List.mem_singleton.mp hbill]
                exact Std.le_refl _
            exact hfirst.append (ih slot.zxId)
        next => exact ih zxId

/-! ## The files of a directory -/

namespace Dir

/-- What `LoadLogData` reads from a file: the bills above an id, the id reached, and
whether all of them could be read. -/
def readLog (dir : Dir) (id zxId : Int64) : List Bill × Int64 × Bool :=
  match dir.open_ id with
  | none => ([], zxId, false)
  | some contents =>
      match LogHeader.codec.read contents with
      | none => ([], zxId, false)
      | some (h, _) => readSlots contents h.used zxId

/-- What the loop of `Load` reads, up to the first file that it cannot read on. -/
def readLogs (dir : Dir) : List Int64 → Int64 → List Bill × Int64 × Bool
  | [], zxId => ([], zxId, true)
  | id :: ids, zxId =>
      match dir.readLog id zxId with
      | (bills, last, false) => (bills, last, false)
      | (bills, last, true) =>
          let (more, last, ok) := dir.readLogs ids last
          (bills ++ more, last, ok)

variable {dir dir' : Dir} {id : Int64} {ids : List Int64}

theorem ascends_readLog (dir : Dir) (id zxId : Int64) : Ascends zxId (dir.readLog id zxId) := by
  rw [readLog]
  split
  next => exact .none false
  next =>
    split
    next => exact .none false
    next => exact ascends_readSlots ..

theorem ascends_readLogs (dir : Dir) (ids : List Int64) (zxId : Int64) :
    Ascends zxId (dir.readLogs ids zxId) := by
  induction ids generalizing zxId with
  | nil => exact .none true
  | cons id ids ih =>
      have hfirst := dir.ascends_readLog id zxId
      rw [readLogs]
      split
      next heq => exact heq ▸ hfirst
      next bills last heq =>
        rw [heq] at hfirst
        exact hfirst.append (ih last)

theorem mem_readLog {bill : Bill} (h : bill ∈ (dir.readLog id zxId).1) :
    ∃ contents header rest, dir.open_ id = some contents ∧
      LogHeader.codec.read contents = some (header, rest) ∧
      ∃ slot ∈ header.used, slot.zxId = bill.zxId := by
  rw [readLog] at h
  split at h
  next => cases h
  next contents hopen =>
    split at h
    next => cases h
    next header rest hread => exact ⟨contents, header, rest, hopen, hread, mem_readSlots h⟩

/-- Every bill that is read has the id of a used slot. -/
theorem mem_readLogs {bill : Bill} (h : bill ∈ (dir.readLogs ids zxId).1) :
    ∃ id ∈ ids, ∃ contents header rest, dir.open_ id = some contents ∧
      LogHeader.codec.read contents = some (header, rest) ∧
      ∃ slot ∈ header.used, slot.zxId = bill.zxId := by
  induction ids generalizing zxId with
  | nil => cases h
  | cons id ids ih =>
      rw [readLogs] at h
      split at h
      next bills last heq =>
        have hmem : bill ∈ (dir.readLog id zxId).1 := by
          rw [heq]
          exact h
        exact ⟨id, .head _, mem_readLog hmem⟩
      next bills last heq =>
        rcases List.mem_append.mp h with h | h
        · have hmem : bill ∈ (dir.readLog id zxId).1 := by
            rw [heq]
            exact h
          exact ⟨id, .head _, mem_readLog hmem⟩
        · obtain ⟨other, hother, hfile⟩ := ih h
          exact ⟨other, .tail _ hother, hfile⟩

/-- Reading looks at nothing but the contents of the files. -/
theorem readLogs_congr (h : ∀ id ∈ ids, dir'.open_ id = dir.open_ id) (zxId : Int64) :
    dir'.readLogs ids zxId = dir.readLogs ids zxId := by
  induction ids generalizing zxId with
  | nil => rfl
  | cons id ids ih =>
      have hfirst : dir'.readLog id zxId = dir.readLog id zxId := by
        rw [readLog, readLog, h id (.head _)]
      rw [readLogs, readLogs, hfirst]
      split
      next => rfl
      next => rw [ih fun other hother => h other (.tail _ hother)]

theorem readLogs_append (dir : Dir) (ids more : List Int64) (zxId : Int64) :
    dir.readLogs (ids ++ more) zxId =
      match dir.readLogs ids zxId with
      | (bills, last, false) => (bills, last, false)
      | (bills, last, true) =>
          let (bills', last, ok) := dir.readLogs more last
          (bills ++ bills', last, ok) := by
  induction ids generalizing zxId with
  | nil => rfl
  | cons id ids ih =>
      rw [List.cons_append, readLogs, readLogs]
      rcases dir.readLog id zxId with ⟨bills, last, ok⟩
      cases ok with
      | false => rfl
      | true =>
          dsimp only
          rw [ih last]
          rcases dir.readLogs ids last with ⟨bills', last', ok⟩
          cases ok with
          | false => rfl
          | true =>
              dsimp only
              rw [List.append_assoc]

end Dir

/-! ## Replaying it -/

variable {σ τ : Type} {m : Machine σ τ}

/-- A data set that has replayed a reading. -/
def DataSet.afterReading (m : Machine σ τ) (d : DataSet σ) (r : List Bill × Int64 × Bool) :
    Option (DataSet σ) :=
  (m.replay d.stateData r.1).map fun s =>
    { d with stateData := s, zxId := r.2.1, commitLog := d.commitLog ++ r.1 }

theorem DataSet.afterReading_append (d : DataSet σ) (bills : List Bill) (last : Int64) (ok : Bool)
    (r : List Bill × Int64 × Bool) :
    d.afterReading m (bills ++ r.1, r.2.1, r.2.2) =
      (d.afterReading m (bills, last, ok)).bind fun d => d.afterReading m r := by
  rw [afterReading, afterReading, Machine.replay_append]
  cases m.replay d.stateData bills with
  | none => rfl
  | some s =>
      rw [Option.bind_some, Option.map_some, Option.bind_some, afterReading, ← List.append_assoc]

namespace Store

/-- What a file was read for is replayed, and the file stays open. -/
theorem loadLogData_reading (s : Store σ) (id : Int64) :
    (s.loadLogData m id).map (fun r => (r.1.dataset, r.1.disk.dir, r.1.disk.lastLogFile, r.2)) =
      (s.dataset.afterReading m (s.disk.dir.readLog id s.dataset.zxId)).map fun d =>
        (d, s.disk.dir, (s.disk.dir.open_ id).map fun _ => id,
          (s.disk.dir.readLog id s.dataset.zxId).2.2) := by
  have hnone : s.dataset.afterReading m ([], s.dataset.zxId, false) = some s.dataset := by
    change some { s.dataset with commitLog := s.dataset.commitLog ++ [] } = _
    rw [List.append_nil]
  rw [loadLogData, Dir.readLog]
  cases s.disk.dir.open_ id with
  | none => rw [hnone]; rfl
  | some contents =>
      dsimp only
      cases LogHeader.codec.read contents with
      | none => rw [hnone]; rfl
      | some read =>
          obtain ⟨h, rest⟩ := read
          dsimp only
          rw [LogHeader.used, readSlots_takeWhile, foldlM_replay, DataSet.afterReading]
          generalize readSlots contents _ s.dataset.zxId = r
          cases m.replay s.dataset.stateData r.1 <;> rfl

theorem loadLogData_some {s s' : Store σ} {id : Int64} {ok : Bool}
    (h : s.loadLogData m id = some (s', ok)) :
    s.dataset.afterReading m (s.disk.dir.readLog id s.dataset.zxId) = some s'.dataset ∧
      s'.disk.dir = s.disk.dir ∧
      s'.disk.lastLogFile = (s.disk.dir.open_ id).map (fun _ => id) ∧
      ok = (s.disk.dir.readLog id s.dataset.zxId).2.2 := by
  have hread := s.loadLogData_reading (m := m) id
  rw [h, Option.map_some] at hread
  obtain ⟨d, hd, heq⟩ := Option.map_eq_some_iff.mp hread.symm
  simp only [Prod.mk.injEq] at heq
  obtain ⟨rfl, hdir, hfile, hok⟩ := heq
  exact ⟨hd, hdir.symm, hfile.symm, hok.symm⟩

/-- The files are replayed one after the other. -/
theorem loadLogs_dataset (ids : List Int64) (s : Store σ) :
    (loadLogs m ids s).map Store.dataset =
      s.dataset.afterReading m (s.disk.dir.readLogs ids s.dataset.zxId) := by
  induction ids generalizing s with
  | nil =>
      change some s.dataset = some { s.dataset with commitLog := s.dataset.commitLog ++ [] }
      rw [List.append_nil]
  | cons id ids ih =>
      have hfirst := s.loadLogData_reading (m := m) id
      rw [loadLogs, Dir.readLogs]
      rcases hread : s.disk.dir.readLog id s.dataset.zxId with ⟨bills, last, ok⟩
      rw [hread] at hfirst
      cases hd : s.dataset.afterReading m (bills, last, ok) with
      | none =>
          rw [hd, Option.map_none, Option.map_eq_none_iff] at hfirst
          rw [hfirst]
          cases ok with
          | false => exact hd.symm
          | true => rw [DataSet.afterReading_append _ _ _ true, hd]; rfl
      | some d =>
          rw [hd, Option.map_some, Option.map_eq_some_iff] at hfirst
          obtain ⟨⟨s', ok'⟩, hs', -⟩ := hfirst
          obtain ⟨hdata, hdir, -, hok⟩ := loadLogData_some hs'
          rw [hread] at hdata hok
          obtain rfl : ok' = ok := hok
          obtain rfl : d = s'.dataset := Option.some.inj (hd.symm.trans hdata)
          have hlast : s'.dataset.zxId = last := by
            obtain ⟨_, _, heq⟩ := Option.map_eq_some_iff.mp hd
            rw [← heq]
          rw [hs']
          cases ok' with
          | false => exact hd.symm
          | true =>
              rw [DataSet.afterReading_append _ _ _ true, hd, Option.bind_some, ← hlast, ← hdir]
              exact ih s'

/-- What a data set loads from any directory. -/
theorem load_reading (loader : SnapLoader σ) (s : Store σ) (count : Nat) :
    (s.load m loader count).map Store.dataset =
      ((loadSnap loader s.dataset s.disk.dir).bind fun d =>
        d.afterReading m (s.disk.dir.readLogs (wantedLogs s.disk.dir d.zxId) d.zxId)).map
          fun d => { d with snaperCount := count } := by
  rw [load]
  cases loadSnap loader s.dataset s.disk.dir with
  | none => rfl
  | some d =>
      have hlogs := loadLogs_dataset (m := m) (wantedLogs s.disk.dir d.zxId) { s with dataset := d }
      rw [Option.bind_some, Option.bind_some, Option.map_map, ← hlogs, Option.map_map]
      rfl

end Store

/-! ## A new data set -/

/-- The id a new data set starts at: that of the newest snapshot. -/
def Dir.startId (dir : Dir) : Int64 :=
  ((dir.snap.mergeSort fun a b => b.1 ≤ a.1).head?.map Prod.fst).getD 0

/-- What a new data set reads. -/
def Dir.reading (dir : Dir) : List Bill × Int64 × Bool :=
  dir.readLogs (Store.wantedLogs dir dir.startId) dir.startId

namespace Store

variable {loader : SnapLoader σ} {init : σ} {h : LogHeader} {dir : Dir} {count : Nat}

theorem loadSnap_startId {d : DataSet σ}
    (hsnap : loadSnap loader { stateData := init } dir = some d) :
    d.minZxId = dir.startId ∧ d.zxId = dir.startId ∧ d.commitLog = [] ∧ d.uncommit = [] := by
  rw [loadSnap] at hsnap
  rw [Dir.startId]
  split at hsnap
  next hnil =>
    cases hsnap
    rw [hnil]
    exact ⟨rfl, rfl, rfl, rfl⟩
  next id contents rest hsort =>
    obtain ⟨s, _, rfl⟩ := Option.map_eq_some_iff.mp hsnap
    rw [hsort]
    exact ⟨rfl, rfl, rfl, rfl⟩

/-- A new data set has the newest snapshot, and replays what it reads behind it. -/
theorem load_fresh {s : Store σ} (hload : (fresh init h dir).load m loader count = some s) :
    ∃ d, loadSnap loader { stateData := init } dir = some d ∧
      m.replay d.stateData dir.reading.1 = some s.dataset.stateData ∧
      s.dataset.minZxId = dir.startId ∧ s.dataset.zxId = dir.reading.2.1 ∧
      s.dataset.commitLog = dir.reading.1 ∧ s.dataset.uncommit = [] := by
  have hdata := (fresh init h dir).load_reading (m := m) loader count
  rw [hload, Option.map_some] at hdata
  obtain ⟨d', hd', heq⟩ := Option.map_eq_some_iff.mp hdata.symm
  obtain ⟨d, hd, hread⟩ := Option.bind_eq_some_iff.mp hd'
  obtain ⟨hmin, hzxId, hlog, huncommit⟩ := loadSnap_startId hd
  change d.afterReading m (dir.readLogs (wantedLogs dir d.zxId) d.zxId) = some d' at hread
  rw [hzxId] at hread
  obtain ⟨state, hstate, rfl⟩ := Option.map_eq_some_iff.mp hread
  rw [← heq]
  refine ⟨d, hd, hstate, hmin, rfl, ?_, huncommit⟩
  change d.commitLog ++ _ = _
  rw [hlog]
  rfl

/-- There is an application that loads any directory. -/
theorem tape_load (h : LogHeader) (dir : Dir) (count : Nat) :
    ∃ s, (fresh [] h dir).load Machine.tape (fun _ _ => some []) count = some s := by
  have hreplay : ∀ (bills : List Bill) (s : Bytes),
      ∃ s', Machine.tape.replay s bills = some s' := by
    intro bills
    induction bills with
    | nil => exact fun s => ⟨s, rfl⟩
    | cons bill bills ih => exact fun s => ih (s ++ bill.data)
  have hsnap : ∃ d, loadSnap (fun _ _ => some []) { stateData := ([] : Bytes) } dir = some d := by
    rw [loadSnap]
    split
    next => exact ⟨_, rfl⟩
    next => exact ⟨_, rfl⟩
  obtain ⟨d, hd⟩ := hsnap
  obtain ⟨state, hstate⟩ := hreplay (dir.readLogs (wantedLogs dir d.zxId) d.zxId).1 d.stateData
  have hdata := (fresh ([] : Bytes) h dir).load_reading (m := Machine.tape)
    (fun _ _ => some []) count
  change _ = ((loadSnap _ { stateData := [] } dir).bind fun d => d.afterReading Machine.tape
    (dir.readLogs (wantedLogs dir d.zxId) d.zxId)).map _ at hdata
  rw [hd, Option.bind_some, DataSet.afterReading, hstate] at hdata
  obtain ⟨s, hs, -⟩ := Option.map_eq_some_iff.mp hdata
  exact ⟨s, hs⟩

end Store

end Paxos
