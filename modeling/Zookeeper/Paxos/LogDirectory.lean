import Zookeeper.KeyedList
import Zookeeper.Paxos.LogLayout
import Zookeeper.Paxos.Sync

/-!
# A directory of log files

`DataSet::Load` replays the newest snapshot and then the bills of the wanted log files,
each bill that is newer than those before it.  For files that hold bills, this is one
fold over their bills (`load_holds`).  `DataSet::Snap` and `DataSet::Trunc` cut these
lists at an id (`cutLogs_holds`).
-/

namespace Paxos
/-! ## Directories -/

/-- The bills a log file is read for. -/
def logBills (contents : Bytes) : List Bill :=
  match LogHeader.codec.read contents with
  | none => []
  | some (h, _) =>
      (h.logs.toList.take h.count.toNatClampNeg).map fun slot =>
        ⟨slot.zxId, (fread contents slot.offset slot.size).getD []⟩

/-- The bills in the log file of an id. -/
def Dir.bills (dir : Dir) (id : Int64) : List Bill := ((dir.open_ id).map logBills).getD []

/-- The log files of a directory, by their ids. -/
def Dir.logIds (dir : Dir) : List Int64 := dir.logdata.map Prod.fst

/-- A log file of the directory holds bills. -/
def Dir.Holds (dir : Dir) (id : Int64) : Prop :=
  ∃ contents h, dir.open_ id = some contents ∧ FileHolds contents h (logBills contents)

theorem FileHolds.logBills_eq {contents : Bytes} {h : LogHeader} {bills : List Bill}
    (hf : FileHolds contents h bills) : logBills contents = bills := by
  obtain ⟨rest, hread⟩ := hf.read
  have hslots := hf.forall₂
  rw [logBills]
  rw [hread]
  dsimp only
  generalize h.logs.toList.take h.count.toNatClampNeg = slots at hslots
  clear hf hread
  induction hslots with
  | nil => rfl
  | cons hslot _ ih => rw [List.map_cons, ih, hslot.zxId, hslot.data, Option.getD_some]

namespace Dir

variable {dir : Dir} {id : Int64} {contents : Bytes}

theorem bills_open (h : dir.open_ id = some contents) : dir.bills id = logBills contents := by
  rw [bills, h, Option.map_some, Option.getD_some]

theorem mem_logIds (h : dir.open_ id = some contents) : id ∈ dir.logIds := by
  obtain ⟨front, back, hsplit, _⟩ := List.lookup_eq_some_iff.mp h
  rw [logIds, hsplit]
  simp

theorem logIds_store (dir : Dir) (id : Int64) (contents : Bytes) :
    (dir.store id contents).logIds = dir.logIds := by
  rw [logIds, store]
  rw [List.map_map]
  refine List.map_congr_left fun file _ => ?_
  change (if file.1 = id then (id, contents) else file).1 = file.1
  split
  next h => exact h.symm
  next => rfl

theorem open_store (dir : Dir) (id other : Int64) (contents : Bytes) :
    (dir.store id contents).open_ other =
      if other = id then (dir.open_ id).map fun _ => contents else dir.open_ other :=
  KeyedList.lookup_replace dir.logdata id other contents

theorem open_remove (dir : Dir) (gone : Int64 → Bool) (id : Int64) :
    (dir.remove gone).open_ id = if gone id then none else dir.open_ id := by
  refine (KeyedList.lookup_filter dir.logdata (fun name => !gone name) id).trans ?_
  cases gone id <;> rfl

end Dir

/-! ## `Load` -/

section Load

variable {σ τ : Type} (m : Machine σ τ)

/-- The state data and the id behind the bills that are newer. -/
def Machine.absorb (x : σ × Int64) (bills : List Bill) : Option (σ × Int64) :=
  (m.replay x.1 (newer bills x.2)).map fun s => (s, reached bills x.2)

/-- What a data set has reached. -/
def DataSet.view (d : DataSet σ) : σ × Int64 := (d.stateData, d.zxId)

/-- The newer bills are applied and logged. -/
def DataSet.absorb (d : DataSet σ) (bills : List Bill) : Option (DataSet σ) :=
  (m.replay d.stateData (newer bills d.zxId)).map fun s =>
    { d with
      stateData := s
      zxId := reached bills d.zxId
      commitLog := d.commitLog ++ newer bills d.zxId }

variable {m}

theorem Machine.replay_append (s : σ) (bills more : List Bill) :
    m.replay s (bills ++ more) = (m.replay s bills).bind fun s => m.replay s more :=
  List.foldlM_append

theorem Machine.absorb_append (x : σ × Int64) (bills more : List Bill) :
    m.absorb x (bills ++ more) = (m.absorb x bills).bind fun x => m.absorb x more := by
  unfold absorb
  rw [newer_append, reached_append, replay_append]
  cases m.replay x.1 (newer bills x.2) <;> rfl

theorem DataSet.absorb_append (d : DataSet σ) (bills more : List Bill) :
    d.absorb m (bills ++ more) = (d.absorb m bills).bind fun d => d.absorb m more := by
  rw [absorb, absorb, newer_append, reached_append, Machine.replay_append]
  cases m.replay d.stateData (newer bills d.zxId) with
  | none => rfl
  | some s =>
      rw [Option.map_some, Option.bind_some, Option.bind_some, absorb, ← List.append_assoc]

theorem DataSet.absorb_view (d : DataSet σ) (bills : List Bill) :
    (d.absorb m bills).map DataSet.view = m.absorb d.view bills := by
  rw [absorb, Option.map_map]
  rfl

namespace Store

theorem foldlM_replay (bills : List Bill) (d : DataSet σ) :
    bills.foldlM (replay m) d = (m.replay d.stateData bills).map fun s =>
      { d with stateData := s, commitLog := d.commitLog ++ bills } := by
  induction bills generalizing d with
  | nil =>
      change some d = some { d with commitLog := d.commitLog ++ [] }
      rw [List.append_nil]
  | cons bill bills ih =>
      rw [List.foldlM_cons, Machine.replay, List.foldlM_cons, replay]
      cases m.applyBill d.stateData bill with
      | none => rfl
      | some s =>
          refine (ih { d with stateData := s, commitLog := d.commitLog ++ [bill] }).trans ?_
          rw [List.append_assoc]
          rfl

/-- A file that holds bills is replayed. -/
theorem loadLogData_holds {s : Store σ} {id : Int64} (hfile : s.disk.dir.Holds id) :
    (s.loadLogData m id).map (fun r => (r.1.dataset, r.1.disk.dir, r.2)) =
      (s.dataset.absorb m (s.disk.dir.bills id)).map fun d => (d, s.disk.dir, true) := by
  obtain ⟨contents, h, hopen, hf⟩ := hfile
  obtain ⟨rest, hread⟩ := hf.read
  have hslots := readSlots_holds hf.forall₂ s.dataset.zxId
  rw [loadLogData, DataSet.absorb]
  rw [hopen, Dir.bills_open hopen]
  dsimp only
  rw [hread]
  dsimp only
  rw [hslots]
  dsimp only
  rw [foldlM_replay]
  cases m.replay s.dataset.stateData (newer (logBills contents) s.dataset.zxId) <;> rfl

/-- The log files are replayed one after the other. -/
theorem loadLogs_holds (logs : List Int64) (s : Store σ)
    (hfiles : ∀ id ∈ logs, s.disk.dir.Holds id) :
    (loadLogs m logs s).map Store.dataset =
      s.dataset.absorb m (logs.flatMap s.disk.dir.bills) := by
  induction logs generalizing s with
  | nil =>
      change some s.dataset = some { s.dataset with commitLog := s.dataset.commitLog ++ [] }
      rw [List.append_nil]
  | cons log logs ih =>
      have hlog := loadLogData_holds (m := m) (hfiles log (.head _))
      rw [loadLogs, List.flatMap_cons, DataSet.absorb_append]
      cases hx : s.dataset.absorb m (s.disk.dir.bills log) with
      | none =>
          rw [hx, Option.map_none, Option.map_eq_none_iff] at hlog
          rw [hlog]
          rfl
      | some d =>
          rw [hx, Option.map_some, Option.map_eq_some_iff] at hlog
          obtain ⟨⟨s', ok⟩, hs', heq⟩ := hlog
          obtain ⟨rfl, hdir, rfl⟩ : s'.dataset = d ∧ s'.disk.dir = s.disk.dir ∧ ok = true := by
            simpa using heq
          rw [hs', Option.bind_some, ← hdir]
          exact ih s' fun id hid => hdir ▸ hfiles id (.tail _ hid)

/-- What a new data set loads from files that hold bills. -/
theorem load_dataset (loader : SnapLoader σ) {s : Store σ} (count : Nat)
    (hfiles : ∀ id ∈ s.disk.dir.logIds, s.disk.dir.Holds id) :
    (s.load m loader count).map Store.dataset =
      ((loadSnap loader s.dataset s.disk.dir).bind fun d =>
        d.absorb m ((wantedLogs s.disk.dir d.zxId).flatMap s.disk.dir.bills)).map fun d =>
          { d with snaperCount := count } := by
  rw [load]
  cases loadSnap loader s.dataset s.disk.dir with
  | none => rfl
  | some d =>
      have hlogs := loadLogs_holds (m := m) (wantedLogs s.disk.dir d.zxId)
        { s with dataset := d } fun id hid =>
          hfiles id (List.mem_filter.mp (List.mem_mergeSort.mp hid)).1
      rw [Option.bind_some, Option.bind_some, Option.map_map, ← hlogs, Option.map_map]
      rfl

/-- The state data and the id among them. -/
theorem load_holds (loader : SnapLoader σ) {s : Store σ} (count : Nat)
    (hfiles : ∀ id ∈ s.disk.dir.logIds, s.disk.dir.Holds id) :
    (s.load m loader count).map (fun s => s.dataset.view) =
      (loadSnap loader s.dataset s.disk.dir).bind fun d =>
        m.absorb d.view ((wantedLogs s.disk.dir d.zxId).flatMap s.disk.dir.bills) := by
  have hload := congrArg (Option.map DataSet.view) (load_dataset (m := m) loader count hfiles)
  rw [Option.map_map, Option.map_map] at hload
  refine hload.trans ?_
  cases loadSnap loader s.dataset s.disk.dir with
  | none => rfl
  | some d => exact d.absorb_view _

end Store

end Load

/-! ## Cutting and appending -/

/-- A directory as a data set keeps it: each log file is named by the first of its bills,
and the ids grow within a file and from file to file. -/
structure Dir.Intact (dir : Dir) : Prop where
  nodup : dir.logIds.Nodup
  holds : ∀ id ∈ dir.logIds, dir.Holds id
  positive : ∀ id ∈ dir.logIds, 0 < id
  named : ∀ id ∈ dir.logIds, (dir.bills id).head?.map Bill.zxId = some id
  sorted : ∀ id ∈ dir.logIds, (dir.bills id).Pairwise fun a b => a.zxId < b.zxId
  apart : ∀ id ∈ dir.logIds, ∀ other ∈ dir.logIds, id < other →
    ∀ bill ∈ dir.bills id, bill.zxId < other

/-- A directory with one log file of one bill. -/
def Dir.one (bill : Bill) (snap : List (Int64 × Bytes)) : Dir :=
  ⟨[(bill.zxId, FileHolds.oneFile bill)], snap⟩

section One

variable {bill : Bill} (hpos : 0 < bill.zxId) (hne : bill.data ≠ [])
  (hsmall : 1612 + bill.data.length < 2 ^ 31) (snap : List (Int64 × Bytes))

include hpos hne hsmall

theorem Dir.one_holds :
    (one bill snap).Holds bill.zxId ∧ (one bill snap).bills bill.zxId = [bill] := by
  have hid : bill.zxId ≠ 0 := fun hzero => Std.lt_irrefl (hzero ▸ hpos)
  have hf := FileHolds.one hne hid hsmall
  have hopen : (one bill snap).open_ bill.zxId = some (FileHolds.oneFile bill) :=
    List.lookup_cons_self
  exact ⟨⟨_, _, hopen, hf.logBills_eq.symm ▸ hf⟩, (bills_open hopen).trans hf.logBills_eq⟩

theorem Dir.Intact.one : (Dir.one bill snap).Intact := by
  obtain ⟨hholds, hbills⟩ := one_holds hpos hne hsmall snap
  have hmem : ∀ id ∈ (Dir.one bill snap).logIds, id = bill.zxId := fun id => List.mem_singleton.mp
  constructor
  case nodup => exact List.nodup_singleton _
  case holds =>
    intro id hid
    rw [hmem id hid]
    exact hholds
  case positive =>
    intro id hid
    rw [hmem id hid]
    exact hpos
  case named =>
    intro id hid
    rw [hmem id hid, hbills]
    rfl
  case sorted =>
    intro id hid
    rw [hmem id hid, hbills]
    exact List.pairwise_singleton _ _
  case apart =>
    intro id hid other hother hlt
    rw [hmem id hid, hmem other hother] at hlt
    exact absurd hlt Std.lt_irrefl

end One

/-- The open file is the last one, and its header is the one in memory. -/
structure Disk.Opened (disk : Disk) : Prop where
  holds : ∀ id ∈ disk.dir.logIds, disk.dir.Holds id
  closed : disk.lastLogFile = none → disk.dir.logIds = []
  header : ∀ id, disk.lastLogFile = some id → ∃ contents, disk.dir.open_ id = some contents ∧
    FileHolds contents disk.header (logBills contents)
  last : ∀ id, disk.lastLogFile = some id → ∀ other ∈ disk.dir.logIds, other ≤ id

/-- The log files of `disk'` are those of `disk` up to an id. -/
structure Disk.CutTo (disk : Disk) (zxId : Int64) (disk' : Disk) : Prop where
  snap : disk'.dir.snap = disk.dir.snap
  ids : disk'.dir.logIds = disk.dir.logIds.filter fun id => decide (id ≤ zxId)
  bills : ∀ id ∈ disk'.dir.logIds, disk'.dir.bills id = upTo zxId (disk.dir.bills id)
  size : ∀ id contents, disk'.dir.open_ id = some contents →
    ∃ old, disk.dir.open_ id = some old ∧ old.length = contents.length

theorem foldl_biggest (ids : List Int64) (z : Int64) :
    let biggest := ids.foldl (fun biggest id => if biggest < id then id else biggest) z
    (biggest = z ∨ biggest ∈ ids) ∧ z ≤ biggest ∧ ∀ id ∈ ids, id ≤ biggest := by
  induction ids generalizing z with
  | nil => exact ⟨.inl rfl, Std.le_refl z, nofun⟩
  | cons id ids ih =>
      obtain ⟨hmem, hle, hall⟩ := ih (if z < id then id else z)
      rw [List.foldl_cons]
      refine ⟨?_, ?_, ?_⟩
      · rcases hmem with heq | hmem
        · rw [heq]
          split
          next => exact .inr (.head _)
          next => exact .inl rfl
        · exact .inr (.tail _ hmem)
      · refine Std.le_trans ?_ hle
        split
        next h => exact Std.le_of_lt h
        next => exact Std.le_refl z
      · intro other hother
        rcases List.mem_cons.mp hother with rfl | hother
        · refine Std.le_trans ?_ hle
          split
          next => exact Std.le_refl other
          next h => exact Std.not_lt.mp h
        · exact hall other hother

theorem Dir.logIds_remove (dir : Dir) (zxId : Int64) :
    (dir.remove fun id => decide (zxId < id)).logIds =
      dir.logIds.filter fun id => decide (id ≤ zxId) := by
  unfold logIds remove
  rw [List.filter_map]
  congr 1
  refine List.filter_congr fun file _ => ?_
  change (!decide (zxId < file.1)) = decide (file.1 ≤ zxId)
  rw [← decide_not]
  exact decide_eq_decide.mpr Std.not_lt


theorem Disk.truncFile_holds (disk : Disk) {file start : Int64} {contents : Bytes} {h : LogHeader}
    {bills : List Bill} (hopen : disk.dir.open_ file = some contents)
    (hf : FileHolds contents h bills)
    (hsorted : bills.Pairwise fun a b => a.zxId < b.zxId)
    (hfirst : upTo start bills ≠ []) :
    ∃ header new, disk.truncFile file start =
        (⟨disk.dir.store file new, some file, header⟩, none) ∧
      FileHolds new header (upTo start bills) ∧ new.length = contents.length := by
  obtain ⟨rest, hread⟩ := hf.read
  have hsplit : upTo start bills ++ above start bills = bills := upTo_append_above start hsorted
  have hkept : ∀ bill ∈ upTo start bills, bill.zxId ≤ start := fun bill hbill =>
    of_decide_eq_true (List.mem_filter.mp hbill).2
  have hgone : ∀ bill ∈ above start bills, start < bill.zxId := fun bill hbill =>
    of_decide_eq_true (List.mem_filter.mp hbill).2
  cases htrunc : Disk.truncSlots start (List.range h.count.toNatClampNeg) h 0 with
  | mk header count =>
      have hcut := FileHolds.trunc (by rw [hsplit]; exact hf) hfirst hkept hgone htrunc
      refine ⟨_, _, ?_, hcut, FileHolds.length_fwrite_header hf.header_le _⟩
      rw [truncFile]
      rw [hopen]
      dsimp only
      rw [hread]
      dsimp only
      rw [htrunc]

/-- What lies in a log file in front of the last is not cut. -/
theorem Dir.Intact.upTo_eq {dir : Dir} (hdir : dir.Intact) {id other zxId : Int64}
    (hid : id ∈ dir.logIds) (hother : other ∈ dir.logIds) (hlt : id < other)
    (hle : other ≤ zxId) : upTo zxId (dir.bills id) = dir.bills id :=
  upTo_eq_self fun bill hbill =>
    Std.le_trans (Std.le_of_lt (hdir.apart id hid other hother hlt bill hbill)) hle

theorem Dir.Intact.upTo_ne_nil {dir : Dir} (hdir : dir.Intact) {id zxId : Int64}
    (hid : id ∈ dir.logIds) (hle : id ≤ zxId) : upTo zxId (dir.bills id) ≠ [] := by
  obtain ⟨bill, hhead, hname⟩ := Option.map_eq_some_iff.mp (hdir.named id hid)
  have hmem : bill ∈ upTo zxId (dir.bills id) :=
    List.mem_filter.mpr ⟨List.mem_of_head? hhead, decide_eq_true (hname ▸ hle)⟩
  exact List.ne_nil_of_mem hmem

theorem Disk.cutLogs_eq (disk : Disk) (zxId : Int64) :
    disk.cutLogs zxId =
      let dir := disk.dir.remove fun id => decide (zxId < id)
      let biggest := dir.logIds.foldl (fun biggest id => if biggest < id then id else biggest) 0
      if biggest = 0 then (⟨dir, none, {}⟩, none)
      else truncFile ⟨dir, none, {}⟩ biggest zxId :=
  rfl

theorem Dir.bills_store {dir : Dir} {file : Int64} {old new : Bytes}
    (hopen : dir.open_ file = some old) (id : Int64) :
    (dir.store file new).bills id = if id = file then logBills new else dir.bills id := by
  rw [bills]
  rw [open_store, hopen]
  split <;> rfl

theorem Dir.open_store_some {dir : Dir} {file id : Int64} {new got : Bytes}
    (hgot : (dir.store file new).open_ id = some got) :
    (id = file ∧ got = new) ∨ dir.open_ id = some got := by
  rw [open_store] at hgot
  split at hgot
  next heq =>
    obtain ⟨_, _, hnew⟩ := Option.map_eq_some_iff.mp hgot
    exact .inl ⟨heq, hnew.symm⟩
  next => exact .inr hgot

/-- The last file with new contents and its header in memory. -/
theorem Disk.opened_store {dir : Dir} {file : Int64} {old new : Bytes} {header : LogHeader}
    {bills : List Bill} (hopen : dir.open_ file = some old) (hf : FileHolds new header bills)
    (hholds : ∀ id ∈ dir.logIds, dir.Holds id) (hlast : ∀ id ∈ dir.logIds, id ≤ file) :
    Opened ⟨dir.store file new, some file, header⟩ := by
  have hnew : (dir.store file new).open_ file = some new := by
    rw [Dir.open_store, if_pos rfl, hopen, Option.map_some]
  have hf' : FileHolds new header (logBills new) := hf.logBills_eq.symm ▸ hf
  refine ⟨fun id hid => ?_, nofun, fun id hid => ?_, fun id hid other hother => ?_⟩
  · rw [Dir.logIds_store] at hid
    by_cases heq : id = file
    · exact ⟨new, header, heq ▸ hnew, hf'⟩
    · obtain ⟨got, h, hgot, hgotf⟩ := hholds id hid
      exact ⟨got, h, by rw [Dir.open_store, if_neg heq, hgot], hgotf⟩
  · cases hid
    exact ⟨new, hnew, hf'⟩
  · cases hid
    rw [Dir.logIds_store] at hother
    exact hlast other hother

/-- `Snap` and `Trunc` leave the bills up to an id, and open the last file. -/
theorem Disk.cutLogs_intact (disk : Disk) (hdir : disk.dir.Intact) (zxId : Int64) :
    ∃ disk', disk.cutLogs zxId = (disk', none) ∧ disk.CutTo zxId disk' ∧ disk'.Opened := by
  have hids := disk.dir.logIds_remove zxId
  have hmem : ∀ id ∈ (disk.dir.remove fun id => decide (zxId < id)).logIds,
      id ∈ disk.dir.logIds ∧ id ≤ zxId := by
    intro id hid
    rw [hids, List.mem_filter, decide_eq_true_iff] at hid
    exact hid
  have hopens : ∀ id ≤ zxId, (disk.dir.remove fun id => decide (zxId < id)).open_ id =
      disk.dir.open_ id := by
    intro id hid
    rw [Dir.open_remove, if_neg (by simpa using Std.not_lt.mpr hid)]
  have hsnap : (disk.dir.remove fun id => decide (zxId < id)).snap = disk.dir.snap := rfl
  have hbillsOf : ∀ id ≤ zxId, (disk.dir.remove fun id => decide (zxId < id)).bills id =
      disk.dir.bills id := by
    intro id hid
    unfold Dir.bills
    rw [hopens id hid]
  rw [cutLogs_eq]
  generalize disk.dir.remove (fun id => decide (zxId < id)) = dir
    at hids hmem hopens hsnap hbillsOf ⊢
  have hbiggest := foldl_biggest dir.logIds 0
  dsimp only at hbiggest ⊢
  generalize dir.logIds.foldl (fun biggest id => if biggest < id then id else biggest) 0 =
    biggest at hbiggest ⊢
  obtain ⟨hfound, _, hle⟩ := hbiggest
  split
  next hzero =>
    have hnil : dir.logIds = [] := by
      refine List.eq_nil_iff_forall_not_mem.mpr fun id hid => ?_
      have hpos := hdir.positive id (hmem id hid).1
      exact Std.not_lt.mpr (hzero ▸ hle id hid) hpos
    refine ⟨_, rfl, ⟨hsnap, hids, ?_, ?_⟩, ⟨?_, fun _ => hnil, nofun, nofun⟩⟩
    · intro id hid
      rw [hnil] at hid
      cases hid
    · intro id contents hopen
      have hid := Dir.mem_logIds hopen
      rw [hnil] at hid
      cases hid
    · intro id hid
      rw [hnil] at hid
      cases hid
  next hne =>
    have hlast := hfound.resolve_left hne
    obtain ⟨hin, hcut⟩ := hmem _ hlast
    obtain ⟨contents, h, hopen, hf⟩ := hdir.holds biggest hin
    have hbills := Dir.bills_open hopen
    have hopen' : dir.open_ biggest = some contents := (hopens biggest hcut).trans hopen
    obtain ⟨header, new, htrunc, hnew, hlen⟩ := truncFile_holds ⟨dir, none, {}⟩ hopen' hf
      (hbills ▸ hdir.sorted biggest hin) (hbills ▸ hdir.upTo_ne_nil hin hcut)
    refine ⟨_, htrunc, ⟨hsnap, ?_, ?_, ?_⟩, opened_store hopen' hnew ?_ hle⟩
    · rw [Dir.logIds_store, hids]
    · intro id hid
      rw [Dir.logIds_store] at hid
      obtain ⟨hin', hle'⟩ := hmem id hid
      rw [Dir.bills_store hopen']
      split
      next heq => rw [hnew.logBills_eq, heq, hbills]
      next hother =>
        have hlt : id < biggest := Std.lt_of_le_of_ne (hle id hid) hother
        rw [hdir.upTo_eq hin' hin hlt hcut]
        exact hbillsOf id hle'
    · intro id got hgot
      rcases Dir.open_store_some hgot with ⟨rfl, rfl⟩ | hgot
      · exact ⟨contents, hopen, hlen.symm⟩
      · have hle' := (hmem id (Dir.mem_logIds hgot)).2
        exact ⟨got, hopens id hle' ▸ hgot, rfl⟩
    · intro id hid
      obtain ⟨hin', hle'⟩ := hmem id hid
      obtain ⟨got, h', hgot, hf'⟩ := hdir.holds id hin'
      exact ⟨got, h', (hopens id hle').trans hgot, hf'⟩

/-- `disk'` has more bills in its open file. -/
structure Disk.Appended (disk disk' : Disk) (more : List Bill) : Prop where
  snap : disk'.dir.snap = disk.dir.snap
  ids : disk'.dir.logIds = disk.dir.logIds
  file : disk'.lastLogFile = disk.lastLogFile
  closed : disk.lastLogFile = none → more = []
  bills : ∀ id, disk'.dir.bills id =
    if disk.lastLogFile = some id then disk.dir.bills id ++ more else disk.dir.bills id

theorem Disk.Appended.refl (disk : Disk) : disk.Appended disk [] where
  snap := rfl
  ids := rfl
  file := rfl
  closed _ := rfl
  bills id := by rw [List.append_nil, ite_self]

theorem Disk.Appended.trans {disk disk' disk'' : Disk} {more later : List Bill}
    (h : disk.Appended disk' more) (h' : disk'.Appended disk'' later) :
    disk.Appended disk'' (more ++ later) where
  snap := h'.snap.trans h.snap
  ids := h'.ids.trans h.ids
  file := h'.file.trans h.file
  closed hclosed := by rw [h.closed hclosed, h'.closed (h.file.trans hclosed), List.append_nil]
  bills id := by
    rw [h'.bills, h.bills, h.file]
    split
    next => exact List.append_assoc ..
    next => rfl

theorem Disk.saveLogData_closed {disk : Disk} {bill : Bill} (hclosed : disk.lastLogFile = none)
    (hnew : bill.zxId ∉ disk.dir.logIds) :
    (disk.saveLogData bill).2 = false := by
  have hmissing : disk.dir.open_ bill.zxId = none := by
    cases hopen : disk.dir.open_ bill.zxId with
    | none => rfl
    | some contents => exact absurd (Dir.mem_logIds hopen) hnew
  have hfull : disk.closeFull = disk := by
    simp [closeFull, hclosed]
  simp [saveLogData, hfull, openLog, hclosed, hmissing]

/-- A full file is closed, and the bill has no file of its own. -/
theorem Disk.saveLogData_full {disk : Disk} {bill : Bill}
    (hfull : (100 : Int32) ≤ disk.header.count) (hnew : bill.zxId ∉ disk.dir.logIds) :
    (disk.saveLogData bill).2 = false := by
  cases hfile : disk.lastLogFile with
  | none => exact saveLogData_closed hfile hnew
  | some file =>
      have hclose : disk.saveLogData bill =
          saveLogData { disk with lastLogFile := none, header := { disk.header with count := 0 } }
            bill := by
        simp [saveLogData, closeFull, hfile, hfull]
      rw [hclose]
      exact saveLogData_closed rfl hnew

/-- A bill that is saved stands behind the others of the open file. -/
theorem Disk.saveLogData_opened {disk disk' : Disk} {bill : Bill} (hopened : disk.Opened)
    (hsave : disk.saveLogData bill = (disk', true))
    (hpos : ∀ id ∈ disk.dir.logIds, 0 < id) (hnext : ∀ id ∈ disk.dir.logIds, id < bill.zxId)
    (hsmall : ∀ id contents, disk.dir.open_ id = some contents →
      contents.length + bill.data.length < 2 ^ 31) :
    disk'.Opened ∧ disk.Appended disk' [bill] ∧
      ∀ id contents, disk'.dir.open_ id = some contents →
        ∃ old, disk.dir.open_ id = some old ∧
          contents.length ≤ old.length + bill.data.length := by
  have hok : (disk.saveLogData bill).2 = true := by rw [hsave]
  have hnew : bill.zxId ∉ disk.dir.logIds := fun hid => Std.lt_irrefl (hnext _ hid)
  cases hfile : disk.lastLogFile with
  | none =>
      rw [saveLogData_closed hfile hnew] at hok
      cases hok
  | some file =>
      obtain ⟨contents, hopen, hf⟩ := hopened.header file hfile
      have hbills := Dir.bills_open hopen
      have hfileId := Dir.mem_logIds hopen
      have hid : bill.zxId ≠ 0 := fun hzero =>
        Std.not_lt.mpr (Std.le_of_lt (hpos file hfileId)) (hzero ▸ hnext file hfileId)
      have hroom : ¬ (100 : Int32) ≤ disk.header.count := fun hfull => by
        rw [saveLogData_full hfull hnew] at hok
        cases hok
      have hlt : (logBills contents).length < singleLogFileCount := by
        refine Nat.lt_of_le_of_ne hf.le fun hlen => hroom ?_
        rw [hf.count, hlen]
        decide
      have hne : bill.data ≠ [] := by
        rintro hnil
        simp [saveLogData, closeFull, openLog, writeBill, hfile, hroom, hnil] at hok
      have hslot : filled disk.header bill = ⟨bill.zxId,
          disk.header.endBefore (logBills contents).length, Int32.ofNat bill.data.length⟩ := by
        rw [filled]
        rw [hf.getD_fillSlot hlt, hf.toNat_count, if_pos rfl]
      have hnew' := hf.writeBill hlt hne hid (hsmall file contents hopen)
      have hlen := hf.length_writeBill bill.data (fillSlot disk.header bill)
      have hdisk : disk' = ⟨disk.dir.store file (fwrite (fwrite contents (disk.header.endBefore
          (logBills contents).length).toNatClampNeg bill.data) 0
          (LogHeader.codec.encode (fillSlot disk.header bill))), some file,
          fillSlot disk.header bill⟩ := by
        simpa [saveLogData, closeFull, openLog, writeBill, hfile, hroom, hne, hslot, hopen]
          using hsave.symm
      generalize fwrite (fwrite contents (disk.header.endBefore
        (logBills contents).length).toNatClampNeg bill.data) 0
        (LogHeader.codec.encode (fillSlot disk.header bill)) = new
        at hnew' hlen hdisk
      subst hdisk
      refine ⟨opened_store hopen hnew' hopened.holds (hopened.last file hfile),
        ⟨rfl, Dir.logIds_store .., hfile.symm,
          fun h => absurd (hfile.symm.trans h) (Option.some_ne_none file), fun id => ?_⟩, ?_⟩
      · change (disk.dir.store file new).bills id = _
        rw [Dir.bills_store hopen, hfile]
        split
        next heq => rw [heq, if_pos rfl, hnew'.logBills_eq, hbills]
        next hother => rw [if_neg fun heq => hother (Option.some.inj heq).symm]
      · intro id got hgot
        rcases Dir.open_store_some hgot with ⟨rfl, rfl⟩ | hgot
        · exact ⟨contents, hopen, hlen⟩
        · exact ⟨got, hgot, Nat.le_add_right ..⟩

/-- A bill is saved while the open file has room. -/
theorem Disk.saveLogData_room {disk : Disk} {bill : Bill} {file : Int64} (hopened : disk.Opened)
    (hfile : disk.lastLogFile = some file) (hroom : (disk.dir.bills file).length < 100)
    (hne : bill.data ≠ []) : ∃ disk', disk.saveLogData bill = (disk', true) := by
  obtain ⟨contents, hopen, hf⟩ := hopened.header file hfile
  rw [Dir.bills_open hopen] at hroom
  have hcount : ¬ (100 : Int32) ≤ disk.header.count := by
    rw [hf.count, Int32.le_iff_toInt_le, Int32.toInt_ofNat_of_lt (by omega)]
    have hhundred : (100 : Int32).toInt = 100 := rfl
    omega
  simp [saveLogData, closeFull, openLog, writeBill, hfile, hcount, hne]

/-- A bill above all others keeps a directory as it is meant to be. -/
theorem Dir.Intact.appended {disk disk' : Disk} {bill : Bill} (hdir : disk.dir.Intact)
    (hopened : disk.Opened) (hopened' : disk'.Opened) (happ : disk.Appended disk' [bill])
    (hnext : ∀ id ∈ disk.dir.logIds, ∀ b ∈ disk.dir.bills id, b.zxId < bill.zxId) :
    disk'.dir.Intact := by
  constructor
  case nodup => exact happ.ids ▸ hdir.nodup
  case holds => exact hopened'.holds
  case positive => exact happ.ids ▸ hdir.positive
  case named =>
    intro id hid
    rw [happ.ids] at hid
    have hnamed := hdir.named id hid
    rw [happ.bills]
    split
    next =>
      obtain ⟨first, hhead, hname⟩ := Option.map_eq_some_iff.mp hnamed
      obtain ⟨rest, hrest⟩ := List.head?_eq_some_iff.mp hhead
      rw [hrest, List.cons_append, List.head?_cons, Option.map_some, hname]
    next => exact hnamed
  case sorted =>
    intro id hid
    rw [happ.ids] at hid
    rw [happ.bills]
    split
    next =>
      refine List.pairwise_append.mpr ⟨hdir.sorted id hid, List.pairwise_singleton .., ?_⟩
      intro b hb b' hb'
      rw [List.mem_singleton.mp hb']
      exact hnext id hid b hb
    next => exact hdir.sorted id hid
  case apart =>
    intro id hid other hother hlt
    rw [happ.ids] at hid hother
    rw [happ.bills]
    split
    next hfile => exact absurd (hopened.last id hfile other hother) (Int64.not_le.mpr hlt)
    next => exact hdir.apart id hid other hother hlt

/-- A directory with one log file of these bills, which is open. -/
structure Disk.OneFile (disk : Disk) (snaps : List (Int64 × Bytes)) (saved : List Bill)
    (file : Int64) : Prop where
  intact : disk.dir.Intact
  opened : disk.Opened
  lastLogFile : disk.lastLogFile = some file
  ids : disk.dir.logIds = [file]
  bills : disk.dir.bills file = saved
  snap : disk.dir.snap = snaps
  size : ∀ id contents, disk.dir.open_ id = some contents →
    contents.length ≤ 1612 + (saved.map fun bill => bill.data.length).sum

theorem Disk.oneFile_one (snap : List (Int64 × Bytes)) {bill : Bill} (hpos : 0 < bill.zxId)
    (hne : bill.data ≠ []) (hsmall : 1612 + bill.data.length < 2 ^ 31) :
    OneFile ⟨Dir.one bill snap, some bill.zxId, FileHolds.oneHeader bill⟩ snap [bill]
      bill.zxId := by
  have hid : bill.zxId ≠ 0 := fun hzero => Std.lt_irrefl (hzero ▸ hpos)
  have hbills := (Dir.one_holds hpos hne hsmall snap).2
  have hopen : (Dir.one bill snap).open_ bill.zxId = some (FileHolds.oneFile bill) :=
    List.lookup_cons_self
  have hf := FileHolds.one hne hid hsmall
  have hintact := Dir.Intact.one hpos hne hsmall snap
  refine ⟨hintact, ⟨hintact.holds, nofun, ?_, ?_⟩, rfl, rfl, hbills, rfl, ?_⟩
  · rintro id ⟨⟩
    exact ⟨_, hopen, hf.logBills_eq.symm ▸ hf⟩
  · rintro id ⟨⟩ other hother
    rw [List.mem_singleton.mp hother]
    exact Int64.le_refl _
  · intro id contents hcontents
    have hname := List.mem_singleton.mp (Dir.mem_logIds hcontents)
    cases hopen.symm.trans (hname ▸ hcontents)
    rw [FileHolds.oneFile, List.length_append, Codec.length_encode, LogHeader.codec_size]
    simp

/-- The next bill is saved behind the others. -/
theorem Disk.OneFile.save {disk : Disk} {snaps : List (Int64 × Bytes)} {saved : List Bill}
    {file : Int64} {bill : Bill} (h : disk.OneFile snaps saved file)
    (hnext : ∀ b ∈ saved, b.zxId < bill.zxId) (hroom : saved.length < 100)
    (hne : bill.data ≠ [])
    (hsmall : 1612 + (saved.map fun b => b.data.length).sum + bill.data.length < 2 ^ 31) :
    ∃ disk', disk.saveLogData bill = (disk', true) ∧
      disk'.OneFile snaps (saved ++ [bill]) file := by
  have hids : ∀ id ∈ disk.dir.logIds, id = file := fun id hid =>
    List.mem_singleton.mp (h.ids ▸ hid)
  have hfile : file < bill.zxId := by
    obtain ⟨first, hhead, hname⟩ :=
      Option.map_eq_some_iff.mp (h.intact.named file (by rw [h.ids]; exact .head _))
    rw [h.bills] at hhead
    exact hname ▸ hnext first (List.mem_of_head? hhead)
  obtain ⟨disk', hsave⟩ := saveLogData_room h.opened h.lastLogFile (h.bills.symm ▸ hroom) hne
  obtain ⟨hopened, happ, hsize⟩ := saveLogData_opened h.opened hsave h.intact.positive
    (fun id hid => hids id hid ▸ hfile) (fun id contents hopen => by
      have := h.size id contents hopen
      omega)
  refine ⟨disk', hsave, h.intact.appended h.opened hopened happ ?_, hopened,
    happ.file.trans h.lastLogFile, happ.ids.trans h.ids, ?_, happ.snap.trans h.snap, ?_⟩
  · intro id hid b hb
    rw [hids id hid, h.bills] at hb
    exact hnext b hb
  · rw [happ.bills, if_pos h.lastLogFile, h.bills]
  · intro id contents hopen
    obtain ⟨old, hold, hle⟩ := hsize id contents hopen
    have := h.size id old hold
    rw [List.map_append, List.sum_append, List.map_singleton, List.sum_singleton]
    omega

/-- Up to one hundred bills can be laid out in a file, one save after the other. -/
theorem Disk.exists_oneFile (snap : List (Int64 × Bytes)) {bill : Bill} (hpos : 0 < bill.zxId)
    (bills : List Bill) (hsorted : (bill :: bills).Pairwise fun a b => a.zxId < b.zxId)
    (hne : ∀ b ∈ bill :: bills, b.data ≠ []) (hroom : bills.length < 100)
    (hsmall : 1612 + ((bill :: bills).map fun b => b.data.length).sum < 2 ^ 31) :
    ∃ disk : Disk, disk.OneFile snap (bill :: bills) bill.zxId := by
  induction bills using List.reverseRecOn with
  | nil =>
      rw [List.map_singleton, List.sum_singleton] at hsmall
      exact ⟨_, oneFile_one snap hpos (hne bill (.head _)) hsmall⟩
  | append_singleton bills b ih =>
      rw [List.length_append, List.length_singleton] at hroom
      rw [← List.cons_append] at hsorted hne hsmall ⊢
      rw [List.map_append, List.sum_append, List.map_singleton, List.sum_singleton] at hsmall
      obtain ⟨hsorted, -, hlt⟩ := List.pairwise_append.mp hsorted
      obtain ⟨disk, hone⟩ := ih hsorted (fun a ha => hne a (List.mem_append_left _ ha)) (by omega)
        (by omega)
      have hlen : (bill :: bills).length < 100 := by
        rw [List.length_cons]
        omega
      obtain ⟨disk', -, hone'⟩ := hone.save (fun a ha => hlt a ha b (.head _)) hlen
        (hne b (List.mem_append_right _ (.head _))) (by omega)
      exact ⟨disk', hone'⟩

end Paxos
