import Mathlib.Data.List.Flatten
import Zookeeper.Paxos.SnapRestart

/-!
# The log files that `Load` reads

`DataSet::Load` starts from the newest snapshot, and reads a log file only if its name plus
one hundred is above the snapshot's id: a file has no more than one hundred bills
(`paxos/transaction/dataset.cpp`).  But the ids of these bills need not follow each other.
When the leader changes, the epoch in the upper half of an id grows and the file is not
closed, so the last bills of a file can be far above its name.

`load_complete_iff` says that `Load` applies all bills above the snapshot, and no others, if
and only if every file that has such a bill is read.  `epoch_change_skipped` is a directory
whose only log file is not.
-/

namespace Paxos

variable {σ τ : Type}

/-! ## Lists -/

/-- What an ascending list has above an id. -/
theorem newer_eq_above {bills : List Bill} (h : bills.Pairwise fun a b => a.zxId < b.zxId)
    (zxId : Int64) : newer bills zxId = above zxId bills := by
  induction bills generalizing zxId with
  | nil => rfl
  | cons bill bills ih =>
      obtain ⟨hnext, hsorted⟩ := List.pairwise_cons.mp h
      rw [newer]
      split
      next habove =>
        have hall : ∀ b ∈ bill :: bills, zxId < b.zxId := by
          intro b hb
          rcases List.mem_cons.mp hb with rfl | hb
          · exact habove
          · exact Int64.lt_trans habove (hnext b hb)
        rw [(Store.newer_ascending bills bill.zxId hsorted hnext).1]
        exact (List.filter_eq_self.mpr fun b hb => decide_eq_true (hall b hb)).symm
      next hle => rw [ih hsorted, above, above, List.filter_cons_of_neg (by simpa using hle)]

theorem above_flatMap {ids : List Int64} (zxId : Int64) (f : Int64 → List Bill) :
    above zxId (ids.flatMap f) = ids.flatMap fun id => above zxId (f id) :=
  List.filter_flatMap

/-- Entries that give nothing can be left out. -/
theorem flatMap_filter_of_nil {ids : List Int64} {p : Int64 → Bool} {f : Int64 → List Bill}
    (h : ∀ id ∈ ids, p id = false → f id = []) : (ids.filter p).flatMap f = ids.flatMap f := by
  induction ids with
  | nil => rfl
  | cons id ids ih =>
      have hrest := ih fun id hid => h id (.tail _ hid)
      rw [List.filter_cons]
      split
      next => rw [List.flatMap_cons, List.flatMap_cons, hrest]
      next hp => rw [List.flatMap_cons, h id (.head _) (by simpa using hp), List.nil_append, hrest]

/-! ## The bills of a directory -/

namespace Dir

/-- The log files, oldest first. -/
def sortedIds (dir : Dir) : List Int64 := dir.logIds.mergeSort fun a b => a ≤ b

/-- All bills in the log files. -/
def logged (dir : Dir) : List Bill := dir.sortedIds.flatMap dir.bills

variable {dir : Dir}

theorem mem_sortedIds {id : Int64} : id ∈ dir.sortedIds ↔ id ∈ dir.logIds := List.mem_mergeSort

theorem sortedIds_le (dir : Dir) : dir.sortedIds.Pairwise (· ≤ ·) :=
  List.pairwise_mergeSort' (· ≤ ·) _

/-- The wanted files are read in this order. -/
theorem wantedLogs_eq (dir : Dir) (zxId : Int64) :
    Store.wantedLogs dir zxId = dir.sortedIds.filter fun id => zxId < id + 100 := by
  refine List.Perm.eq_of_pairwise (fun a b _ _ => Int64.le_antisymm) ?_
    (dir.sortedIds_le.sublist List.filter_sublist) ?_
  · exact List.pairwise_mergeSort' (· ≤ ·) _
  · refine (List.mergeSort_perm _ _).trans ?_
    exact ((List.mergeSort_perm dir.logIds _).symm).filter _

namespace Intact

variable (h : dir.Intact)

include h

theorem sortedIds_lt : dir.sortedIds.Pairwise (· < ·) := by
  have hnodup : dir.sortedIds.Nodup := (List.mergeSort_perm _ _).nodup_iff.mpr h.nodup
  refine (dir.sortedIds_le.and hnodup).imp ?_
  rintro a b ⟨hle, hne⟩
  exact Std.lt_of_le_of_ne hle hne

/-- No bill is below the name of its file. -/
theorem name_le {id : Int64} (hid : id ∈ dir.logIds) : ∀ bill ∈ dir.bills id, id ≤ bill.zxId := by
  intro bill hbill
  obtain ⟨first, hhead, hname⟩ := Option.map_eq_some_iff.mp (h.named id hid)
  have hsorted := h.sorted id hid
  obtain ⟨rest, hrest⟩ := List.head?_eq_some_iff.mp hhead
  rw [hrest] at hbill hsorted
  rw [← hname]
  rcases List.mem_cons.mp hbill with rfl | hbill
  · exact Int64.le_refl _
  · exact Int64.le_of_lt ((List.pairwise_cons.mp hsorted).1 bill hbill)

theorem logged_ascending : dir.logged.Pairwise fun a b => a.zxId < b.zxId := by
  refine List.pairwise_flatMap.mpr ⟨fun id hid => h.sorted id (mem_sortedIds.mp hid), ?_⟩
  refine h.sortedIds_lt.imp_of_mem fun {id other} hid hother hlt a ha b hb => ?_
  have hid := mem_sortedIds.mp hid
  have hother := mem_sortedIds.mp hother
  exact Int64.lt_of_lt_of_le (h.apart id hid other hother hlt a ha) (h.name_le hother b hb)

/-- A bill is in one file only. -/
theorem bills_disjoint {id other : Int64} (hid : id ∈ dir.logIds) (hother : other ∈ dir.logIds)
    {bill : Bill} (hbill : bill ∈ dir.bills id) (hbill' : bill ∈ dir.bills other) : id = other := by
  rcases Std.lt_trichotomy id other with hlt | heq | hlt
  · have := h.apart id hid other hother hlt bill hbill
    exact absurd (h.name_le hother bill hbill') (Int64.not_le.mpr this)
  · exact heq
  · have := h.apart other hother id hid hlt bill hbill'
    exact absurd (h.name_le hid bill hbill) (Int64.not_le.mpr this)

end Intact

end Dir

/-! ## Complete loads -/

namespace Store

variable (m : Machine σ τ) (loader : SnapLoader σ) (init : σ) (h : LogHeader) (count : Nat)

/-- A new data set that starts from `d`, which is what the snapshot gives it, applies and logs
the bills above, in order, and no others. -/
def LoadsComplete (dir : Dir) (d : DataSet σ) : Prop :=
  ∃ state, m.replay d.stateData (above d.zxId dir.logged) = some state ∧
    ((fresh init h dir).load m loader count).map
      (fun s => (s.dataset.stateData, s.dataset.commitLog)) =
        some (state, above d.zxId dir.logged)

/-- Every log file with a bill above an id is wanted. -/
def ReadsAll (dir : Dir) (zxId : Int64) : Prop :=
  ∀ id ∈ dir.logIds, (∃ bill ∈ dir.bills id, zxId < bill.zxId) → zxId < id + 100

variable {m loader init h count} {dir : Dir} {d : DataSet σ}

theorem loadSnap_commitLog (hsnap : loadSnap loader { stateData := init } dir = some d) :
    d.commitLog = [] := by
  rw [loadSnap] at hsnap
  split at hsnap
  next =>
    cases hsnap
    rfl
  next =>
    obtain ⟨s, _, rfl⟩ := Option.map_eq_some_iff.mp hsnap
    rfl

/-- The bills above in the wanted files. -/
def wantedBills (dir : Dir) (zxId : Int64) : List Bill :=
  above zxId ((wantedLogs dir zxId).flatMap dir.bills)

theorem load_wanted (hdir : dir.Intact)
    (hsnap : loadSnap loader { stateData := init } dir = some d) :
    ((fresh init h dir).load m loader count).map
      (fun s => (s.dataset.stateData, s.dataset.commitLog)) =
        (m.replay d.stateData (wantedBills dir d.zxId)).map
          fun s => (s, wantedBills dir d.zxId) := by
  have hascend : ((wantedLogs dir d.zxId).flatMap dir.bills).Pairwise
      fun a b => a.zxId < b.zxId := by
    rw [Dir.wantedLogs_eq]
    exact hdir.logged_ascending.sublist (List.filter_sublist.flatMap _)
  have hload := load_dataset (m := m) (s := fresh init h dir) loader count hdir.holds
  have hboth := congrArg (Option.map fun d => (d.stateData, d.commitLog)) hload
  rw [Option.map_map, Option.map_map] at hboth
  refine hboth.trans ?_
  change ((loadSnap loader { stateData := init } dir).bind fun d =>
    d.absorb m ((wantedLogs dir d.zxId).flatMap dir.bills)).map _ = _
  rw [hsnap, Option.bind_some, DataSet.absorb, newer_eq_above hascend, loadSnap_commitLog hsnap,
    Option.map_map]
  rfl

/-- If every file is wanted that has a bill above, none is missed. -/
theorem wantedBills_of_readsAll {zxId : Int64} (hall : ReadsAll dir zxId) :
    wantedBills dir zxId = above zxId dir.logged := by
  rw [wantedBills, Dir.wantedLogs_eq, Dir.logged, above_flatMap, above_flatMap]
  refine flatMap_filter_of_nil fun id hid hskip => ?_
  refine List.filter_eq_nil_iff.mpr fun bill hbill habove => ?_
  have hwanted := hall id (Dir.mem_sortedIds.mp hid) ⟨bill, hbill, of_decide_eq_true habove⟩
  exact of_decide_eq_false hskip hwanted

/-- If no bill is missed, every file is wanted that has one. -/
theorem readsAll_of_wantedBills (hdir : dir.Intact) {zxId : Int64}
    (heq : wantedBills dir zxId = above zxId dir.logged) : ReadsAll dir zxId := by
  rintro id hid ⟨bill, hbill, habove⟩
  have hlogged : bill ∈ above zxId dir.logged := by
    refine List.mem_filter.mpr ⟨?_, decide_eq_true habove⟩
    exact List.mem_flatMap.mpr ⟨id, Dir.mem_sortedIds.mpr hid, hbill⟩
  rw [← heq] at hlogged
  obtain ⟨other, hother, hbill'⟩ := List.mem_flatMap.mp (List.mem_filter.mp hlogged).1
  obtain ⟨hother, hwanted⟩ := mem_wantedLogs.mp hother
  rwa [hdir.bills_disjoint hid hother hbill hbill']

/-- `Load` replays everything behind the snapshot if and only if it can be applied, and every
file that has some of it is wanted. -/
theorem load_complete_iff (m : Machine σ τ) (loader : SnapLoader σ) (init : σ) (h : LogHeader)
    (count : Nat) {dir : Dir} {d : DataSet σ} (hdir : dir.Intact)
    (hsnap : loadSnap loader { stateData := init } dir = some d) :
    LoadsComplete m loader init h count dir d ↔
      (m.replay d.stateData (above d.zxId dir.logged)).isSome ∧ ReadsAll dir d.zxId := by
  rw [LoadsComplete, load_wanted hdir hsnap]
  constructor
  · rintro ⟨state, hstate, hload⟩
    obtain ⟨s, _, heq⟩ := Option.map_eq_some_iff.mp hload
    exact ⟨Option.isSome_of_eq_some hstate,
      readsAll_of_wantedBills hdir (Prod.mk.inj heq).2⟩
  · rintro ⟨hsome, hall⟩
    obtain ⟨state, hstate⟩ := Option.isSome_iff_exists.mp hsome
    refine ⟨state, hstate, ?_⟩
    rw [wantedBills_of_readsAll hall, hstate]
    rfl

/-- One snapshot. -/
theorem loadSnap_one {id : Int64} {data : Bytes} (hsnap : dir.snap = [(id, data)]) :
    loadSnap (fun _ data => some data) { stateData := ([] : Bytes) } dir =
      some { stateData := data, minZxId := id, zxId := id } := by
  rw [loadSnap, hsnap, List.mergeSort_singleton]
  rfl

/-- The bill behind the snapshot is in the next log file. -/
theorem load_complete_nextFile :
    LoadsComplete Machine.tape (fun _ data => some data) [] {} 100000
      (.one ⟨zxIdOf 1 2, [66]⟩ [(zxIdOf 1 1, [65])])
      { stateData := [65], minZxId := zxIdOf 1 1, zxId := zxIdOf 1 1 } := by
  have hpos : 0 < (⟨zxIdOf 1 2, [66]⟩ : Bill).zxId := by decide
  have hbills : (Dir.one ⟨zxIdOf 1 2, [66]⟩ [(zxIdOf 1 1, [65])]).bills (zxIdOf 1 2) =
      [⟨zxIdOf 1 2, [66]⟩] := (Dir.one_holds hpos (by decide) (by decide) _).2
  refine (load_complete_iff Machine.tape _ [] {} 100000 (.one hpos (by decide) (by decide) _)
    (loadSnap_one rfl)).mpr ⟨?_, fun id hid _ => ?_⟩
  · rw [Dir.logged, Dir.sortedIds, Dir.logIds, Dir.one, List.map_singleton,
      List.mergeSort_singleton, List.flatMap_singleton]
    change Option.isSome (Machine.replay _ _ (above _ (Dir.bills (Dir.one _ _) _)))
    rw [hbills]
    rfl
  · rw [List.mem_singleton.mp hid]
    decide

/-- A file was open when the leader changed, and the snapshot is behind its second bill.  The
file is not read, and the last bill is lost. -/
theorem epoch_change_skipped :
    ¬ ∀ (dir : Dir) (d : DataSet Bytes), dir.Intact →
      loadSnap (fun _ data => some data) { stateData := [] } dir = some d →
      LoadsComplete Machine.tape (fun _ data => some data) [] {} 100000 dir d := by
  intro hall
  have hfile : ∃ disk : Disk, disk.OneFile [(zxIdOf 2 1, [65, 66])]
      [⟨zxIdOf 1 1, [65]⟩, ⟨zxIdOf 2 1, [66]⟩, ⟨zxIdOf 2 2, [67]⟩] (zxIdOf 1 1) :=
    Disk.exists_oneFile _ (by decide) _ (by decide) (by decide) (by decide) (by decide)
  obtain ⟨disk, hone⟩ := hfile
  have hsnap := loadSnap_one hone.snap
  obtain ⟨state, -, hload⟩ := hall disk.dir _ hone.intact hsnap
  rw [load_wanted hone.intact hsnap] at hload
  obtain ⟨s, -, heq⟩ := Option.map_eq_some_iff.mp hload
  have hreads := readsAll_of_wantedBills hone.intact (Prod.mk.inj heq).2
  have hwanted := hreads (zxIdOf 1 1) (by rw [hone.ids]; exact .head _)
    ⟨⟨zxIdOf 2 2, [67]⟩, by rw [hone.bills]; decide, by decide⟩
  exact absurd hwanted (by decide)

end Store

end Paxos
