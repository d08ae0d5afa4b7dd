import Zookeeper.Paxos.LogReading
import Zookeeper.Paxos.LogSelection

/-!
# A truncation and a restart

`DataSet::Trunc` takes the log back to an id: it rolls the bills above it back, removes
the log files above it, and clears the slots above it in the last file that is left.
`DataSet::Snap` removes the later snapshots, too, and `Trunc` does not
(`paxos/transaction/dataset.cpp`).

`stays_dead_iff` says, for any directory, when nothing that was cut comes back with the
next `Load`, whatever is proposed in between.  `later_snapshot_starts` is a snapshot
behind the id, from which the next `Load` starts.
-/

namespace Paxos

/-! ## The slots of the file that is cut -/

/-- The loop of `TruncFile` leaves nothing above `start` in the slots it counts. -/
theorem truncSlots_range' (start : Int64) (n i : Nat) (h : LogHeader) (c : Nat)
    (hc : c ≤ i) (hi : i ≤ singleLogFileCount)
    (hleft : ∀ j < i, (h.logs.getD j {}).zxId = 0 ∨ (h.logs.getD j {}).zxId ≤ start) :
    ∃ c' k, (Disk.truncSlots start (List.range' i n) h (Int32.ofNat c)).2 = Int32.ofNat c' ∧
      c' ≤ k ∧ k ≤ singleLogFileCount ∧
      ∀ j < k, ((Disk.truncSlots start (List.range' i n) h (Int32.ofNat c)).1.logs.getD j {}).zxId
          = 0 ∨
        ((Disk.truncSlots start (List.range' i n) h (Int32.ofNat c)).1.logs.getD j {}).zxId
          ≤ start := by
  induction n generalizing i h c with
  | zero => exact ⟨c, i, rfl, hc, hi, hleft⟩
  | succ n ih =>
      rw [List.range'_succ, Disk.truncSlots]
      split
      next => exact ⟨c, i, rfl, hc, hi, hleft⟩
      next hne =>
        have hlt : i < singleLogFileCount := by
          by_contra hge
          refine hne ?_
          simp [Vector.getD, hge]
        split
        next =>
          refine ih (i + 1) _ c (by omega) hlt fun j hj => ?_
          dsimp only
          rw [getD_setIfInBounds]
          split
          next => exact .inl rfl
          next hother => exact hleft j (by omega)
        next hle =>
          have hsucc : Int32.ofNat c + 1 = Int32.ofNat (c + 1) := (Int32.ofNat_add c 1).symm
          rw [hsucc]
          refine ih (i + 1) h (c + 1) (by omega) hlt fun j hj => ?_
          rcases Nat.lt_succ_iff_lt_or_eq.mp hj with hj | rfl
          · exact hleft j hj
          · exact .inr (Std.not_lt.mp hle)

namespace LogHeader

variable {h : LogHeader} {slot : LogDesc}

/-- A used slot is one of those the count covers. -/
theorem getD_of_mem_used (hslot : slot ∈ h.used) :
    ∃ j < h.count.toNatClampNeg, h.logs.getD j {} = slot ∧ slot.zxId ≠ 0 := by
  have hne := List.all_eq_true.mp List.all_takeWhile slot hslot
  have hmem := (List.takeWhile_sublist _).subset hslot
  obtain ⟨j, hj, hget⟩ := List.mem_iff_getElem.mp hmem
  rw [List.length_take, Vector.length_toList] at hj
  refine ⟨j, by omega, ?_, of_decide_eq_true hne⟩
  have hlogs : j < singleLogFileCount := by omega
  rw [List.getElem_take] at hget
  simpa [Vector.getD, hlogs] using hget

/-- What `TruncFile` leaves of a header has no slots above `start`. -/
theorem used_trunc {start : Int64} {header : LogHeader} {count : Int32} {is : Nat}
    (htrunc : Disk.truncSlots start (List.range is) h 0 = (header, count))
    (hslot : slot ∈ LogHeader.used { header with count := count }) : slot.zxId ≤ start := by
  obtain ⟨c, k, hcount, hck, hk, hleft⟩ :=
    truncSlots_range' start is 0 h 0 (Nat.le_refl 0) (Nat.zero_le _) nofun
  have hzero : (0 : Int32) = Int32.ofNat 0 := rfl
  rw [List.range_eq_range', hzero] at htrunc
  rw [htrunc] at hcount hleft
  obtain ⟨j, hj, heq, hne⟩ := getD_of_mem_used hslot
  dsimp only at hcount hj heq
  rw [singleLogFileCount] at hk
  rw [hcount, Int32.toNatClampNeg_ofNat_of_lt (by omega)] at hj
  rcases hleft j (by omega) with hempty | hle
  · exact absurd (heq ▸ hempty) hne
  · exact heq ▸ hle

/-- The next slot is the only one that is used more. -/
theorem used_fillSlot {bill : Bill} (hroom : ¬ (100 : Int32) ≤ h.count)
    (hslot : slot ∈ (Disk.fillSlot h bill).used) : slot ∈ h.used ∨ slot.zxId = bill.zxId := by
  by_cases hneg : h.count < 0
  · obtain ⟨j, hj, -, -⟩ := getD_of_mem_used hslot
    have hcount : (Disk.fillSlot h bill).count = h.count + 1 := rfl
    exfalso
    rw [hcount, ← Int32.toNat_toInt, Int32.toInt_add] at hj
    rw [Int32.lt_iff_toInt_lt, Int32.toInt_zero] at hneg
    have hmin := h.count.le_toInt
    have hone : (1 : Int32).toInt = 1 := rfl
    rw [hone, Int.bmod_eq_of_le (by omega) (by omega)] at hj
    omega
  · have hidx : h.count.toNatClampNeg < singleLogFileCount ∧
        (Disk.fillSlot h bill).count.toNatClampNeg = h.count.toNatClampNeg + 1 := by
      have hcount : (Disk.fillSlot h bill).count = h.count + 1 := rfl
      have hone : (1 : Int32).toInt = 1 := rfl
      have hhundred : (100 : Int32).toInt = 100 := rfl
      rw [Int32.lt_iff_toInt_lt, Int32.toInt_zero] at hneg
      rw [Int32.le_iff_toInt_le, hhundred] at hroom
      rw [hcount, singleLogFileCount, ← Int32.toNat_toInt, ← Int32.toNat_toInt, Int32.toInt_add,
        hone, Int.bmod_eq_of_le (by omega) (by omega)]
      omega
    obtain ⟨hlt, hnext⟩ := hidx
    have hlogs : ∃ new : LogDesc, new.zxId = bill.zxId ∧
        (Disk.fillSlot h bill).logs.toList = h.logs.toList.set h.count.toNatClampNeg new := by
      refine ⟨_, ?_, Vector.toList_setIfInBounds⟩
      rfl
    obtain ⟨new, hid, hset⟩ := hlogs
    have hlen : h.count.toNatClampNeg < (h.logs.toList.set h.count.toNatClampNeg new).length := by
      rw [List.length_set, Vector.length_toList]
      exact hlt
    rw [used, hnext, hset, List.take_succ_eq_append_getElem hlen, List.getElem_set_self,
      List.take_set_of_le (Nat.le_refl _), List.takeWhile_append] at hslot
    split at hslot
    next hall =>
      rcases List.mem_append.mp hslot with hslot | hslot
      · left
        rw [used, (List.takeWhile_sublist _).eq_of_length hall]
        exact hslot
      · have hnew := (List.takeWhile_sublist _).subset hslot
        exact .inr (List.mem_singleton.mp hnew ▸ hid)
    next => exact .inl hslot

end LogHeader

/-! ## The directory behind a cut -/

/-- The log file that is cut at an id: the last one up to it, or zero for none. -/
def Dir.cutFile (dir : Dir) (zxId : Int64) : Int64 :=
  (dir.remove fun id => decide (zxId < id)).logIds.foldl
    (fun biggest id => if biggest < id then id else biggest) 0

/-- A log file up to an id that is left as it is. -/
def Dir.Uncut (dir : Dir) (zxId id : Int64) : Prop :=
  id ≤ zxId ∧ (dir.cutFile zxId = 0 ∨ id ≠ dir.cutFile zxId)

instance (dir : Dir) (zxId id : Int64) : Decidable (dir.Uncut zxId id) := by
  unfold Dir.Uncut
  infer_instance

theorem Dir.le_cutFile {dir : Dir} {zxId id : Int64} (hid : id ∈ dir.logIds) (hle : id ≤ zxId) :
    id ≤ dir.cutFile zxId := by
  refine (foldl_biggest _ 0).2.2 id ?_
  rw [logIds_remove]
  exact List.mem_filter.mpr ⟨hid, decide_eq_true hle⟩

/-- A directory that was cut at an id, where bills with these ids were saved since. -/
structure Disk.AfterCut (dir : Dir) (zxId : Int64) (disk : Disk) (more : List Int64) : Prop where
  snap : disk.dir.snap = dir.snap
  ids : disk.dir.logIds = dir.logIds.filter fun id => decide (id ≤ zxId)
  uncut : ∀ id, dir.Uncut zxId id → disk.dir.open_ id = dir.open_ id
  file : disk.lastLogFile = if dir.cutFile zxId = 0 then none else some (dir.cutFile zxId)
  header : dir.cutFile zxId ≠ 0 → ∃ contents rest,
    disk.dir.open_ (dir.cutFile zxId) = some contents ∧
      LogHeader.codec.read contents = some (disk.header, rest)
  used : dir.cutFile zxId ≠ 0 → ∀ slot ∈ disk.header.used, slot.zxId ≤ zxId ∨ slot.zxId ∈ more

namespace Disk

variable {dir : Dir} {zxId : Int64} {disk disk' : Disk} {more : List Int64}

/-- A file that is cut is left open, with its header in memory. -/
theorem truncFile_none {file start : Int64} (h : disk.truncFile file start = (disk', none)) :
    ∃ old new header rest, disk.dir.open_ file = some old ∧
      disk' = ⟨disk.dir.store file new, some file, header⟩ ∧
      LogHeader.codec.read new = some (header, rest) ∧
      ∀ slot ∈ header.used, slot.zxId ≤ start := by
  rw [truncFile] at h
  split at h
  next => cases h
  next old hopen =>
    split at h
    next => cases h
    next header _ _ =>
      cases htrunc : truncSlots start (List.range header.count.toNatClampNeg) header 0 with
      | mk cut count =>
          rw [htrunc] at h
          cases h
          obtain ⟨rest, hread⟩ := FileHolds.read_fwrite old { cut with count := count }
          exact ⟨old, _, _, rest, hopen, rfl, hread, fun _ => LogHeader.used_trunc htrunc⟩

theorem afterCut_cutLogs (hcut : disk.cutLogs zxId = (disk', none)) :
    AfterCut disk.dir zxId disk' [] := by
  have hids := disk.dir.logIds_remove zxId
  have hopens : ∀ id ≤ zxId, (disk.dir.remove fun id => decide (zxId < id)).open_ id =
      disk.dir.open_ id := by
    intro id hid
    rw [Dir.open_remove, if_neg (by simpa using Std.not_lt.mpr hid)]
  rw [cutLogs_eq] at hcut
  change (if disk.dir.cutFile zxId = 0 then _
    else truncFile _ (disk.dir.cutFile zxId) _) = _ at hcut
  split at hcut
  next hzero =>
    cases hcut
    exact ⟨rfl, hids, fun id hid => hopens id hid.1, (if_pos hzero).symm,
      fun hne => absurd hzero hne, fun hne => absurd hzero hne⟩
  next hne =>
    obtain ⟨old, new, header, rest, hopen, rfl, hread, hused⟩ := truncFile_none hcut
    refine ⟨rfl, (Dir.logIds_store ..).trans hids, fun id hid => ?_, (if_neg hne).symm,
      fun _ => ⟨new, rest, ?_, hread⟩, fun _ slot hslot => .inl (hused slot hslot)⟩
    · rw [Dir.open_store, if_neg (hid.2.resolve_left hne)]
      exact hopens id hid.1
    · rw [Dir.open_store, if_pos rfl, hopen, Option.map_some]

/-- A bill above the id is saved into the file that was cut. -/
theorem AfterCut.save (h : AfterCut dir zxId disk more) {bill : Bill} (hlt : zxId < bill.zxId)
    (hsave : disk.saveLogData bill = (disk', true)) :
    AfterCut dir zxId disk' (more ++ [bill.zxId]) := by
  have hok : (disk.saveLogData bill).2 = true := by rw [hsave]
  have hnew : bill.zxId ∉ disk.dir.logIds := by
    intro hmem
    rw [h.ids, List.mem_filter, decide_eq_true_iff] at hmem
    exact Std.not_lt.mpr hmem.2 hlt
  have hroom : ¬ (100 : Int32) ≤ disk.header.count := by
    intro hfull
    rw [saveLogData_full hfull hnew] at hok
    cases hok
  have hfile := h.file
  split at hfile
  next =>
    rw [saveLogData_closed hfile hnew] at hok
    cases hok
  next hne =>
    obtain ⟨contents, rest, hopen, hread⟩ := h.header hne
    have hnonempty : bill.data ≠ [] := by
      intro hnil
      simp [saveLogData, closeFull, openLog, writeBill, hfile, hroom, hnil] at hok
    have hdisk : disk' = ⟨disk.dir.store (dir.cutFile zxId) (fwrite (fwrite contents
        (filled disk.header bill).offset.toNatClampNeg bill.data) 0
        (LogHeader.codec.encode (fillSlot disk.header bill))), some (dir.cutFile zxId),
        fillSlot disk.header bill⟩ := by
      simpa [saveLogData, closeFull, openLog, writeBill, hfile, hroom, hnonempty, hopen]
        using hsave.symm
    subst hdisk
    refine ⟨h.snap, (Dir.logIds_store ..).trans h.ids, fun id hid => ?_, (if_neg hne).symm,
      fun _ => ?_, fun _ slot hslot => ?_⟩
    · rw [Dir.open_store, if_neg (hid.2.resolve_left hne)]
      exact h.uncut id hid
    · obtain ⟨rest', hread'⟩ := FileHolds.read_fwrite
        (fwrite contents (filled disk.header bill).offset.toNatClampNeg bill.data)
        (fillSlot disk.header bill)
      refine ⟨_, rest', ?_, hread'⟩
      rw [Dir.open_store, if_pos rfl, hopen, Option.map_some]
    · rcases LogHeader.used_fillSlot hroom hslot with hold | heq
      · exact (h.used hne slot hold).imp_right (List.mem_append_left _)
      · exact .inr (heq ▸ List.mem_append_right _ (.head _))

end Disk

/-! ## The next load -/

/-- A list in order, in two parts: nothing of the first follows on the second. -/
theorem filter_append_filter_not {ids : List Int64} (hsorted : ids.Pairwise (· ≤ ·))
    {p : Int64 → Bool}
    (hlast : ∀ a ∈ ids, ∀ b ∈ ids, a ≤ b → p a = false → p b = false) :
    ids.filter p ++ ids.filter (fun id => !p id) = ids := by
  induction ids with
  | nil => rfl
  | cons id ids ih =>
      obtain ⟨hle, hsorted⟩ := List.pairwise_cons.mp hsorted
      cases hp : p id with
      | true =>
          rw [List.filter_cons_of_pos hp, List.filter_cons_of_neg (by simp [hp]), List.cons_append,
            ih hsorted fun a ha b hb => hlast a (.tail _ ha) b (.tail _ hb)]
      | false =>
          have hrest : ∀ other ∈ ids, p other = false := fun other hother =>
            hlast id (.head _) other (.tail _ hother) (hle other hother) hp
          have hnone : (id :: ids).filter p = [] := by
            refine List.filter_eq_nil_iff.mpr fun other hother => ?_
            rcases List.mem_cons.mp hother with rfl | hother
            · simp [hp]
            · simp [hrest other hother]
          rw [hnone, List.nil_append, List.filter_eq_self]
          intro other hother
          rcases List.mem_cons.mp hother with rfl | hother
          · simp [hp]
          · simp [hrest other hother]

/-- What a new data set reads from the files that are not cut. -/
def Dir.uncutBills (dir : Dir) (zxId : Int64) : List Bill :=
  (dir.readLogs ((Store.wantedLogs dir dir.startId).filter fun id => decide (dir.Uncut zxId id))
    dir.startId).1

namespace Disk.AfterCut

variable {dir : Dir} {zxId : Int64} {disk : Disk} {more : List Int64}

/-- The files that are not cut are read before the one that is. -/
theorem wantedLogs_eq (h : AfterCut dir zxId disk more) (start : Int64) :
    (Store.wantedLogs dir start).filter (fun id => decide (dir.Uncut zxId id)) ++
        (Store.wantedLogs disk.dir start).filter (fun id => !decide (dir.Uncut zxId id)) =
      Store.wantedLogs disk.dir start := by
  have hmem : ∀ id ∈ Store.wantedLogs disk.dir start, id ∈ dir.logIds ∧ id ≤ zxId := by
    intro id hid
    have hin := (List.mem_filter.mp (List.mem_mergeSort.mp hid)).1
    change id ∈ disk.dir.logIds at hin
    rw [h.ids, List.mem_filter, decide_eq_true_iff] at hin
    exact hin
  have hsorted : (Store.wantedLogs disk.dir start).Pairwise (· ≤ ·) :=
    List.pairwise_mergeSort' (· ≤ ·) _
  have hsame : (Store.wantedLogs disk.dir start).filter (fun id => decide (dir.Uncut zxId id)) =
      (Store.wantedLogs dir start).filter fun id => decide (dir.Uncut zxId id) := by
    refine List.Perm.eq_of_pairwise (fun a b _ _ => Int64.le_antisymm)
      (hsorted.sublist List.filter_sublist)
      (List.Pairwise.sublist List.filter_sublist (List.pairwise_mergeSort' (· ≤ ·) _)) ?_
    refine ((List.mergeSort_perm _ _).filter _).trans
      (.trans ?_ ((List.mergeSort_perm _ _).symm.filter _))
    change List.Perm (List.filter _ (List.filter _ disk.dir.logIds))
      (List.filter _ (List.filter _ dir.logIds))
    rw [h.ids, List.filter_filter, List.filter_filter, List.filter_filter]
    refine List.Perm.of_eq (List.filter_congr fun id _ => ?_)
    by_cases hid : dir.Uncut zxId id
    · simp [hid, hid.1]
    · simp [hid]
  rw [← hsame]
  refine filter_append_filter_not hsorted fun a ha b hb hle hcut => ?_
  -- the file that is cut is the last one
  obtain ⟨-, hale⟩ := hmem a ha
  obtain ⟨hbin, hble⟩ := hmem b hb
  rw [decide_eq_false_iff_not, Dir.Uncut, not_and, not_or, not_not] at hcut ⊢
  obtain ⟨hne, heq⟩ := hcut hale
  refine fun _ => ⟨hne, ?_⟩
  exact Int64.le_antisymm (Dir.le_cutFile hbin hble) (heq ▸ hle)

theorem startId_eq (h : AfterCut dir zxId disk more) : disk.dir.startId = dir.startId := by
  rw [Dir.startId, Dir.startId, h.snap]

/-- What is read: the files that are not cut as before, then the rest of the one that is. -/
theorem reading_eq (h : AfterCut dir zxId disk more) :
    ∃ rest, disk.dir.reading.1 = dir.uncutBills zxId ++ rest ∧
      ∀ bill ∈ rest, bill.zxId ≤ zxId ∨ bill.zxId ∈ more := by
  rw [Dir.reading, h.startId_eq, ← h.wantedLogs_eq, Dir.readLogs_append, Dir.readLogs_congr
    fun id hid => h.uncut id (of_decide_eq_true (List.mem_filter.mp hid).2), Dir.uncutBills]
  rcases dir.readLogs _ dir.startId with ⟨bills, last, ok⟩
  cases ok with
  | false => exact ⟨[], (List.append_nil bills).symm, nofun⟩
  | true =>
      refine ⟨_, rfl, fun bill hbill => ?_⟩
      obtain ⟨id, hid, contents, header, rest, hopen, hread, slot, hslot, heq⟩ :=
        Dir.mem_readLogs hbill
      obtain ⟨hwanted, hcut⟩ := List.mem_filter.mp hid
      have hin := (List.mem_filter.mp (List.mem_mergeSort.mp hwanted)).1
      change id ∈ disk.dir.logIds at hin
      rw [h.ids, List.mem_filter, decide_eq_true_iff] at hin
      rw [Bool.not_eq_true', decide_eq_false_iff_not, Dir.Uncut, not_and, not_or, not_not] at hcut
      obtain ⟨hne, rfl⟩ := hcut hin.2
      obtain ⟨contents', rest', hopen', hread'⟩ := h.header hne
      cases hopen.symm.trans hopen'
      cases hread.symm.trans hread'
      exact heq ▸ h.used hne slot hslot

end Disk.AfterCut

namespace Store

variable {σ τ : Type} {m : Machine σ τ}

/-- After a truncation and any later proposals, whatever application loads the directory
starts from no later snapshot, and replays nothing above the id but what was proposed since. -/
def StaysDead (s : Store σ) (zxId : Int64) : Prop :=
  ∀ bills s', (∀ bill ∈ bills, zxId < bill.zxId) → proposeAll bills s = (s', true) →
    ∀ (σ' τ' : Type) (m' : Machine σ' τ') (loader : SnapLoader σ') (init : σ') (h : LogHeader)
      (count : Nat) (s'' : Store σ'),
      (fresh init h s'.disk.dir).load m' loader count = some s'' →
        (s''.dataset.minZxId ∈ s'.disk.dir.snap.map Prod.fst → s''.dataset.minZxId ≤ zxId) ∧
          ∀ bill ∈ s''.dataset.commitLog, bill.zxId ≤ zxId ∨ bill.zxId ∈ bills.map Bill.zxId

theorem trunc_none {s s' : Store σ} {zxId : Int64} (h : s.trunc m zxId = (s', none)) :
    s.disk.cutLogs zxId = (s'.disk, none) := by
  rw [trunc] at h
  split at h
  next => cases h
  next =>
    cases hcut : s.disk.cutLogs zxId with
    | mk disk files =>
        rw [hcut] at h
        cases h
        rfl

/-- Successful proposals are saved, one after the other. -/
theorem afterCut_proposeAll {dir : Dir} {zxId : Int64} {more : List Int64} (bills : List Bill)
    {s s' : Store σ} (h : Disk.AfterCut dir zxId s.disk more)
    (hlt : ∀ bill ∈ bills, zxId < bill.zxId) (hall : proposeAll bills s = (s', true)) :
    Disk.AfterCut dir zxId s'.disk (more ++ bills.map Bill.zxId) := by
  induction bills generalizing s more with
  | nil =>
      cases hall
      rw [List.map_nil, List.append_nil]
      exact h
  | cons bill bills ih =>
      rw [proposeAll] at hall
      rcases hfirst : s.propose bill.zxId bill.data with ⟨s₁, ok⟩
      rcases hrest : proposeAll bills s₁ with ⟨s₂, oks⟩
      rw [hfirst] at hall
      dsimp only at hall
      rw [hrest] at hall
      obtain ⟨rfl, hok⟩ := Prod.mk.inj hall
      rw [Bool.and_eq_true] at hok
      obtain ⟨rfl, rfl⟩ := hok
      have hsave := h.save (hlt bill (.head _)) (propose_true hfirst).1
      have hafter := ih hsave (fun b hb => hlt b (.tail _ hb)) hrest
      rw [List.append_assoc, List.singleton_append] at hafter
      exact hafter

theorem le_startId {dir : Dir} {id : Int64} (hid : id ∈ dir.snap.map Prod.fst) :
    id ≤ dir.startId ∧ dir.startId ∈ dir.snap.map Prod.fst := by
  obtain ⟨file, hfile, rfl⟩ := List.mem_map.mp hid
  have hsorted : (dir.snap.mergeSort fun a b => b.1 ≤ a.1).Pairwise
      fun a b => decide (b.1 ≤ a.1) = true := by
    refine List.pairwise_mergeSort (fun a b c hab hbc => ?_) (fun a b => ?_) dir.snap
    · exact decide_eq_true (Std.le_trans (of_decide_eq_true hbc) (of_decide_eq_true hab))
    · simpa using Std.le_total
  have hmem : ∀ file, file ∈ dir.snap.mergeSort (fun a b => b.1 ≤ a.1) ↔ file ∈ dir.snap :=
    fun _ => List.mem_mergeSort
  rw [Dir.startId]
  generalize dir.snap.mergeSort (fun a b => b.1 ≤ a.1) = files at hsorted hmem
  cases files with
  | nil => exact absurd ((hmem file).mpr hfile) (List.not_mem_nil)
  | cons newest files =>
      refine ⟨?_, List.mem_map_of_mem ((hmem newest).mp (.head _))⟩
      rcases List.mem_cons.mp ((hmem file).mpr hfile) with rfl | hold
      · exact Std.le_refl _
      · exact of_decide_eq_true ((List.pairwise_cons.mp hsorted).1 file hold)

/-- What was cut at an id stays dead if and only if no snapshot is above it, and nothing
above it is read from the log files that are not cut. -/
theorem stays_dead_iff (m : Machine σ τ) (s s' : Store σ) (zxId : Int64)
    (htrunc : s.trunc m zxId = (s', none)) :
    s'.StaysDead zxId ↔ (∀ id ∈ s.disk.dir.snap.map Prod.fst, id ≤ zxId) ∧
      ∀ bill ∈ s.disk.dir.uncutBills zxId, bill.zxId ≤ zxId := by
  have hcut := Disk.afterCut_cutLogs (trunc_none htrunc)
  constructor
  · intro h
    obtain ⟨s'', hload⟩ := tape_load {} s'.disk.dir 100000
    obtain ⟨hstart, hlog⟩ := h [] s' nofun rfl _ _ _ _ _ _ _ _ hload
    obtain ⟨d, -, -, hmin, -, hreplayed, -⟩ := load_fresh hload
    rw [hmin, hcut.snap, hcut.startId_eq] at hstart
    refine ⟨fun id hid => ?_, fun bill hbill => ?_⟩
    · obtain ⟨hle, hmem⟩ := le_startId hid
      exact Std.le_trans hle (hstart hmem)
    · obtain ⟨rest, hreading, -⟩ := hcut.reading_eq
      rw [hreplayed, hreading] at hlog
      exact (hlog bill (List.mem_append_left _ hbill)).resolve_right List.not_mem_nil
  · rintro ⟨hsnaps, huncut⟩ bills s₂ hlt hall σ' τ' m' loader init h count s'' hload
    have hafter := afterCut_proposeAll bills hcut hlt hall
    obtain ⟨rest, hreading, hrest⟩ := hafter.reading_eq
    obtain ⟨d, -, -, -, -, hreplayed, -⟩ := load_fresh hload
    rw [hafter.snap, hreplayed, hreading]
    refine ⟨hsnaps _, fun bill hbill => ?_⟩
    rcases List.mem_append.mp hbill with hbill | hbill
    · exact .inl (huncut bill hbill)
    · exact hrest bill hbill

/-- A log of one bill is cut behind it. -/
theorem stays_dead_oneFile : ∃ s' : Store Bytes,
    (fresh [] {} (.one ⟨zxIdOf 1 1, [65]⟩ [])).trunc Machine.tape (zxIdOf 1 1) = (s', none) ∧
      s'.StaysDead (zxIdOf 1 1) := by
  have hpos : 0 < (⟨zxIdOf 1 1, [65]⟩ : Bill).zxId := by decide
  obtain ⟨disk, hcut, -, -⟩ := Disk.cutLogs_intact ⟨.one ⟨zxIdOf 1 1, [65]⟩ [], none, {}⟩
    (Dir.Intact.one hpos (by decide) (by decide) []) (zxIdOf 1 1)
  have htrunc : (fresh [] {} (.one ⟨zxIdOf 1 1, [65]⟩ [])).trunc Machine.tape (zxIdOf 1 1) =
      (⟨{ stateData := [], zxId := zxIdOf 1 1 }, disk⟩, none) := by
    have hdata : DataSet.trunc Machine.tape { stateData := [] } (zxIdOf 1 1) none =
        ({ stateData := [], zxId := zxIdOf 1 1 }, none) := rfl
    simp only [trunc, fresh, hdata, hcut]
  refine ⟨_, htrunc, (stays_dead_iff Machine.tape _ _ _ htrunc).mpr
    ⟨fun _ h => absurd h List.not_mem_nil, fun bill hbill => ?_⟩⟩
  obtain ⟨id, hid, -⟩ := Dir.mem_readLogs hbill
  obtain ⟨hwanted, hleft⟩ := List.mem_filter.mp hid
  have hmem := (List.mem_filter.mp (List.mem_mergeSort.mp hwanted)).1
  rw [List.mem_singleton.mp hmem] at hleft
  exact absurd hleft (by decide)

/-- A data set that started from a snapshot is taken back to an id in front of it. -/
theorem later_snapshot_starts :
    ¬ ∀ (dir : Dir) (s s' : Store Bytes) (zxId : Int64),
      (fresh [] {} dir).load Machine.tape (fun _ data => some data) 100000 = some s →
      s.trunc Machine.tape zxId = (s', none) → s'.StaysDead zxId := by
  intro hall
  have hload : (fresh [] {} ⟨[], [(zxIdOf 1 2, [65])]⟩).load Machine.tape
      (fun _ data => some data) 100000 = some ⟨⟨[65], zxIdOf 1 2, zxIdOf 1 2, [], [], 100000⟩,
        ⟨⟨[], [(zxIdOf 1 2, [65])]⟩, none, {}⟩⟩ := by
    simp [load, loadSnap, wantedLogs, fresh, loadLogs]
  have htrunc : trunc Machine.tape ⟨⟨[65], zxIdOf 1 2, zxIdOf 1 2, [], [], 100000⟩,
      ⟨⟨[], [(zxIdOf 1 2, [65])]⟩, none, {}⟩⟩ (zxIdOf 1 1) =
      (⟨⟨[65], zxIdOf 1 2, zxIdOf 1 1, [], [], 100000⟩,
        ⟨⟨[], [(zxIdOf 1 2, [65])]⟩, none, {}⟩⟩, none) := by
    simp [trunc, DataSet.trunc, DataSet.truncLoop, Disk.cutLogs, Dir.remove]
  have hdead := hall _ _ _ _ hload htrunc
  rw [stays_dead_iff Machine.tape _ _ _ htrunc] at hdead
  exact absurd (hdead.1 (zxIdOf 1 2) (.head _)) (by decide)

end Store

end Paxos
