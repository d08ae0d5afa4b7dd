import Zookeeper.Paxos.LogDirectory

/-!
# A snapshot and a restart

A follower that lags too far behind is sent a snapshot.  `DataSet::Snap` rebuilds the
state from it, removes the snapshots and log files above its id, and cuts the last log
file.  It saves no snapshot of its own, as `DataSet::Commit` does, so after a restart
`Load` starts from what the directory held before.

`snap_survives_iff` says when this is no loss: the files of the server up to the id of
the snapshot give the state it was sent.  `snap_lost` is a new server that is sent a
snapshot and restarts with the initial state.
-/

namespace Paxos

variable {σ τ : Type}

namespace Store

/-! ## The calls -/

variable (m : Machine σ τ)

/-- `DataSet::Commit`, with its file calls.  `saver` is `IStateData::SaveToFile`, which is
called where the commit without it ends in `saveSnapFailed`. -/
def commit (saver : σ → Option Bytes) (s : Store σ) (zxId : Int64) (transaction : Option τ)
    (nextCount : Nat) : Store σ × Option Thrown :=
  match s.dataset.commit m zxId transaction false nextCount with
  | (d, some .saveSnapFailed) =>
      match saver d.stateData with
      | none => ({ s with dataset := d }, some .saveSnapFailed)
      | some contents =>
          let (d, e) := s.dataset.commit m zxId transaction true nextCount
          let snap := (zxId, contents) :: s.disk.dir.snap.filter fun file => file.1 ≠ zxId
          (⟨d, { s.disk with dir := { s.disk.dir with snap := snap } }⟩, e)
  | (d, e) => ({ s with dataset := d }, e)

/-- `DataSet::Snap`, with its file calls. -/
def snap (s : Store σ) (zxId : Int64) (data : Bytes) : Store σ × Option Thrown :=
  let (disk, files) := s.disk.snapFiles zxId
  let (d, e) := s.dataset.snap m zxId data files
  (⟨d, disk⟩, e)

/-- `DataSet::Trunc`, with its file calls. -/
def trunc (s : Store σ) (zxId : Int64) : Store σ × Option Thrown :=
  match s.dataset.trunc m zxId none with
  | (d, some e) => ({ s with dataset := d }, some e)
  | (d, none) =>
      let (disk, files) := s.disk.cutLogs zxId
      (⟨d, disk⟩, files)

/-- A call of a data set. -/
inductive Call (τ : Type) where
  | propose (zxId : Int64) (data : Bytes)
  | commit (zxId : Int64) (transaction : Option τ) (nextCount : Nat)
  | snap (zxId : Int64) (data : Bytes)
  | trunc (zxId : Int64)
  | flush

/-- A call, and whether it returned true or nothing. -/
def call (saver : σ → Option Bytes) (s : Store σ) : Call τ → Store σ × Bool
  | .propose zxId data => s.propose zxId data
  | .commit zxId transaction nextCount =>
      let (s, e) := s.commit m saver zxId transaction nextCount
      (s, e.isNone)
  | .snap zxId data =>
      let (s, e) := s.snap m zxId data
      (s, e.isNone)
  | .trunc zxId =>
      let (s, e) := s.trunc m zxId
      (s, e.isNone)
  | .flush =>
      let (d, e) := s.dataset.flush m
      ({ s with dataset := d }, e.isNone)

/-- A history of calls, successful or not. -/
def calls (saver : σ → Option Bytes) (acts : List (Call τ)) (s : Store σ) : Store σ :=
  acts.foldl (fun s act => (s.call m saver act).1) s

/-- A sequence of `Propose` and `Commit` calls that all succeed. -/
inductive Later (saver : σ → Option Bytes) : Store σ → List Bill → Store σ → Prop where
  | nil (s : Store σ) : Later saver s [] s
  | propose {s s₁ s' : Store σ} {bills : List Bill} (bill : Bill)
      (hcall : s.propose bill.zxId bill.data = (s₁, true)) (rest : Later saver s₁ bills s') :
      Later saver s (bill :: bills) s'
  | commit {s s₁ s' : Store σ} {bills : List Bill} (zxId : Int64) (transaction : Option τ)
      (nextCount : Nat) (hcall : s.commit m saver zxId transaction nextCount = (s₁, none))
      (rest : Later saver s₁ bills s') : Later saver s bills s'

/-! ## The question -/

/-- The bills as a leader proposes them: with growing ids, and as many as the offsets of
a log file can point at. -/
structure Follows (dir : Dir) (zxId : Int64) (bills : List Bill) : Prop where
  ascending : bills.Pairwise fun a b => a.zxId < b.zxId
  above : ∀ bill ∈ bills, zxId < bill.zxId
  small : ∀ id contents, dir.open_ id = some contents →
    contents.length + (bills.map fun bill => bill.data.length).sum < 2 ^ 31

/-- After `Snap` and a later sequence, a new data set that loads the directory has the
state of the snapshot followed by the later bills, and the id of the last. -/
def SnapSurvives (loader : SnapLoader σ) (saver : σ → Option Bytes) (init : σ) (s : Store σ)
    (zxId : Int64) (data : Bytes) : Prop :=
  ∀ s₁ bills s₂, s.snap m zxId data = (s₁, none) → Later m saver s₁ bills s₂ →
    Follows s.disk.dir zxId bills →
    ∀ state, m.replay (m.buildFromData s.dataset.stateData data) bills = some state →
      ∀ h count, ((fresh init h s₂.disk.dir).load m loader count).map (fun s => s.dataset.view) =
        some (state, (bills.getLast?.map Bill.zxId).getD zxId)

end Store

/-- The files of a directory up to an id. -/
def Dir.upTo (dir : Dir) (zxId : Int64) : Dir where
  logdata := dir.logdata.filter fun file => decide (file.1 ≤ zxId)
  snap := dir.snap.filter fun file => decide (file.1 ≤ zxId)

/-- What the files up to an id give on their own: the newest snapshot, and the bills up
to the id in the log files. -/
def Dir.ownCopy (m : Machine σ τ) (loader : SnapLoader σ) (init : σ) (dir : Dir) (zxId : Int64) :
    Option (σ × Int64) :=
  (Store.loadSnap loader { stateData := init } (dir.upTo zxId)).bind fun d =>
    m.absorb d.view
      ((Store.wantedLogs (dir.upTo zxId) d.zxId).flatMap fun id => Paxos.upTo zxId (dir.bills id))

/-- A data set with an intact directory.  The last log file up to the id is wanted from
every snapshot up to it, and no snapshot is due within the next hundred bills. -/
structure Store.Ready (s : Store σ) (zxId : Int64) : Prop where
  intact : s.disk.dir.Intact
  wanted : ∀ id ∈ s.disk.dir.logIds, id ≤ zxId →
    (∀ other ∈ s.disk.dir.logIds, other ≤ zxId → other ≤ id) →
    ∀ z, z = 0 ∨ z ∈ s.disk.dir.snap.map Prod.fst → z ≤ zxId → z < id + 100
  room : s.dataset.commitLog.length + s.dataset.uncommit.length + 100 < s.dataset.snaperCount

/-! ## Later calls -/

namespace Store

variable {m : Machine σ τ} {loader : SnapLoader σ} {saver : σ → Option Bytes} {s s' : Store σ}

/-- A proposal that succeeds is saved. -/
theorem propose_true {bill : Bill} (h : s.propose bill.zxId bill.data = (s', true)) :
    s.disk.saveLogData bill = (s'.disk, true) ∧
      s'.dataset = { s.dataset with uncommit := s.dataset.uncommit ++ [bill] } := by
  rw [propose] at h
  cases hsave : s.disk.saveLogData bill with
  | mk disk saved =>
      rw [hsave] at h
      cases saved with
      | false => cases h
      | true =>
          cases h
          exact ⟨rfl, rfl⟩

/-- A commit moves a bill to the log.  Where no snapshot is due, none is saved. -/
theorem commit_room {d d' : DataSet σ} {zxId : Int64} {transaction : Option τ} {saved : Bool}
    {nextCount : Nat} {e : Option Thrown}
    (h : d.commit m zxId transaction saved nextCount = (d', e))
    (hroom : d.commitLog.length + d.uncommit.length < d.snaperCount) :
    e ≠ some .saveSnapFailed ∧
      (e = none → d'.snaperCount = d.snaperCount ∧
        d'.commitLog.length + d'.uncommit.length = d.commitLog.length + d.uncommit.length) := by
  rw [DataSet.commit] at h
  cases hun : d.uncommit with
  | nil =>
      rw [hun] at h
      cases h
      exact ⟨nofun, nofun⟩
  | cons bill rest =>
      rw [hun] at h
      dsimp only at h
      have hshort : ¬ d.snaperCount ≤ (d.commitLog ++ [bill]).length := by
        rw [hun, List.length_cons] at hroom
        rw [List.length_append, List.length_singleton]
        omega
      split at h
      next =>
        cases h
        exact ⟨nofun, nofun⟩
      next =>
        split at h
        next =>
          cases h
          exact ⟨nofun, nofun⟩
        next =>
          rw [DataSet.saveSnap] at h
          rw [if_neg hshort] at h
          cases h
          refine ⟨nofun, fun _ => ⟨rfl, ?_⟩⟩
          change (d.commitLog ++ [bill]).length + rest.length = _
          rw [List.length_append, List.length_singleton, List.length_cons]
          omega

theorem commit_none {zxId : Int64} {transaction : Option τ} {nextCount : Nat}
    (h : s.commit m saver zxId transaction nextCount = (s', none))
    (hroom : s.dataset.commitLog.length + s.dataset.uncommit.length < s.dataset.snaperCount) :
    s'.disk = s.disk ∧ s'.dataset.snaperCount = s.dataset.snaperCount ∧
      s'.dataset.commitLog.length + s'.dataset.uncommit.length =
        s.dataset.commitLog.length + s.dataset.uncommit.length := by
  rw [commit] at h
  cases hcommit : s.dataset.commit m zxId transaction false nextCount with
  | mk d e =>
      obtain ⟨hsaved, hnone⟩ := commit_room hcommit hroom
      rw [hcommit] at h
      split at h
      next heq =>
        cases heq
        exact absurd rfl hsaved
      next heq =>
        cases heq
        cases h
        exact ⟨rfl, hnone rfl⟩

/-- The bills in the open file. -/
def openBills (disk : Disk) : List Bill := (disk.lastLogFile.map disk.dir.bills).getD []

theorem openBills_appended {disk disk' : Disk} {more : List Bill}
    (h : disk.Appended disk' more) : openBills disk' = openBills disk ++ more := by
  unfold openBills
  rw [h.file]
  cases hfile : disk.lastLogFile with
  | none => exact (h.closed hfile).symm
  | some id => exact (h.bills id).trans (by rw [hfile, if_pos rfl]; rfl)

theorem openBills_le {disk : Disk} (h : disk.Opened) : (openBills disk).length ≤ 100 := by
  rw [openBills]
  cases hfile : disk.lastLogFile with
  | none => exact Nat.zero_le _
  | some id =>
      obtain ⟨contents, hopen, hf⟩ := h.header id hfile
      rw [Option.map_some, Option.getD_some, Dir.bills_open hopen]
      exact hf.le

/-- A later sequence appends its bills to the open file. -/
theorem Later.appended {bills : List Bill} (h : Later m saver s bills s')
    (hopened : s.disk.Opened) (hpos : ∀ id ∈ s.disk.dir.logIds, 0 < id)
    (hnext : ∀ bill ∈ bills, ∀ id ∈ s.disk.dir.logIds, id < bill.zxId)
    (hsmall : ∀ id contents, s.disk.dir.open_ id = some contents →
      contents.length + (bills.map fun bill => bill.data.length).sum < 2 ^ 31)
    (hroom : s.dataset.commitLog.length + s.dataset.uncommit.length + 100 <
      s.dataset.snaperCount + (openBills s.disk).length) :
    s'.disk.Opened ∧ s.disk.Appended s'.disk bills := by
  induction h with
  | nil s => exact ⟨hopened, .refl _⟩
  | @propose s s₁ s' bills bill hcall rest ih =>
      obtain ⟨hsave, hdata⟩ := propose_true hcall
      obtain ⟨hopened₁, happ, hsize⟩ := Disk.saveLogData_opened hopened hsave hpos
        (hnext bill (.head _)) (fun id contents hopen => by
          have := hsmall id contents hopen
          rw [List.map_cons, List.sum_cons] at this
          omega)
      have hlen := congrArg List.length (openBills_appended happ)
      rw [List.length_append, List.length_singleton] at hlen
      obtain ⟨hopened', happ'⟩ := ih hopened₁ (happ.ids ▸ hpos)
        (fun b hb => happ.ids ▸ hnext b (.tail _ hb))
        (fun id contents hopen => by
          obtain ⟨old, hold, hle⟩ := hsize id contents hopen
          have := hsmall id old hold
          rw [List.map_cons, List.sum_cons] at this
          omega)
        (by
          rw [hdata, List.length_append, List.length_singleton]
          dsimp only
          omega)
      exact ⟨hopened', happ.trans happ'⟩
  | @commit s s₁ s' bills zxId transaction nextCount hcall rest ih =>
      have hle := openBills_le hopened
      obtain ⟨hdisk, hcount, hlogs⟩ := commit_none hcall (by omega)
      rw [hdisk, hcount, hlogs] at ih
      exact ih hopened hpos hnext hsmall hroom

/-! ## Loading again -/

theorem loadSnap_congr {d : DataSet σ} {dir dir' : Dir} (h : dir.snap = dir'.snap) :
    loadSnap loader d dir = loadSnap loader d dir' := by
  unfold loadSnap
  rw [h]

theorem wantedLogs_congr {dir dir' : Dir} (h : dir.logIds = dir'.logIds) (zxId : Int64) :
    wantedLogs dir zxId = wantedLogs dir' zxId := by
  change (List.filter _ dir.logIds).mergeSort _ = (List.filter _ dir'.logIds).mergeSort _
  rw [h]

/-- A new data set starts from a snapshot of the directory, or from nothing. -/
theorem loadSnap_zxId {init : σ} {dir : Dir} {d : DataSet σ}
    (h : loadSnap loader { stateData := init } dir = some d) :
    d.zxId = 0 ∨ d.zxId ∈ dir.snap.map Prod.fst := by
  rw [loadSnap] at h
  split at h
  next =>
    cases h
    exact .inl rfl
  next id contents rest hsort =>
    obtain ⟨s, _, rfl⟩ := Option.map_eq_some_iff.mp h
    have hmem : (id, contents) ∈ dir.snap := by
      rw [← List.mem_mergeSort, hsort]
      exact .head _
    exact .inr (List.mem_map.mpr ⟨_, hmem, rfl⟩)

/-- Bills appended to the last of the wanted files come last. -/
theorem flatMap_last {ids : List Int64} {file : Int64} {f g : Int64 → List Bill}
    {more : List Bill} (hsorted : ids.Pairwise (· ≤ ·)) (hnodup : ids.Nodup)
    (hfile : file ∈ ids) (hlast : ∀ id ∈ ids, id ≤ file)
    (hg : ∀ id ∈ ids, g id = if id = file then f id ++ more else f id) :
    ids.flatMap g = ids.flatMap f ++ more := by
  induction ids with
  | nil => cases hfile
  | cons id ids ih =>
      obtain ⟨hle, hsorted⟩ := List.pairwise_cons.mp hsorted
      obtain ⟨hnot, hnodup⟩ := List.nodup_cons.mp hnodup
      rw [List.flatMap_cons, List.flatMap_cons, hg id (.head _)]
      rcases List.mem_cons.mp hfile with rfl | hmem
      · have hnil : ids = [] := by
          refine List.eq_nil_iff_forall_not_mem.mpr fun other hother => hnot ?_
          have heq := Std.le_antisymm (hle other hother) (hlast other (.tail _ hother))
          exact heq ▸ hother
        rw [if_pos rfl, hnil, List.flatMap_nil, List.flatMap_nil, List.append_nil, List.append_nil]
      · have hne : id ≠ file := fun heq => hnot (heq ▸ hmem)
        rw [if_neg hne, ih hsorted hnodup hmem (fun other hother => hlast other (.tail _ hother))
          fun other hother => hg other (.tail _ hother), List.append_assoc]

theorem newer_ascending (bills : List Bill) (zxId : Int64)
    (hsorted : bills.Pairwise fun a b => a.zxId < b.zxId)
    (habove : ∀ bill ∈ bills, zxId < bill.zxId) :
    newer bills zxId = bills ∧ reached bills zxId = (bills.getLast?.map Bill.zxId).getD zxId := by
  induction bills generalizing zxId with
  | nil => exact ⟨rfl, rfl⟩
  | cons bill bills ih =>
      obtain ⟨hnext, hsorted⟩ := List.pairwise_cons.mp hsorted
      obtain ⟨hnewer, hreached⟩ := ih bill.zxId hsorted hnext
      have hlt := habove bill (.head _)
      rw [newer, if_pos hlt, hnewer, reached, List.foldl_cons, if_pos hlt]
      refine ⟨rfl, hreached.trans ?_⟩
      rw [List.getLast?_cons]
      cases bills.getLast? <;> rfl

theorem logIds_upTo (dir : Dir) (zxId : Int64) :
    (dir.upTo zxId).logIds = dir.logIds.filter fun id => decide (id ≤ zxId) := by
  change List.map _ (List.filter _ _) = List.filter _ (List.map _ _)
  rw [List.filter_map]
  rfl

/-- `Snap` leaves what lies up to its id. -/
theorem Ready.snap {zxId : Int64} (hs : s.Ready zxId) (data : Bytes) :
    ∃ disk, s.snap m zxId data = (⟨(s.dataset.snap m zxId data none).1, disk⟩, none) ∧
      disk.Opened ∧ disk.dir.snap = (s.disk.dir.upTo zxId).snap ∧
      disk.dir.logIds = (s.disk.dir.upTo zxId).logIds ∧
      (∀ id ∈ disk.dir.logIds, disk.dir.bills id = Paxos.upTo zxId (s.disk.dir.bills id)) ∧
      ∀ id contents, disk.dir.open_ id = some contents →
        ∃ old, s.disk.dir.open_ id = some old ∧ old.length = contents.length := by
  have hintact := hs.intact
  obtain ⟨disk, hcut, hcutTo, hopened⟩ := Disk.cutLogs_intact
    { s.disk with dir := { s.disk.dir with
      snap := s.disk.dir.snap.filter fun file => !decide (zxId < file.1) } }
    ⟨hintact.nodup, hintact.holds, hintact.positive, hintact.named, hintact.sorted,
      hintact.apart⟩ zxId
  refine ⟨disk, ?_, hopened, ?_, ?_, hcutTo.bills, hcutTo.size⟩
  · rw [Store.snap, Disk.snapFiles]
    rw [hcut]
    rfl
  · rw [hcutTo.snap]
    refine List.filter_congr fun file _ => ?_
    rw [← decide_not]
    exact decide_eq_decide.mpr Std.not_lt
  · rw [hcutTo.ids, logIds_upTo]
    rfl

theorem mem_wantedLogs {dir : Dir} {id zxId : Int64} :
    id ∈ wantedLogs dir zxId ↔ id ∈ dir.logIds ∧ zxId < id + 100 := by
  rw [wantedLogs]
  rw [List.mem_mergeSort, List.mem_filter, decide_eq_true_iff]
  rfl

/-- The wanted log files end with the later bills. -/
theorem wanted_later {disk disk' : Disk} {zxId z : Int64} {bills : List Bill}
    (hs : s.Ready zxId) (hopened : disk.Opened) (happ : disk.Appended disk' bills)
    (hids : disk.dir.logIds = (s.disk.dir.upTo zxId).logIds)
    (hbills : ∀ id ∈ disk.dir.logIds, disk.dir.bills id = Paxos.upTo zxId (s.disk.dir.bills id))
    (hz : z = 0 ∨ z ∈ (s.disk.dir.upTo zxId).snap.map Prod.fst) :
    (wantedLogs (s.disk.dir.upTo zxId) z).flatMap disk'.dir.bills =
      ((wantedLogs (s.disk.dir.upTo zxId) z).flatMap fun id =>
        Paxos.upTo zxId (s.disk.dir.bills id)) ++ bills := by
  have hmem : ∀ id, id ∈ disk.dir.logIds ↔ id ∈ s.disk.dir.logIds ∧ id ≤ zxId := by
    intro id
    rw [hids, logIds_upTo, List.mem_filter, decide_eq_true_iff]
  have hwanted : ∀ id ∈ wantedLogs (s.disk.dir.upTo zxId) z, id ∈ disk.dir.logIds := by
    intro id hid
    rw [hids]
    exact (mem_wantedLogs.mp hid).1
  cases hfile : disk.lastLogFile with
  | none =>
      have hnil : wantedLogs (s.disk.dir.upTo zxId) z = [] := by
        refine List.eq_nil_iff_forall_not_mem.mpr fun id hid => ?_
        have hin := hwanted id hid
        rw [hopened.closed hfile] at hin
        cases hin
      rw [hnil, happ.closed hfile]
      rfl
  | some file =>
      obtain ⟨contents, hopen, _⟩ := hopened.header file hfile
      have hfileId := Dir.mem_logIds hopen
      obtain ⟨hin, hle⟩ := (hmem file).mp hfileId
      have hlast := hopened.last file hfile
      have hreach : z < file + 100 := by
        have hmax : ∀ id ∈ s.disk.dir.logIds, id ≤ zxId → id ≤ file := fun id hid hle' =>
          hlast id ((hmem id).mpr ⟨hid, hle'⟩)
        rcases hz with rfl | hz
        · have hpos := Std.le_of_lt (hs.intact.positive file hin)
          exact hs.wanted file hin hle hmax 0 (.inl rfl) (Std.le_trans hpos hle)
        · obtain ⟨snap, hsnap, rfl⟩ := List.mem_map.mp hz
          obtain ⟨hsnap, hcut⟩ := List.mem_filter.mp hsnap
          exact hs.wanted file hin hle hmax _ (.inr (List.mem_map.mpr ⟨snap, hsnap, rfl⟩))
            (of_decide_eq_true hcut)
      refine flatMap_last (f := fun id => Paxos.upTo zxId (s.disk.dir.bills id)) ?_ ?_ ?_
        (fun id hid => hlast id (hwanted id hid)) ?_
      · exact (List.pairwise_mergeSort' (· ≤ ·) _)
      · have hnodup : (s.disk.dir.upTo zxId).logIds.Nodup := by
          rw [logIds_upTo]
          exact hs.intact.nodup.filter _
        exact (List.mergeSort_perm _ _).nodup_iff.mpr (hnodup.filter _)
      · rw [mem_wantedLogs, ← hids]
        exact ⟨hfileId, hreach⟩
      · intro id hid
        rw [happ.bills, hfile, hbills id (hwanted id hid)]
        by_cases heq : id = file
        · rw [if_pos heq, if_pos (congrArg some heq.symm)]
        · rw [if_neg heq, if_neg fun h => heq (Option.some.inj h).symm]

/-- After a snapshot and later calls, a new data set has what the server's own files up to
the snapshot's id give, and the later bills. -/
theorem load_later {l : SnapLoader σ} {s₁ s₂ : Store σ} {zxId : Int64} {data : Bytes}
    {bills : List Bill}
    (hs : s.Ready zxId) (hsnap : s.snap m zxId data = (s₁, none))
    (hlater : Later m saver s₁ bills s₂) (hfollows : Follows s.disk.dir zxId bills)
    (init : σ) (h : LogHeader) (count : Nat) :
    ((fresh init h s₂.disk.dir).load m l count).map (fun s => s.dataset.view) =
      (s.disk.dir.ownCopy m l init zxId).bind fun x => m.absorb x bills := by
  obtain ⟨disk, hsnap', hopened, hsnaps, hids, hbills, hsize⟩ := hs.snap (m := m) data
  cases hsnap.symm.trans hsnap'
  have hmem : ∀ id ∈ disk.dir.logIds, id ∈ s.disk.dir.logIds ∧ id ≤ zxId := by
    intro id hid
    rw [hids, logIds_upTo, List.mem_filter, decide_eq_true_iff] at hid
    exact hid
  have hroom : (s.dataset.snap m zxId data none).1.commitLog.length ≤
      s.dataset.commitLog.length := by
    change (List.reverse _).length ≤ _
    rw [List.length_reverse]
    exact Nat.le_trans (List.dropWhile_sublist _).length_le (by rw [List.length_reverse])
  have hready := hs.room
  obtain ⟨hopened₂, happ⟩ := hlater.appended hopened
    (fun id hid => hs.intact.positive id (hmem id hid).1)
    (fun bill hbill id hid => Std.lt_of_le_of_lt (hmem id hid).2 (hfollows.above bill hbill))
    (fun id contents hopen => by
      obtain ⟨old, hold, hlen⟩ := hsize id contents hopen
      exact hlen ▸ hfollows.small id old hold)
    (by
      change (s.dataset.snap m zxId data none).1.commitLog.length + s.dataset.uncommit.length +
        100 < s.dataset.snaperCount + _
      omega)
  have hids₂ := happ.ids.trans hids
  rw [load_holds (s := fresh init h s₂.disk.dir) l count hopened₂.holds, Dir.ownCopy,
    Option.bind_assoc]
  change (loadSnap l { stateData := init } s₂.disk.dir).bind _ = _
  rw [loadSnap_congr (happ.snap.trans hsnaps)]
  cases hbase : loadSnap l { stateData := init } (s.disk.dir.upTo zxId) with
  | none => rfl
  | some d =>
      rw [Option.bind_some, Option.bind_some, ← Machine.absorb_append]
      congr 1
      change (wantedLogs s₂.disk.dir d.zxId).flatMap s₂.disk.dir.bills = _
      rw [wantedLogs_congr hids₂]
      have hlast : disk.Appended s₂.disk bills := happ
      exact wanted_later hs hopened hlast hids hbills (loadSnap_zxId hbase)

theorem Ready.follows_nil {zxId : Int64} (hs : s.Ready zxId) : Follows s.disk.dir zxId [] where
  ascending := .nil
  above := nofun
  small id contents hopen := by
    obtain ⟨_, _, hopen', hf⟩ := hs.intact.holds id (Dir.mem_logIds hopen)
    cases hopen.symm.trans hopen'
    exact hf.small

/-- A snapshot survives if and only if the server's own files up to its id give the same
state already. -/
theorem snap_survives_iff (m : Machine σ τ) (loader : SnapLoader σ)
    (saver : σ → Option Bytes) (init : σ) {s : Store σ} {zxId : Int64} (data : Bytes)
    (hs : s.Ready zxId) :
    s.SnapSurvives m loader saver init zxId data ↔
      s.disk.dir.ownCopy m loader init zxId =
        some (m.buildFromData s.dataset.stateData data, zxId) := by
  constructor
  · intro hsurvives
    obtain ⟨disk, hsnap, _⟩ := hs.snap (m := m) data
    have hlater : Later m saver _ [] _ := .nil ⟨(s.dataset.snap m zxId data none).1, disk⟩
    have hloaded := load_later (l := loader) hs hsnap hlater hs.follows_nil init {} 0
    have hstate := hsurvives _ _ _ hsnap hlater hs.follows_nil _ rfl {} 0
    rw [hloaded] at hstate
    cases hown : s.disk.dir.ownCopy m loader init zxId with
    | none =>
        rw [hown] at hstate
        cases hstate
    | some x =>
        rw [hown] at hstate
        exact hstate
  · intro hown s₁ bills s₂ hsnap hlater hfollows state hstate h count
    obtain ⟨hnewer, hreached⟩ := newer_ascending bills zxId hfollows.ascending hfollows.above
    rw [load_later hs hsnap hlater hfollows, hown, Option.bind_some, Machine.absorb]
    rw [hnewer, hreached, hstate]
    rfl

/-- A server with a log file of one bill is sent the state behind this bill. -/
theorem snap_survives_logged :
    SnapSurvives Machine.tape (fun _ data => some data) some []
      ⟨{ stateData := [], snaperCount := 100000 }, { dir := .one ⟨3, [7]⟩ [], header := {} }⟩
      3 [7] := by
  have hbills : (Dir.one ⟨3, [7]⟩ []).bills 3 = [⟨3, [7]⟩] :=
    (Dir.one_holds (by decide) (by decide) (by decide) []).2
  refine (snap_survives_iff Machine.tape _ some [] [7] ⟨.one (by decide) (by decide) (by decide) [],
    ?_, by decide⟩).mpr ?_
  · rintro id hid _ _ z (rfl | hz) _
    · rw [List.mem_singleton.mp hid]
      decide
    · cases hz
  · have hbase : loadSnap (fun _ data => some data) { stateData := ([] : Bytes) }
        (Dir.upTo (.one ⟨3, [7]⟩ []) 3) = some { stateData := [] } := by
      simp [loadSnap, Dir.upTo, Dir.one]
    have hwanted : wantedLogs (Dir.upTo (.one ⟨3, [7]⟩ []) 3) 0 = [3] := by
      simp [wantedLogs, Dir.upTo, Dir.one]
    rw [Dir.ownCopy, hbase, Option.bind_some, hwanted, List.flatMap_singleton, hbills]
    rfl

/-- A new server is sent a snapshot, and restarts with the initial state. -/
theorem snap_lost :
    ∃ s, (fresh [] {} {}).load Machine.tape (fun _ data => some data) 100000 = some s ∧
      ¬ s.SnapSurvives Machine.tape (fun _ data => some data) some [] (zxIdOf 1 5) [1, 2] := by
  refine ⟨_, load_empty _ _ _ _, fun hsurvives => ?_⟩
  have hstate := hsurvives _ [] _ rfl (.nil _) ⟨.nil, nofun, nofun⟩ [1, 2] rfl {} 100000
  have hload : (fresh [] {} {}).load Machine.tape (fun _ data => some data) 100000 = _ :=
    load_empty _ _ _ _
  have hinit := hstate.symm.trans (congrArg (Option.map fun s => s.dataset.view) hload)
  cases hinit

/-! ## Histories of a new server -/

/-- Nothing was ever logged. -/
structure Unlogged (s : Store σ) : Prop where
  dir : s.disk.dir = {}
  closed : s.disk.lastLogFile = none
  uncommit : s.dataset.uncommit = []
  commitLog : s.dataset.commitLog = []

theorem Unlogged.propose (hs : s.Unlogged) (zxId : Int64) (data : Bytes) :
    (s.propose zxId data).1.Unlogged ∧ (s.propose zxId data).1.dataset = s.dataset := by
  obtain ⟨d, dir, last, header⟩ := s
  obtain ⟨rfl, rfl, huncommit, hlog⟩ := hs
  exact ⟨⟨rfl, rfl, huncommit, hlog⟩, rfl⟩

variable (m saver)

theorem Unlogged.call (hs : s.Unlogged) (act : Call τ) :
    (s.call m saver act).1.Unlogged ∧
      (s.call m saver act).1.dataset.snaperCount = s.dataset.snaperCount := by
  cases act with
  | propose z data =>
      obtain ⟨hs', hd⟩ := hs.propose z data
      exact ⟨hs', congrArg DataSet.snaperCount hd⟩
  | commit | snap | trunc | flush =>
      obtain ⟨⟨state, minZxId, zxId, log, uncommit, count⟩, dir, last, header⟩ := s
      obtain ⟨rfl, rfl, rfl, rfl⟩ := hs
      exact ⟨⟨rfl, rfl, rfl, rfl⟩, rfl⟩

/-- A history that starts in an empty directory leaves it empty: nothing in it creates a
log file, so no bill is saved, and none is committed. -/
theorem Unlogged.calls (hs : s.Unlogged) (acts : List (Call τ)) :
    (calls m saver acts s).Unlogged ∧
      (Store.calls m saver acts s).dataset.snaperCount = s.dataset.snaperCount := by
  induction acts generalizing s with
  | nil => exact ⟨hs, rfl⟩
  | cons act acts ih =>
      obtain ⟨hs', hcount⟩ := hs.call m saver act
      obtain ⟨hs'', hcount'⟩ := ih hs'
      exact ⟨hs'', hcount'.trans hcount⟩

theorem Unlogged.ready (hs : s.Unlogged) (hcount : 100 < s.dataset.snaperCount) (zxId : Int64) :
    s.Ready zxId := by
  obtain ⟨d, dir, last, header⟩ := s
  obtain ⟨rfl, _, huncommit, hlog⟩ := hs
  refine ⟨⟨.nil, nofun, nofun, nofun, nofun, nofun⟩, nofun, ?_⟩
  rw [hlog, huncommit]
  exact hcount

/-- Every history of a new server leaves an intact directory. -/
theorem history_ready (init : σ) (h : LogHeader) {count : Nat} (hcount : 100 < count)
    (hload : (fresh init h {}).load m loader count = some s) (acts : List (Call τ))
    (zxId : Int64) : (calls m saver acts s).Ready zxId := by
  rw [load_empty] at hload
  cases hload
  have hnew : Unlogged ⟨{ stateData := init, snaperCount := count }, { header := h }⟩ :=
    ⟨rfl, rfl, rfl, rfl⟩
  obtain ⟨hs, hsame⟩ := hnew.calls m saver acts
  exact hs.ready (hsame.symm ▸ hcount) zxId

end Store

end Paxos
