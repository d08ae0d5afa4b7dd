import Mathlib.Data.List.Induction
import Zookeeper.Paxos.Wire

/-!
# Synchronising a follower

`FollowHandler::SyncFollower` compares the follower's last id with the leader's
and sends one of three openings: nothing to do, cut your log, or a snapshot.
The uncommitted bills follow, then the end of the handshake.  `syncFollower` and
`startFrames` are the bytes it sends, and `syncWithLeader` is the reader on the
other side (`paxos/paxos/lead.cpp`, `paxos/paxos/follow.cpp`).

When the follower lags behind within the leader's log, the loop over the log
sends an opening for every bill it meets, since the flag for the first one is
never reset.  The reader takes only one opening and reads the rest as message
types.

`sync_reaches_leader` proves that the follower ends with the leader's state where
a single opening is sent, and `lagging_follower_stays_behind` is a follower that
lags by one bill.
-/

namespace Paxos

variable {σ τ : Type}

/-! ## The leader's side -/

/-- The loop of `SyncFollower` over the log, for a follower at `last`.  `first`
is never changed. -/
def diffLoop (leaderZxId : Int64) (snap : Bytes) (inPlace : Bool) (last : Int64) (first : Bool) :
    Int64 → List Bill → Bytes
  | _, [] => []
  | prev, bill :: bills =>
      if bill.zxId < last then diffLoop leaderZxId snap inPlace last first bill.zxId bills
      else if first then
        if bill.zxId = last then
          Px.diffDataset.code :: diffLoop leaderZxId snap inPlace last first prev bills
        else if epochFromZxId bill.zxId ≠ epochFromZxId last then
          snapFrame leaderZxId snap inPlace
        else truncFrame prev ++ diffLoop leaderZxId snap inPlace last first prev bills
      else
        proposeFrame bill ++ commitFrame bill.zxId ++
          diffLoop leaderZxId snap inPlace last first prev bills

/-- What `SyncFollower` sends before the uncommitted bills. -/
def syncOpening (m : Machine σ τ) (d : DataSet σ) (last : Int64) (inPlace : Bool) : Bytes :=
  let snap := m.getData d.stateData
  if last = d.zxId then [Px.diffDataset.code]
  else if d.zxId < last then truncFrame d.zxId
  else if d.minZxId ≤ last then
    diffLoop d.zxId snap inPlace last true d.minZxId (d.query d.minZxId d.zxId)
  else snapFrame d.zxId snap inPlace

/-- `FollowHandler::SyncFollower`. -/
def syncFollower (m : Machine σ τ) (d : DataSet σ) (last : Int64) (inPlace : Bool) : Bytes :=
  syncOpening m d last inPlace ++ d.uncommit.flatMap proposeFrame

/-- `SyncFollower` and what `FollowHandler::Start` sends behind it. -/
def startFrames (m : Machine σ τ) (d : DataSet σ) (last : Int64) (inPlace : Bool) : Bytes :=
  syncFollower m d last inPlace ++ [Px.newLeader.code, Px.updated.code]

/-! ## The follower's side -/

/-- How the follower's file calls end: `SaveLogData` by id, the files of `Snap`
and `Trunc`, and the snapshots of `Commit`. -/
structure SyncFiles where
  save : Int64 → Bool
  files : Option Thrown
  snapSaved : Bool
  nextCount : Nat

/-- How `SyncWithLeader` ends. -/
inductive SyncEnd where
  | synced
  | waits
  | throws
deriving DecidableEq, Repr

/-- The loop of `SyncWithLeader`.  The fuel is a bound on the messages. -/
def syncLoop (m : Machine σ τ) (io : SyncFiles) : Nat → DataSet σ → Bytes → DataSet σ × SyncEnd
  | 0, d, _ => (d, .waits)
  | _ + 1, d, [] => (d, .waits)
  | fuel + 1, d, b :: bs =>
      match Px.ofByte b with
      | some .updated => (d, .synced)
      | some .propose =>
          match sizedCodec.read bs with
          | none => (d, .waits)
          | some ((zxId, size), bs) =>
              match readBlock size bs with
              | .error .waits => (d, .waits)
              | .error .throws => (d, .throws)
              | .ok (data, bs) => syncLoop m io fuel (d.propose zxId data (io.save zxId)).1 bs
      | some .commit =>
          match commitCodec.read bs with
          | none => (d, .waits)
          | some ((zxId, _, _), bs) =>
              match d.commit m zxId none io.snapSaved io.nextCount with
              | (d, some _) => (d, .throws)
              | (d, none) => syncLoop m io fuel d bs
      -- an acknowledgement is sent for `newLeader`, and the rest is skipped
      | _ => syncLoop m io fuel d bs

/-- The first message of `SyncWithLeader`, and the bytes behind it. -/
def syncFirst (m : Machine σ τ) (io : SyncFiles) (d : DataSet σ) :
    Bytes → DataSet σ × Except SyncEnd Bytes
  | [] => (d, .error .waits)
  | b :: bs =>
      match Px.ofByte b with
      | some .truncDataset =>
          match Codec.int64.read bs with
          | none => (d, .error .waits)
          | some (zxId, bs) =>
              match d.trunc m zxId io.files with
              | (d, some _) => (d, .error .throws)
              | (d, none) => (d, .ok bs)
      | some .snapDataset =>
          match sizedCodec.read bs with
          | none => (d, .error .waits)
          | some ((zxId, size), bs) =>
              match readBlock size bs with
              | .error .waits => (d, .error .waits)
              | .error .throws => (d, .error .throws)
              | .ok (data, bs) =>
                  match d.snap m zxId data io.files with
                  | (d, some _) => (d, .error .throws)
                  | (d, none) => (d, .ok bs)
      | _ => (d, .ok bs)

/-- `Follow::SyncWithLeader` on the bytes of the leader. -/
def syncWithLeader (m : Machine σ τ) (io : SyncFiles) (d : DataSet σ) (bs : Bytes) :
    DataSet σ × SyncEnd :=
  match syncFirst m io d bs with
  | (d, .error e) => (d, e)
  | (d, .ok bs) => syncLoop m io bs.length d bs

/-! ## Histories -/

/-- Bills applied one after the other. -/
def Machine.replay (m : Machine σ τ) (s : σ) (bills : List Bill) : Option σ :=
  bills.foldlM (fun s bill => m.applyBill s bill) s

/-- `Rollback` undoes `Apply`, and `BuildFromData` undoes `GetData`. -/
structure Machine.Lawful (m : Machine σ τ) : Prop where
  rollback_apply : ∀ t s data, m.rollback t (m.apply t s data) data = s
  build_getData : ∀ s s', m.buildFromData s' (m.getData s) = s

/-- The bills up to an id. -/
def upTo (zxId : Int64) (bills : List Bill) : List Bill :=
  bills.filter fun bill => decide (bill.zxId ≤ zxId)

/-- The bills above an id. -/
def above (zxId : Int64) (bills : List Bill) : List Bill :=
  bills.filter fun bill => decide (zxId < bill.zxId)

/-- A data set that has committed a history from the state `start`.  Its log
holds the part above `base`, which is its `minZxId` unless the log was cut. -/
structure DataSet.Holds (m : Machine σ τ) (start : σ) (history : List Bill) (base : Int64)
    (d : DataSet σ) : Prop where
  sorted : history.Pairwise fun a b => a.zxId < b.zxId
  positive : ∀ bill ∈ history, 0 < bill.zxId
  state : m.replay start history = some d.stateData
  zxId : d.zxId = (history.getLast?.map Bill.zxId).getD 0
  log : d.commitLog = above base history
  min_nonneg : 0 ≤ d.minZxId
  min_le : d.minZxId ≤ base
  base_le : base ≤ d.zxId

/-- Two histories agree up to every id they share. -/
def HistoriesAgree (h h' : List Bill) : Prop :=
  ∀ z ∈ h.map Bill.zxId, z ∈ h'.map Bill.zxId → upTo z h = upTo z h'

instance (h h' : List Bill) : Decidable (HistoriesAgree h h') :=
  List.decidableBAll (fun z => z ∈ h'.map Bill.zxId → upTo z h = upTo z h') (h.map Bill.zxId)

/-- The follower ended synchronised, with the leader's state.  Logs are compared
above `base`. -/
structure SyncReached (leader : DataSet σ) (base : Int64) (r : DataSet σ × SyncEnd) : Prop where
  synced : r.2 = .synced
  zxId : r.1.zxId = leader.zxId
  stateData : r.1.stateData = leader.stateData
  commitLog : above base r.1.commitLog = above base leader.commitLog
  uncommit : r.1.uncommit = leader.uncommit

/-! ## When it works -/

/-- The opening is a snapshot: the follower is older than the leader's
`minZxId`, or the first bill the loop stops at is of another epoch. -/
def SnapsFirst (leader : DataSet σ) (last : Int64) : Prop :=
  last < leader.minZxId ∨
    (last < leader.zxId ∧
      ∃ bill, (leader.query leader.minZxId leader.zxId).find? (fun b => decide (last ≤ b.zxId)) =
        some bill ∧ bill.zxId ≠ last ∧ epochFromZxId bill.zxId ≠ epochFromZxId last)

instance (leader : DataSet σ) (last : Int64) : Decidable (SnapsFirst leader last) :=
  inferInstanceAs (Decidable (last < leader.minZxId ∨
    (last < leader.zxId ∧
      ∃ bill ∈ (leader.query leader.minZxId leader.zxId).find? (fun b => decide (last ≤ b.zxId)),
        bill.zxId ≠ last ∧ epochFromZxId bill.zxId ≠ epochFromZxId last)))

/-- The follower has nothing uncommitted, its file calls succeed, sizes fit in
their fields, and one opening is sent that fits its log: none is needed, or it
has all the leader has and more, or it gets a snapshot. -/
structure CanSync (m : Machine σ τ) (io : SyncFiles) (inPlace : Bool) (leader follower : DataSet σ)
    (history : List Bill) (base : Int64) : Prop where
  uncommit : follower.uncommit = []
  saves : ∀ bill ∈ leader.uncommit, io.save bill.zxId = true
  sizes : ∀ bill ∈ leader.uncommit, bill.data.length < 2 ^ 31
  opening :
    follower.zxId = leader.zxId ∨
    (leader.zxId < follower.zxId ∧ io.files = none ∧ base ≤ leader.zxId ∧
      (leader.zxId ∈ history.map Bill.zxId ∨ leader.zxId = 0)) ∨
    (SnapsFirst leader follower.zxId ∧ io.files = none ∧
      (m.getData leader.stateData).length < 2 ^ 31 ∧
      (inPlace = true ∨ m.getData leader.stateData = []))

/-! ## Reading what was sent -/

section Reading

variable {m : Machine σ τ} {io : SyncFiles}

/-- The bills a follower manages to save. -/
def SyncFiles.saved (io : SyncFiles) (bills : List Bill) : List Bill :=
  bills.filter fun bill => io.save bill.zxId

/-- The uncommitted bills and the end of the handshake are read as they were sent. -/
theorem syncLoop_uncommit (bills : List Bill) (fuel : Nat) (d : DataSet σ)
    (hfuel : bills.length + 2 ≤ fuel) (hsize : ∀ bill ∈ bills, bill.data.length < 2 ^ 31) :
    syncLoop m io fuel d (bills.flatMap proposeFrame ++ [Px.newLeader.code, Px.updated.code]) =
      ({ d with uncommit := d.uncommit ++ io.saved bills }, .synced) := by
  induction bills generalizing fuel d with
  | nil =>
      obtain ⟨fuel, rfl⟩ := Nat.exists_eq_add_of_le' hfuel
      simp [syncLoop, SyncFiles.saved]
  | cons bill bills ih =>
      obtain ⟨fuel, rfl⟩ := Nat.exists_eq_add_of_le' (Nat.le_trans (Nat.le_add_left 1 _) hfuel)
      have hread := readBlock_append (hsize bill (.head _))
        (bills.flatMap proposeFrame ++ [Px.newLeader.code, Px.updated.code])
      have hrest := ih fuel (d.propose bill.zxId bill.data (io.save bill.zxId)).1
        (by simp only [List.length_cons] at hfuel; omega) fun b hb => hsize b (.tail _ hb)
      simp only [List.flatMap_cons, proposeFrame, List.cons_append, List.append_assoc, syncLoop,
        Px.ofByte_code, Codec.read_encode] at hread ⊢
      rw [hread]
      refine hrest.trans ?_
      cases hs : io.save bill.zxId <;> simp [DataSet.propose, SyncFiles.saved, hs]

/-- The bytes are enough fuel to read them. -/
theorem uncommit_fuel (bills : List Bill) :
    bills.length + 2 ≤
      (bills.flatMap proposeFrame ++ [Px.newLeader.code, Px.updated.code]).length := by
  induction bills with
  | nil => simp
  | cons bill bills ih =>
      simp only [List.flatMap_cons, List.length_append, List.length_cons, proposeFrame,
        List.length_nil] at ih ⊢
      omega

theorem syncFirst_diff (d : DataSet σ) (rest : Bytes) :
    syncFirst m io d (Px.diffDataset.code :: rest) = (d, .ok rest) := by
  simp [syncFirst]

theorem syncFirst_trunc {d d' : DataSet σ} {zxId : Int64} (h : d.trunc m zxId io.files = (d', none))
    (rest : Bytes) : syncFirst m io d (truncFrame zxId ++ rest) = (d', .ok rest) := by
  simp [syncFirst, truncFrame, h]

theorem syncFirst_trunc_throws {d d' : DataSet σ} {zxId : Int64} {e : Thrown}
    (h : d.trunc m zxId io.files = (d', some e)) (rest : Bytes) :
    syncFirst m io d (truncFrame zxId ++ rest) = (d', .error .throws) := by
  simp [syncFirst, truncFrame, h]

theorem syncFirst_snap {d : DataSet σ} {zxId : Int64} {data : Bytes} {inPlace : Bool}
    (hfiles : io.files = none) (hsize : data.length < 2 ^ 31)
    (hplace : inPlace = true ∨ data = []) (rest : Bytes) :
    syncFirst m io d (snapFrame zxId data inPlace ++ rest) =
      ((d.snap m zxId data none).1, .ok rest) := by
  have hsent : (if inPlace then Int32.ofNat data.length else 0) = Int32.ofNat data.length := by
    rcases hplace with rfl | rfl
    · rfl
    · simp
  simp [syncFirst, snapFrame, hsent, List.append_assoc, readBlock_append hsize, hfiles,
    DataSet.snap]

/-- The first bill at or above the follower's id decides, if it is of another epoch. -/
theorem diffLoop_snap {leaderZxId last : Int64} {snap : Bytes} {inPlace : Bool} {bill : Bill}
    (hne : bill.zxId ≠ last) (hepoch : epochFromZxId bill.zxId ≠ epochFromZxId last)
    (bills : List Bill) (prev : Int64)
    (hfind : bills.find? (fun b => decide (last ≤ b.zxId)) = some bill) :
    diffLoop leaderZxId snap inPlace last true prev bills = snapFrame leaderZxId snap inPlace := by
  induction bills generalizing prev with
  | nil => cases hfind
  | cons b bills ih =>
      rw [List.find?_cons] at hfind
      by_cases hlast : last ≤ b.zxId
      · simp only [hlast, decide_true, Option.some.injEq] at hfind
        subst hfind
        have hlt : ¬ b.zxId < last := by grind
        simp only [diffLoop, if_neg hlt, if_true, if_neg hne, if_pos hepoch]
      · simp only [hlast, decide_false] at hfind
        have hlt : b.zxId < last := by grind
        simp only [diffLoop, if_pos hlt]
        exact ih b.zxId hfind

/-- A follower that snaps first is sent a snapshot. -/
theorem syncOpening_snap (m : Machine σ τ) (inPlace : Bool) {leader : DataSet σ} {last : Int64}
    (h : SnapsFirst leader last) (hle : leader.minZxId ≤ leader.zxId) :
    syncOpening m leader last inPlace =
      snapFrame leader.zxId (m.getData leader.stateData) inPlace := by
  rcases h with hold | ⟨hbehind, bill, hfind, hne, hepoch⟩
  · have hne : last ≠ leader.zxId := by grind
    have hlt : ¬ leader.zxId < last := by grind
    have hmin : ¬ leader.minZxId ≤ last := by grind
    simp only [syncOpening, if_neg hne, if_neg hlt, if_neg hmin]
  · have hne' : last ≠ leader.zxId := by grind
    have hlt : ¬ leader.zxId < last := by grind
    simp only [syncOpening, if_neg hne', if_neg hlt]
    split
    next => exact diffLoop_snap hne hepoch _ _ hfind
    next => rfl

end Reading

/-! ## Cutting a history -/

section History

variable {m : Machine σ τ} {h : List Bill}

theorem above_above {a b : Int64} (hab : a ≤ b) (h : List Bill) :
    above b (above a h) = above b h := by
  unfold above
  rw [List.filter_filter]
  refine List.filter_congr fun bill _ => ?_
  by_cases hb : b < bill.zxId
  · simp [hb, show a < bill.zxId by grind]
  · simp [hb]

theorem above_above_of_le {a b : Int64} (hab : a ≤ b) (h : List Bill) :
    above a (above b h) = above b h := by
  refine List.filter_eq_self.mpr fun bill hbill => ?_
  have hb : b < bill.zxId := by simpa using (List.mem_filter.mp hbill).2
  exact decide_eq_true (by grind)

theorem above_eq_nil {z : Int64} (hz : ∀ bill ∈ h, bill.zxId ≤ z) : above z h = [] := by
  refine List.filter_eq_nil_iff.mpr fun bill hbill => ?_
  have := hz bill hbill
  grind

theorem upTo_eq_self {z : Int64} (hz : ∀ bill ∈ h, bill.zxId ≤ z) : upTo z h = h :=
  List.filter_eq_self.mpr fun bill hbill => decide_eq_true (hz bill hbill)

/-- A sorted history is cut in two by any id. -/
theorem upTo_append_above (z : Int64) {h : List Bill}
    (hsorted : h.Pairwise fun a b => a.zxId < b.zxId) : upTo z h ++ above z h = h := by
  induction h with
  | nil => rfl
  | cons bill h ih =>
      rw [List.pairwise_cons] at hsorted
      by_cases hz : bill.zxId ≤ z
      · have hrest := ih hsorted.2
        simp only [upTo, above, List.filter_cons] at hrest ⊢
        simp only [hz, decide_true, if_true, show ¬ z < bill.zxId by grind, decide_false,
          Bool.false_eq_true, if_false, List.cons_append, hrest]
      · have hgt : ∀ x ∈ bill :: h, z < x.zxId := by
          intro x hx
          rcases List.mem_cons.mp hx with rfl | hx
          · grind
          · have := hsorted.1 x hx
            grind
        have hnil : upTo z (bill :: h) = [] :=
          List.filter_eq_nil_iff.mpr fun x hx => by
            have := hgt x hx
            grind
        have hall : above z (bill :: h) = bill :: h :=
          List.filter_eq_self.mpr fun x hx => decide_eq_true (hgt x hx)
        rw [hnil, hall, List.nil_append]

theorem rollbackBill_applyBill (hundo : ∀ t s data, m.rollback t (m.apply t s data) data = s)
    {s s' : σ} {bill : Bill} (h : m.applyBill s bill = some s') :
    m.rollbackBill s' bill = some s := by
  simp only [Machine.applyBill, Option.none_or, Option.bind_eq_some_iff,
    Option.map_eq_some_iff] at h
  obtain ⟨type, htype, t, ht, rfl⟩ := h
  simp [Machine.rollbackBill, htype, ht, hundo]

/-- `Trunc` takes back what lies above an id, and stops there. -/
theorem truncLoop_replay (hundo : ∀ t s data, m.rollback t (m.apply t s data) data = s)
    {z : Int64} {s : σ} (keep gone : List Bill)
    (hkeep : ∀ bill ∈ keep, bill.zxId ≤ z) :
    ∀ s', (∀ bill ∈ gone, z < bill.zxId) → m.replay s gone = some s' →
      DataSet.truncLoop m z (keep ++ gone).reverse s' = (keep.reverse, s, none) := by
  induction gone using List.reverseRecOn with
  | nil =>
      intro s' _ hs
      simp only [Machine.replay, List.foldlM_nil, Option.pure_def, Option.some.injEq] at hs
      subst hs
      rw [List.append_nil]
      cases hr : keep.reverse with
      | nil => rfl
      | cons bill rest =>
          have hle := hkeep bill (List.mem_reverse.mp (by rw [hr]; exact .head _))
          have hlt : ¬ z < bill.zxId := by grind
          simp only [DataSet.truncLoop, if_neg hlt]
  | append_singleton gone bill ih =>
      intro s' hgone hs
      simp only [Machine.replay, List.foldlM_append, List.foldlM_cons, List.foldlM_nil,
        Option.bind_eq_bind, Option.bind_eq_some_iff, Option.pure_def, Option.some.injEq] at hs
      obtain ⟨u, hu, s'', happly, rfl⟩ := hs
      have hbill : z < bill.zxId := hgone bill (by simp)
      have hback := rollbackBill_applyBill hundo happly
      have hrest := ih u (fun b hb => hgone b (by simp [hb])) hu
      rw [← List.append_assoc, List.reverse_append, List.reverse_singleton, List.singleton_append]
      simp only [DataSet.truncLoop, if_pos hbill, hback]
      exact hrest

variable {start : σ} {base : Int64} {d : DataSet σ}

/-- No bill lies above the id of the data set. -/
theorem DataSet.Holds.le_zxId (hd : d.Holds m start h base) {bill : Bill} (hb : bill ∈ h) :
    bill.zxId ≤ d.zxId := by
  rw [hd.zxId]
  induction h using List.reverseRecOn with
  | nil => cases hb
  | append_singleton h last _ =>
      have hsorted := hd.sorted
      rw [List.pairwise_append] at hsorted
      rw [List.getLast?_append, List.getLast?_singleton]
      rcases List.mem_append.mp hb with hb | hb
      · have := hsorted.2.2 bill hb last (.head _)
        exact Std.le_of_lt this
      · rw [List.mem_singleton] at hb
        subst hb
        exact Std.le_refl _

theorem DataSet.Holds.mem_of_ne_nil (hd : d.Holds m start h base) (hne : h ≠ []) :
    d.zxId ∈ h.map Bill.zxId := by
  rw [hd.zxId, List.getLast?_eq_some_getLast hne]
  exact List.mem_map.mpr ⟨h.getLast hne, List.getLast_mem hne, rfl⟩

/-- Only the empty history has id zero. -/
theorem DataSet.Holds.eq_nil (hd : d.Holds m start h base) (hz : d.zxId = 0) : h = [] := by
  by_contra hne
  obtain ⟨bill, hbill, hid⟩ := List.mem_map.mp (hd.mem_of_ne_nil hne)
  have := hd.positive bill hbill
  grind

end History

/-! ## The three openings -/

section Openings

variable {m : Machine σ τ} {io : SyncFiles} {inPlace : Bool} {leader follower d : DataSet σ}
  {start : σ} {h h' : List Bill} {base base' b : Int64}

theorem saved_eq_self {bills : List Bill} (h : ∀ bill ∈ bills, io.save bill.zxId = true) :
    io.saved bills = bills :=
  List.filter_eq_self.mpr h

/-- A follower that an opening brought to the leader's state, with nothing
uncommitted, ends synchronised. -/
theorem sync_of_opening
    (hfirst : ∀ rest, syncFirst m io follower
      (syncOpening m leader follower.zxId inPlace ++ rest) = (d, .ok rest))
    (hnone : d.uncommit = [])
    (hsave : ∀ bill ∈ leader.uncommit, io.save bill.zxId = true)
    (hsize : ∀ bill ∈ leader.uncommit, bill.data.length < 2 ^ 31) :
    syncWithLeader m io follower (startFrames m leader follower.zxId inPlace) =
      ({ d with uncommit := leader.uncommit }, .synced) := by
  have hlen := uncommit_fuel leader.uncommit
  simp only [syncWithLeader, startFrames, syncFollower, List.append_assoc, hfirst]
  rw [syncLoop_uncommit _ _ _ hlen hsize, hnone, List.nil_append, saved_eq_self hsave]

/-- A follower at the leader's id has the leader's history. -/
theorem history_eq (hl : leader.Holds m start h base) (hf : follower.Holds m start h' base')
    (hagree : HistoriesAgree h h') (hz : follower.zxId = leader.zxId) : h = h' := by
  by_cases hnil : h = []
  · have hzero : leader.zxId = 0 := by
      rw [hl.zxId, hnil]
      rfl
    rw [hnil, hf.eq_nil (hz.trans hzero)]
  · have hnil' : h' ≠ [] := by
      rintro rfl
      exact hnil (hl.eq_nil (hz ▸ hf.zxId))
    have hmem := hl.mem_of_ne_nil hnil
    have hcut := hagree _ hmem (hz ▸ hf.mem_of_ne_nil hnil')
    rwa [upTo_eq_self fun _ hb => hl.le_zxId hb,
      upTo_eq_self fun _ hb => hz ▸ hf.le_zxId hb] at hcut

/-- A follower ahead of the leader has the leader's history below its own. -/
theorem history_prefix (hl : leader.Holds m start h base) (hf : follower.Holds m start h' base')
    (hagree : HistoriesAgree h h')
    (hz : leader.zxId ∈ h'.map Bill.zxId ∨ leader.zxId = 0) : upTo leader.zxId h' = h := by
  have hzero : leader.zxId = 0 → upTo leader.zxId h' = h := by
    intro hzero
    rw [hl.eq_nil hzero]
    refine List.filter_eq_nil_iff.mpr fun bill hbill => ?_
    have := hf.positive bill hbill
    grind
  rcases hz with hmem | hz
  · by_cases hnil : h = []
    · refine hzero ?_
      rw [hl.zxId, hnil]
      rfl
    · have hcut := hagree _ (hl.mem_of_ne_nil hnil) hmem
      rw [← hcut, upTo_eq_self fun _ hb => hl.le_zxId hb]
  · exact hzero hz

/-- `Trunc` brings a follower that is ahead to the leader's state. -/
theorem trunc_reaches (hm : m.Lawful) (hl : leader.Holds m start h base)
    (hf : follower.Holds m start h' base') (hbase : base' ≤ leader.zxId)
    (hcut : upTo leader.zxId h' = h) (files : Option Thrown) :
    follower.trunc m leader.zxId files =
      ({ follower with
          commitLog := above base' h, stateData := leader.stateData, zxId := leader.zxId },
        files) := by
  have hsplit : h ++ above leader.zxId h' = h' := by
    rw [← hcut]
    exact upTo_append_above _ hf.sorted
  have hlog : follower.commitLog = above base' h ++ above leader.zxId h' := by
    calc follower.commitLog
        = above base' (h ++ above leader.zxId h') := by rw [hf.log, hsplit]
      _ = above base' h ++ above base' (above leader.zxId h') := List.filter_append ..
      _ = above base' h ++ above leader.zxId h' := by rw [above_above_of_le hbase]
  have hreplay : m.replay leader.stateData (above leader.zxId h') = some follower.stateData := by
    have hstate := hf.state
    rw [← hsplit] at hstate
    have hlead : h.foldlM (fun s bill => m.applyBill s bill) start = some leader.stateData :=
      hl.state
    simp only [Machine.replay, List.foldlM_append, hlead, Option.bind_eq_bind,
      Option.bind_some] at hstate
    exact hstate
  have hloop := truncLoop_replay hm.rollback_apply (above base' h) (above leader.zxId h')
    (fun bill hbill => hl.le_zxId (List.mem_filter.mp hbill).1) _
    (fun bill hbill => by simpa using (List.mem_filter.mp hbill).2) hreplay
  rw [DataSet.trunc, hlog, hloop]
  simp

theorem dropWhile_le {z : Int64} {bills : List Bill}
    (hsorted : bills.Pairwise fun a b => b.zxId < a.zxId) :
    ∀ bill ∈ bills.dropWhile (fun bill => decide (z < bill.zxId)), bill.zxId ≤ z := by
  induction bills with
  | nil => exact nofun
  | cons x bills ih =>
      intro bill hbill
      rw [List.pairwise_cons] at hsorted
      rw [List.dropWhile_cons] at hbill
      split at hbill
      next => exact ih hsorted.2 bill hbill
      next hx =>
        have hxz : x.zxId ≤ z := by
          simp only [decide_eq_true_eq] at hx
          grind
        rcases List.mem_cons.mp hbill with rfl | hbill
        · exact hxz
        · have := hsorted.1 bill hbill
          grind

/-- A snapshot leaves no bill of the follower above the leader's id. -/
theorem snap_commitLog (hf : follower.Holds m start h' base') (z : Int64) (data : Bytes)
    (hz : z ≤ b) : above b (follower.snap m z data none).1.commitLog = [] := by
  refine above_eq_nil fun bill hbill => ?_
  have hsorted : follower.commitLog.Pairwise fun x y => x.zxId < y.zxId := by
    rw [hf.log]
    exact hf.sorted.sublist List.filter_sublist
  have hle : bill.zxId ≤ z :=
    dropWhile_le (List.pairwise_reverse.mpr hsorted) bill (List.mem_reverse.mp hbill)
  grind

/-- Where `SyncFollower` sends one opening that fits, the follower ends with the
leader's state. -/
theorem sync_reaches_leader (hm : m.Lawful) (hl : leader.Holds m start h base)
    (hf : follower.Holds m start h' base') (hagree : HistoriesAgree h h')
    (hcan : CanSync m io inPlace leader follower h' base') (hb : base ≤ b) (hb' : base' ≤ b)
    (hmin : (syncWithLeader m io follower
      (startFrames m leader follower.zxId inPlace)).1.minZxId ≤ b) :
    SyncReached leader b (syncWithLeader m io follower
      (startFrames m leader follower.zxId inPlace)) := by
  rcases hcan.opening with hz | ⟨hahead, hfiles, hbase, hz⟩ | ⟨hsnap, hfiles, hsize, hplace⟩
  · have hdiff : syncOpening m leader follower.zxId inPlace = [Px.diffDataset.code] := by
      rw [syncOpening, if_pos hz]
    rw [sync_of_opening (d := follower) (fun rest => by rw [hdiff]; exact syncFirst_diff _ rest)
      hcan.uncommit hcan.saves hcan.sizes]
    have heq := history_eq hl hf hagree hz
    subst heq
    refine ⟨rfl, hz, ?_, ?_, rfl⟩
    · exact Option.some.inj (hf.state.symm.trans hl.state)
    · simp only [hf.log, hl.log, above_above hb, above_above hb']
  · have hcut := history_prefix hl hf hagree hz
    have htrunc := trunc_reaches hm hl hf hbase hcut none
    have hopen : syncOpening m leader follower.zxId inPlace = truncFrame leader.zxId := by
      rw [syncOpening, if_neg (by grind), if_pos hahead]
    have hfirst : ∀ rest, syncFirst m io follower
        (syncOpening m leader follower.zxId inPlace ++ rest) =
        ({ follower with
            commitLog := above base' h, stateData := leader.stateData, zxId := leader.zxId },
          .ok rest) := by
      intro rest
      rw [hopen]
      exact syncFirst_trunc (hfiles ▸ htrunc) rest
    rw [sync_of_opening hfirst hcan.uncommit hcan.saves hcan.sizes]
    refine ⟨rfl, rfl, rfl, ?_, rfl⟩
    simp only [hl.log, above_above hb, above_above hb']
  · have hopen := syncOpening_snap m inPlace hsnap (Std.le_trans hl.min_le hl.base_le)
    have hfirst : ∀ rest, syncFirst m io follower
        (syncOpening m leader follower.zxId inPlace ++ rest) =
        ((follower.snap m leader.zxId (m.getData leader.stateData) none).1, .ok rest) := by
      intro rest
      rw [hopen]
      exact syncFirst_snap hfiles hsize hplace rest
    have hresult := sync_of_opening hfirst hcan.uncommit hcan.saves hcan.sizes
    rw [hresult] at hmin ⊢
    have hzb : leader.zxId ≤ b := hmin
    refine ⟨rfl, rfl, hm.build_getData _ _, ?_, rfl⟩
    rw [hl.log, above_above hb, above_eq_nil fun bill hbill =>
      Std.le_trans (hl.le_zxId hbill) hzb]
    exact snap_commitLog hf _ (m.getData leader.stateData) hzb

end Openings

/-! ## A follower that lags -/

/-- Bytes that the loop of `SyncWithLeader` skips one by one. -/
def Inert (bs : Bytes) : Prop :=
  ∀ b ∈ bs, b ≠ Px.updated.code ∧ b ≠ Px.propose.code ∧ b ≠ Px.commit.code

instance (bs : Bytes) : Decidable (Inert bs) := List.decidableBAll _ bs

theorem Px.code_of_ofByte {b : UInt8} {px : Px} (h : Px.ofByte b = some px) : px.code = b := by
  simpa using List.find?_some h

section Lagging

variable {m : Machine σ τ} {io : SyncFiles} {inPlace : Bool} {leader follower : DataSet σ}
  {start : σ} {h : List Bill} {base : Int64}

theorem Inert.append {bs bs' : Bytes} (h : Inert bs) (h' : Inert bs') : Inert (bs ++ bs') :=
  fun b hb => (List.mem_append.mp hb).elim (h b) (h' b)

theorem syncLoop_inert (bs : Bytes) (fuel : Nat) (d : DataSet σ) (rest : Bytes)
    (hinert : Inert bs) :
    syncLoop m io (bs.length + fuel) d (bs ++ rest) = syncLoop m io fuel d rest := by
  induction bs with
  | nil => simp
  | cons b bs ih =>
      obtain ⟨hu, hp, hc⟩ := hinert b (.head _)
      have hskip := ih fun x hx => hinert x (.tail _ hx)
      have hlen : (b :: bs).length + fuel = (bs.length + fuel) + 1 := by
        rw [List.length_cons]
        omega
      rw [hlen, List.cons_append, syncLoop]
      split
      next hb => exact absurd (Px.code_of_ofByte hb).symm hu
      next hb => exact absurd (Px.code_of_ofByte hb).symm hp
      next hb => exact absurd (Px.code_of_ofByte hb).symm hc
      next => exact hskip

/-- Skipped bytes in front of the uncommitted bills change nothing. -/
theorem syncLoop_inert_uncommit (d : DataSet σ) {bs : Bytes} {bills : List Bill}
    (hinert : Inert bs) (hsize : ∀ bill ∈ bills, bill.data.length < 2 ^ 31) :
    syncLoop m io
        (bs ++ (bills.flatMap proposeFrame ++ [Px.newLeader.code, Px.updated.code])).length d
        (bs ++ (bills.flatMap proposeFrame ++ [Px.newLeader.code, Px.updated.code])) =
      ({ d with uncommit := d.uncommit ++ io.saved bills }, .synced) := by
  rw [List.length_append, syncLoop_inert _ _ _ _ hinert,
    syncLoop_uncommit _ _ _ (uncommit_fuel bills) hsize]

theorem truncFrame_inert {z : Int64} (hz : Inert (Codec.int64.encode z)) :
    Inert (truncFrame z) := by
  intro b hb
  rcases List.mem_cons.mp hb with rfl | hb
  · decide
  · exact hz b hb

/-- At or above the follower's id and within its epoch, every bill is answered
with another opening. -/
theorem diffLoop_inert (leaderZxId : Int64) (snap : Bytes) (inPlace : Bool) {last prev : Int64}
    (hprev : Inert (Codec.int64.encode prev)) (bills : List Bill)
    (hle : ∀ bill ∈ bills, last ≤ bill.zxId)
    (hepoch : ∀ bill ∈ bills, epochFromZxId bill.zxId = epochFromZxId last) :
    Inert (diffLoop leaderZxId snap inPlace last true prev bills) := by
  induction bills with
  | nil => simp [diffLoop, Inert]
  | cons bill bills ih =>
      have hlt : ¬ bill.zxId < last := by
        have := hle bill (.head _)
        grind
      have hrest := ih (fun b hb => hle b (.tail _ hb)) fun b hb => hepoch b (.tail _ hb)
      simp only [diffLoop, if_neg hlt, if_true]
      split
      next => exact @Inert.append [Px.diffDataset.code] _ (by decide) hrest
      next =>
        rw [if_neg (by simp [hepoch bill (.head _)])]
        exact (truncFrame_inert hprev).append hrest

/-- The loop passes over the bills below the follower's id. -/
theorem diffLoop_below (leaderZxId : Int64) (snap : Bytes) (inPlace : Bool) {last : Int64}
    (bills : List Bill) (prev : Int64) (hprev : prev ≤ last)
    (hsorted : bills.Pairwise fun a b => a.zxId < b.zxId) :
    ∃ prev' rest, diffLoop leaderZxId snap inPlace last true prev bills =
        diffLoop leaderZxId snap inPlace last true prev' rest ∧
      prev' ≤ last ∧ (prev' = prev ∨ prev' ∈ bills.map Bill.zxId) ∧
      (∀ bill ∈ rest, last ≤ bill.zxId ∧ bill ∈ bills) ∧
      ∀ bill ∈ bills, last ≤ bill.zxId → bill ∈ rest := by
  induction bills generalizing prev with
  | nil => exact ⟨prev, [], rfl, hprev, .inl rfl, by simp, by simp⟩
  | cons bill bills ih =>
      rw [List.pairwise_cons] at hsorted
      by_cases hlt : bill.zxId < last
      · obtain ⟨prev', rest, heq, hle, hmem, hrest, hall⟩ :=
          ih bill.zxId (Std.le_of_lt hlt) hsorted.2
        refine ⟨prev', rest, ?_, hle, .inr ?_, ?_, ?_⟩
        · rw [← heq, diffLoop, if_pos hlt]
        · rcases hmem with rfl | hmem
          · exact .head _
          · exact .tail _ hmem
        · exact fun b hb => ⟨(hrest b hb).1, .tail _ (hrest b hb).2⟩
        · intro b hb hlast
          rcases List.mem_cons.mp hb with rfl | hb
          · grind
          · exact hall b hb hlast
      · refine ⟨prev, bill :: bills, rfl, hprev, .inl rfl, ?_, fun b hb _ => hb⟩
        intro b hb
        refine ⟨?_, hb⟩
        rcases List.mem_cons.mp hb with rfl | hb
        · grind
        · have := hsorted.1 b hb
          grind

theorem trunc_zxId {d d' : DataSet σ} {z : Int64} {files : Option Thrown}
    (h : d.trunc m z files = (d', none)) : d'.zxId = z := by
  rw [DataSet.trunc] at h
  split at h
  next => cases h
  next =>
    cases h
    rfl

/-- A follower that lags within the leader's log and its epoch does not reach
the leader, unless bytes of an id happen to be taken for messages. -/
theorem lagging_not_reached (hl : leader.Holds m start h base) (hbase : base < leader.zxId)
    (hmin : leader.minZxId ≤ follower.zxId) (hlag : follower.zxId < leader.zxId)
    (hepoch : ∀ bill ∈ leader.commitLog, follower.zxId ≤ bill.zxId →
      epochFromZxId bill.zxId = epochFromZxId follower.zxId)
    (hinert : ∀ z, z = leader.minZxId ∨ z ∈ leader.commitLog.map Bill.zxId →
      Inert (Codec.int64.encode z))
    (hsize : ∀ bill ∈ leader.uncommit, bill.data.length < 2 ^ 31) (b : Int64) :
    ¬ SyncReached leader b (syncWithLeader m io follower
      (startFrames m leader follower.zxId inPlace)) := by
  have hsub : leader.query leader.minZxId leader.zxId |>.Sublist leader.commitLog :=
    List.filter_sublist
  have hsorted : (leader.query leader.minZxId leader.zxId).Pairwise fun a b => a.zxId < b.zxId := by
    refine List.Pairwise.sublist hsub ?_
    rw [hl.log]
    exact hl.sorted.sublist List.filter_sublist
  obtain ⟨prev, bills, hloop, hprev, hmem, hrest, hall⟩ :=
    diffLoop_below leader.zxId (m.getData leader.stateData) inPlace _ _ hmin hsorted
  have hprev_inert : Inert (Codec.int64.encode prev) := by
    refine hinert prev (hmem.imp id fun hmem => ?_)
    obtain ⟨bill, hbill, hid⟩ := List.mem_map.mp hmem
    exact List.mem_map.mpr ⟨bill, hsub.subset hbill, hid⟩
  have hopen : syncOpening m leader follower.zxId inPlace =
      diffLoop leader.zxId (m.getData leader.stateData) inPlace follower.zxId true prev bills := by
    rw [syncOpening, if_neg (by grind), if_neg (by grind), if_pos hmin, hloop]
  have hepoch' : ∀ bill ∈ bills, epochFromZxId bill.zxId = epochFromZxId follower.zxId :=
    fun bill hbill => hepoch bill (hsub.subset (hrest bill hbill).2) (hrest bill hbill).1
  -- the leader's last bill is among those the loop answers
  have hne : bills ≠ [] := by
    have hh : h ≠ [] := by
      intro hnil
      have := hl.zxId
      have := hl.min_nonneg
      have := hl.min_le
      grind
    obtain ⟨bill, hbill, hid⟩ := List.mem_map.mp (hl.mem_of_ne_nil hh)
    refine List.ne_nil_of_mem (hall bill ?_ (by grind))
    rw [DataSet.query, hl.log]
    refine List.mem_filter.mpr ⟨List.mem_filter.mpr ⟨hbill, by grind⟩, ?_⟩
    have := hl.min_le
    grind
  obtain ⟨bill, bills, rfl⟩ := List.exists_cons_of_ne_nil hne
  have hlt : ¬ bill.zxId < follower.zxId := by
    have := (hrest bill (.head _)).1
    grind
  have hinert' : Inert (diffLoop leader.zxId (m.getData leader.stateData) inPlace follower.zxId
      true prev bills) :=
    diffLoop_inert _ _ _ hprev_inert bills (fun b hb => (hrest b (.tail _ hb)).1)
      fun b hb => hepoch' b (.tail _ hb)
  intro hreached
  simp only [diffLoop, if_neg hlt, if_true] at hopen
  split at hopen
  next =>
    have hz := hreached.zxId
    simp only [syncWithLeader, startFrames, syncFollower, hopen, List.append_assoc,
      List.cons_append, syncFirst_diff, syncLoop_inert_uncommit follower hinert' hsize] at hz
    grind
  next =>
    rw [if_neg (by simp [hepoch' bill (.head _)])] at hopen
    rcases htrunc : follower.trunc m prev io.files with ⟨d, e⟩
    cases e with
    | some e =>
        have hend := hreached.synced
        simp only [syncWithLeader, startFrames, syncFollower, hopen, List.append_assoc,
          syncFirst_trunc_throws htrunc] at hend
        cases hend
    | none =>
        have hz := hreached.zxId
        simp only [syncWithLeader, startFrames, syncFollower, hopen, List.append_assoc,
          syncFirst_trunc htrunc, syncLoop_inert_uncommit d hinert' hsize, trunc_zxId htrunc] at hz
        grind

end Lagging

/-! ## Runs of the handshake -/

/-- All file calls succeed. -/
def SyncFiles.good : SyncFiles := ⟨fun _ => true, none, true, 100000⟩

theorem Machine.tape_lawful : Machine.tape.Lawful where
  rollback_apply t s data := by simp [Machine.tape]
  build_getData s s' := rfl

/-- A follower with the first of the leader's two bills stays where it is. -/
theorem lagging_follower_stays_behind :
    ¬ ∀ (leader follower : DataSet Bytes) (h h' : List Bill),
      leader.Holds Machine.tape [] h leader.minZxId →
      follower.Holds Machine.tape [] h' follower.minZxId →
      HistoriesAgree h h' → follower.uncommit = [] →
      SyncReached leader (max leader.minZxId follower.minZxId)
        (syncWithLeader Machine.tape .good follower
          (startFrames Machine.tape leader follower.zxId true)) := by
  intro hall
  have hsync := hall
    { stateData := [65, 66], zxId := zxIdOf 1 2,
      commitLog := [⟨zxIdOf 1 1, [65]⟩, ⟨zxIdOf 1 2, [66]⟩] }
    { stateData := [65], zxId := zxIdOf 1 1, commitLog := [⟨zxIdOf 1 1, [65]⟩] }
    [⟨zxIdOf 1 1, [65]⟩, ⟨zxIdOf 1 2, [66]⟩] [⟨zxIdOf 1 1, [65]⟩]
    ⟨by decide, by decide, rfl, by decide, by decide, by decide, by decide, by decide⟩
    ⟨by decide, by decide, rfl, by decide, by decide, by decide, by decide, by decide⟩
    (by decide) rfl
  exact absurd hsync.zxId (by decide +kernel)

/-- A follower with one bill more than the leader is cut back, and gets the
leader's uncommitted bill. -/
theorem sync_reaches_leader_ahead :
    SyncReached (σ := Bytes)
      { stateData := [65], zxId := zxIdOf 1 1, commitLog := [⟨zxIdOf 1 1, [65]⟩],
        uncommit := [⟨zxIdOf 2 1, [67]⟩] } 0
      (syncWithLeader Machine.tape .good
        { stateData := [65, 66], zxId := zxIdOf 1 2,
          commitLog := [⟨zxIdOf 1 1, [65]⟩, ⟨zxIdOf 1 2, [66]⟩] }
        (startFrames Machine.tape
          { stateData := [65], zxId := zxIdOf 1 1, commitLog := [⟨zxIdOf 1 1, [65]⟩],
            uncommit := [⟨zxIdOf 2 1, [67]⟩] } (zxIdOf 1 2) true)) :=
  have hl : DataSet.Holds Machine.tape [] [⟨zxIdOf 1 1, [65]⟩] 0
      { stateData := [65], zxId := zxIdOf 1 1, commitLog := [⟨zxIdOf 1 1, [65]⟩],
        uncommit := [⟨zxIdOf 2 1, [67]⟩] } :=
    ⟨by decide, by decide, rfl, by decide, by decide, by decide, by decide, by decide⟩
  have hf : DataSet.Holds Machine.tape [] [⟨zxIdOf 1 1, [65]⟩, ⟨zxIdOf 1 2, [66]⟩] 0
      { stateData := [65, 66], zxId := zxIdOf 1 2,
        commitLog := [⟨zxIdOf 1 1, [65]⟩, ⟨zxIdOf 1 2, [66]⟩] } :=
    ⟨by decide, by decide, rfl, by decide, by decide, by decide, by decide, by decide⟩
  sync_reaches_leader Machine.tape_lawful hl hf (by decide)
    ⟨rfl, by decide, by decide, .inr (.inl ⟨by decide, rfl, by decide, .inl (by decide)⟩)⟩
    (by decide) (by decide) (by decide +kernel)

end Paxos
