import Zookeeper.Paxos.Lead

/-!
# The ids of a term

`Lead::Propose` puts the number of the draft into the lower half of its id, below the epoch
of the term (`paxos/paxos/lead.cpp`).  The number is a 64-bit counter that starts at one and
is never looked at again, so after `2 ^ 32` drafts it runs into the epoch.

`ids_ordered_iff` says that the ids of a term are in order, and carry its epoch, if and only
if there were fewer calls than that.
-/

namespace Paxos

variable {n : Nat}

/-! ## The calls of a term -/

/-- A call that a `Lead` gets, with how `DataSet::Propose` and `DataSet::Commit` end in it. -/
inductive LeadCall (n : Nat) where
  | propose (id : Fin n) (requestId : Int64) (data : Bytes) (save : Int64 → Bool)
  | ackPropose (id : Fin n) (zxId : Int64) (save : Int64 → Bool)
  /-- An acknowledgement in which `DataSet::Commit` throws. -/
  | ackThrows (id : Fin n) (zxId : Int64)

def LeadCall.isPropose : LeadCall n → Bool
  | .propose .. => true
  | _ => false

namespace Lead

/-- A call, and the id it gives to a draft. -/
def call (l : Lead n) : LeadCall n → Lead n × Option Int64
  | .propose id requestId data save =>
      ((l.propose id requestId data save).1, some (zxIdOf l.peerEpoch l.nextId))
  | .ackPropose id zxId save => ((l.ackPropose id zxId save).1, none)
  | .ackThrows id zxId => ((l.vote id zxId).1, none)

/-- The ids given in a sequence of calls. -/
def assigned : List (LeadCall n) → Lead n → List Int64
  | [], _ => []
  | c :: cs, l => (l.call c).2.toList ++ assigned cs (l.call c).1

/-- The first ids that are given from a number on. -/
def idsFrom (epoch : Int32) (first : Int64) (count : Nat) : List Int64 :=
  (List.range count).map fun i => zxIdOf epoch (first + Int64.ofNat i)

variable {l : Lead n}

/-- The number of the next draft changes where a draft is queued. -/
theorem call_nextId (l : Lead n) (c : LeadCall n) :
    (l.call c).1.peerEpoch = l.peerEpoch ∧
      (l.call c).1.nextId = if c.isPropose then l.nextId + 1 else l.nextId := by
  have hvote : ∀ id zxId, (l.vote id zxId).1.peerEpoch = l.peerEpoch ∧
      (l.vote id zxId).1.nextId = l.nextId := by
    intro id zxId
    rcases l.vote_cases id zxId with heq | ⟨_, _, _, _, heq⟩ <;> rw [heq] <;> exact ⟨rfl, rfl⟩
  cases c with
  | propose id requestId data save =>
      obtain ⟨ds, _, heq⟩ := l.propose_eq id requestId data save
      rw [call, heq]
      exact ⟨rfl, rfl⟩
  | ackPropose id zxId save =>
      rcases l.ackPropose_cases id zxId save with heq | ⟨d, launch, _, heq⟩
      · rw [call, heq]
        exact hvote id zxId
      · obtain ⟨ds, _, hafter⟩ := (l.vote id zxId).1.afterCommit_eq zxId save
        rw [call, heq, hafter]
        exact hvote id zxId
  | ackThrows id zxId => exact hvote id zxId

theorem idsFrom_succ (epoch : Int32) (first : Int64) (count : Nat) :
    idsFrom epoch first (count + 1) = zxIdOf epoch first :: idsFrom epoch (first + 1) count := by
  rw [idsFrom, idsFrom, List.range_succ_eq_map, List.map_cons, List.map_map]
  congr 1
  · rw [show Int64.ofNat 0 = 0 from rfl, Int64.add_zero]
  · refine List.map_congr_left fun i _ => ?_
    change zxIdOf epoch (first + Int64.ofNat (i + 1)) = _
    rw [Int64.ofNat_add, Int64.add_comm (Int64.ofNat i), ← Int64.add_assoc]
    rfl

/-- The ids of the proposals, in order. -/
theorem assigned_eq (cs : List (LeadCall n)) (l : Lead n) :
    assigned cs l = idsFrom l.peerEpoch l.nextId (cs.countP LeadCall.isPropose) := by
  induction cs generalizing l with
  | nil => rfl
  | cons c cs ih =>
      obtain ⟨hepoch, hnext⟩ := l.call_nextId c
      rw [assigned, ih, hepoch, hnext, List.countP_cons]
      cases c with
      | propose id requestId data save => exact (idsFrom_succ _ _ _).symm
      | ackPropose => rfl
      | ackThrows => rfl

end Lead

/-! ## The order of the ids -/

/-- The ids of a term increase, carry its epoch, and are above all ids of lower epochs. -/
structure IdsOrdered (epoch : Int32) (ids : List Int64) : Prop where
  increasing : ids.Pairwise (· < ·)
  carries : ∀ z ∈ ids, epochFromZxId z = epoch.toInt64
  above : ∀ z ∈ ids, ∀ v, epochFromZxId v < epoch.toInt64 → v < z

/-- The numbers that less than `2 ^ 32` drafts get fit in the lower half. -/
theorem isDraftId_add {count i : Nat} (hcount : count < 2 ^ 32) (hi : i < count) :
    IsDraftId (1 + Int64.ofNat i) ∧ (1 + Int64.ofNat i).toInt = i + 1 := by
  have hone : (1 : Int64) + Int64.ofNat i = Int64.ofNat (i + 1) := by
    rw [Int64.ofNat_add, Int64.add_comm]
    rfl
  have hint : (1 + Int64.ofNat i).toInt = i + 1 := by
    rw [hone, Int64.toInt_ofNat_of_lt (by omega)]
    omega
  exact ⟨⟨by omega, by omega⟩, hint⟩

/-- The epoch is read back from an id whose number fits. -/
theorem epochFromZxId_zxIdOf {epoch : Int32} (hpos : 0 < epoch) {id : Int64} (h : IsDraftId id) :
    epochFromZxId (zxIdOf epoch id) = epoch.toInt64 := by
  have hlt := epoch.toInt_lt
  obtain ⟨hlo, hhi⟩ := h
  rw [Int32.lt_iff_toInt_lt, Int32.toInt_zero] at hpos
  rw [← Int64.toInt_inj, epochFromZxId_toInt, zxIdOf_toInt epoch ⟨hlo, hhi⟩, Int32.toInt_toInt64]
  omega

/-- An id is above every id with a lower epoch. -/
theorem lt_of_epochFromZxId_lt {epoch : Int32} (hpos : 0 < epoch) {id v : Int64}
    (h : IsDraftId id) (hv : epochFromZxId v < epoch.toInt64) : v < zxIdOf epoch id := by
  have hlt := epoch.toInt_lt
  have hmax := v.toInt_lt
  have hmin := v.le_toInt
  obtain ⟨hlo, hhi⟩ := h
  rw [Int32.lt_iff_toInt_lt, Int32.toInt_zero] at hpos
  rw [Int64.lt_iff_toInt_lt, epochFromZxId_toInt, Int32.toInt_toInt64] at hv
  rw [Int64.lt_iff_toInt_lt, zxIdOf_toInt epoch ⟨hlo, hhi⟩]
  omega

theorem idsOrdered_short {epoch : Int32} (hpos : 0 < epoch) {count : Nat}
    (hcount : count < 2 ^ 32) : IdsOrdered epoch (Lead.idsFrom epoch 1 count) := by
  have hmem : ∀ z ∈ Lead.idsFrom epoch 1 count, ∃ id, IsDraftId id ∧ z = zxIdOf epoch id := by
    intro z hz
    obtain ⟨i, hi, rfl⟩ := List.mem_map.mp hz
    exact ⟨_, (isDraftId_add hcount (List.mem_range.mp hi)).1, rfl⟩
  constructor
  case increasing =>
    refine List.pairwise_map.mpr (List.pairwise_lt_range.imp_of_mem fun {i j} hi hj hlt => ?_)
    obtain ⟨hdi, hi⟩ := isDraftId_add hcount (List.mem_range.mp hi)
    obtain ⟨hdj, hj⟩ := isDraftId_add hcount (List.mem_range.mp hj)
    refine zxIdOf_lt_zxIdOf epoch hdi hdj ?_
    rw [Int64.lt_iff_toInt_lt, hi, hj]
    omega
  case carries =>
    intro z hz
    obtain ⟨id, hid, rfl⟩ := hmem z hz
    exact epochFromZxId_zxIdOf hpos hid
  case above =>
    intro z hz v hv
    obtain ⟨id, hid, rfl⟩ := hmem z hz
    exact lt_of_epochFromZxId_lt hpos hid hv

/-- The draft with the number `2 ^ 32` is out of order, or of another epoch. -/
theorem not_idsOrdered_long {epoch : Int32} (hpos : 0 < epoch) {count : Nat}
    (hcount : 2 ^ 32 ≤ count) : ¬ IdsOrdered epoch (Lead.idsFrom epoch 1 count) := by
  intro h
  have hget : ∀ i, (hi : i < count) → (Lead.idsFrom epoch 1 count)[i]? =
      some (zxIdOf epoch (1 + Int64.ofNat i)) := by
    intro i hi
    rw [Lead.idsFrom, List.getElem?_map, List.getElem?_range hi]
    rfl
  have hfirst := hget 0 (by omega)
  have hlast : (Lead.idsFrom epoch 1 count)[2 ^ 32 - 1]? = some (zxIdOf epoch 0x100000000) :=
    hget (2 ^ 32 - 1) (by omega)
  have hless : zxIdOf epoch 1 < zxIdOf epoch 0x100000000 := by
    obtain ⟨hlt₀, heq₀⟩ := List.getElem?_eq_some_iff.mp hfirst
    obtain ⟨hlt₁, heq₁⟩ := List.getElem?_eq_some_iff.mp hlast
    have hpair := List.pairwise_iff_getElem.mp h.increasing 0 (2 ^ 32 - 1) hlt₀ hlt₁ (by decide)
    rw [heq₀, heq₁] at hpair
    exact hpair
  have hepoch := congrArg Int64.toInt (h.carries _ (List.mem_of_getElem? hlast))
  have hempty := zxIdOf_wrapped epoch
  have hlt := epoch.toInt_lt
  have hmax := (zxIdOf epoch 0x100000000).toInt_lt
  have hmin := (zxIdOf epoch 0x100000000).le_toInt
  rw [Int32.lt_iff_toInt_lt, Int32.toInt_zero] at hpos
  have hone : (1 : Int64).toInt = 1 := rfl
  rw [Int64.lt_iff_toInt_lt, zxIdOf_toInt epoch (by decide), hone] at hless
  rw [epochFromZxId_toInt, Int32.toInt_toInt64] at hepoch
  -- with its lower half empty, it would be the epoch alone, which is below the first id
  omega

/-- The ids of a term are in order if and only if there are less than `2 ^ 32` of them. -/
theorem ids_ordered_iff (id : Fin n) {epoch : Int32} (hpos : 0 < epoch)
    (calls : List (LeadCall n)) :
    IdsOrdered epoch (Lead.assigned calls { id := id, peerEpoch := epoch }) ↔
      calls.countP LeadCall.isPropose < 2 ^ 32 := by
  rw [Lead.assigned_eq]
  constructor
  · intro h
    by_contra hlong
    exact not_idsOrdered_long hpos (Nat.le_of_not_lt hlong) h
  · exact idsOrdered_short hpos

/-- Two proposals, and an acknowledgement between them. -/
theorem ids_ordered_twoProposals : IdsOrdered 5 (Lead.assigned
    [.propose (0 : Fin 3) 1 [65] (fun _ => true), .ackPropose 1 (zxIdOf 5 1) (fun _ => true),
      .propose 2 1 [66] (fun _ => true)] { id := 0, peerEpoch := 5 }) :=
  (ids_ordered_iff 0 (by decide) _).mpr (by decide)

/-- A term with `2 ^ 32` proposals. -/
theorem counter_reaches_epoch :
    ¬ ∀ (epoch : Int32) (calls : List (LeadCall 3)), 0 < epoch →
      IdsOrdered epoch (Lead.assigned calls { id := 0, peerEpoch := epoch }) := by
  intro hall
  have h := hall 1 (List.replicate (2 ^ 32) (.propose 0 1 [65] fun _ => true)) (by decide)
  rw [Lead.assigned_eq, List.countP_replicate,
    if_pos (show LeadCall.isPropose _ = true from rfl)] at h
  exact not_idsOrdered_long (by decide) (Nat.le_refl _) h

end Paxos
