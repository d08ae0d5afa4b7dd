import Zookeeper.Paxos.Handshake
import Zookeeper.Paxos.ZxId
import Zookeeper.Transition

/-!
# The choice of an epoch

`Lead::GetPeerEpoch` is called by `Leading` and by the handler of every follower.  A
call stores the epoch it is given, looks for a majority every 100 ms, sleeps 500 ms when
there is one, and computes the epoch of the term.  The calls interleave, and each writes
`_peerEpoch`.

An epoch of zero is not seen by the loop, and a cluster without data starts with zero
everywhere: `fresh_cluster_waits` is three servers that have all reported and wait
forever.  `epoch_chosen` says that the calls agree, and wait no longer than for a
majority, where no report is missed in this way, none withdraws an epoch a waiting call
was given, and no epoch is the greatest of all.
-/

namespace Paxos

open Majority

variable {n : Nat}

/-- Where a call of `GetPeerEpoch` is. -/
inductive WaitStage where
  | polling
  | sleeping
  | done (peerEpoch : Int32)
deriving DecidableEq, Repr

/-- A call of `GetPeerEpoch`. -/
structure EpochCall (n : Nat) where
  id : Fin n
  /-- The epoch the server reported. -/
  own : Int32
  /-- The call stored it, as the epoch was still open. -/
  stored : Bool
  stage : WaitStage
deriving DecidableEq

/-- A lead while it waits for epochs, and when drafts are given their ids. -/
structure EpochChoice (n : Nat) where
  lead : LeadTables n
  calls : List (EpochCall n) := []
  nextId : Int64 := 1
  /-- The ids given to drafts, in their order. -/
  zxIds : List Int64 := []

/-- The steps of the calls. -/
inductive ChoiceAct (n : Nat) where
  /-- `GetPeerEpoch` is called. -/
  | report (id : Fin n) (peerEpoch : Int32)
  /-- A call counts the reports, and sleeps. -/
  | poll (call : Nat)
  /-- The sleep of 500 ms is over. -/
  | finish (call : Nat)
  /-- `Propose`, from a server whose call has returned. -/
  | propose (call : Nat)

namespace EpochChoice

def setStage (s : EpochChoice n) (c : Nat) (x : EpochCall n) (stage : WaitStage) :
    EpochChoice n :=
  { s with calls := s.calls.set c { x with stage := stage } }

/-- The first lines of `GetPeerEpoch`. -/
def report (s : EpochChoice n) (id : Fin n) (peerEpoch : Int32) : EpochChoice n :=
  if s.lead.waitForPeerEpoch then
    { s with
      lead := s.lead.report id peerEpoch
      calls := s.calls ++ [{ id := id, own := peerEpoch, stored := true, stage := .polling }] }
  else
    { s with
      calls := s.calls ++ [{ id := id, own := peerEpoch, stored := false
                             stage := .done s.lead.peerEpoch }] }

/-- One turn of the loop. -/
def poll (s : EpochChoice n) (c : Nat) (x : EpochCall n) : EpochChoice n :=
  if IsMajority s.lead.reported then s.setStage c x .sleeping else s

/-- The last lines. -/
def finish (s : EpochChoice n) (c : Nat) (x : EpochCall n) : EpochChoice n :=
  { s.setStage c x (.done (s.lead.greatest x.own + 1)) with lead := s.lead.finish x.own }

/-- The first lines of `Propose`. -/
def propose (s : EpochChoice n) : EpochChoice n :=
  { s with
    nextId := s.nextId + 1
    zxIds := s.zxIds ++ [zxIdOf s.lead.peerEpoch s.nextId] }

def step (s : EpochChoice n) : ChoiceAct n → Option (EpochChoice n)
  | .report id peerEpoch => if 0 ≤ peerEpoch then some (s.report id peerEpoch) else none
  | .poll c =>
      match s.calls[c]? with
      | some x => if x.stage = .polling then some (s.poll c x) else none
      | none => none
  | .finish c =>
      match s.calls[c]? with
      | some x => if x.stage = .sleeping then some (s.finish c x) else none
      | none => none
  | .propose c =>
      match s.calls[c]? with
      | some { stage := .done _, .. } => some s.propose
      | _ => none

/-- `_lead` before the first call. -/
def Fresh (s : EpochChoice n) : Prop := ∃ id, s = { lead := { id := id } }

/-- The servers that have called. -/
def reporters (s : EpochChoice n) : Finset (Fin n) :=
  Finset.univ.filter fun i => i ∈ s.calls.map EpochCall.id

end EpochChoice

/-- The interleavings of the calls on one lead. -/
def choiceSystem (n : Nat) : Transition.System (EpochChoice n) (ChoiceAct n) :=
  Transition.ofStep EpochChoice.Fresh EpochChoice.step

/-- What the calls are for. -/
structure EpochChosen (s : EpochChoice n) : Prop where
  /-- The loop ends where a majority of the servers has reported. -/
  waits : ∀ c x, s.calls[c]? = some x → x.stage = .polling →
    ((s.poll c x).calls[c]? = some { x with stage := .sleeping } ↔ IsMajority s.reporters)
  /-- Every call returns the epoch of the term. -/
  agrees : ∀ x ∈ s.calls, ∀ e, x.stage = .done e → e = s.lead.peerEpoch
  /-- The drafts of the term are numbered in it. -/
  numbered : ∀ k z, s.zxIds[k]? = some z → z = zxIdOf s.lead.peerEpoch (1 + Int64.ofNat k)
  /-- It is above all epochs reported until it was chosen. -/
  above : ∀ x ∈ s.calls, ∀ e, x.stage = .done e → ∀ y ∈ s.calls, y.stored = true → y.own < e

/-- While the epoch is open, a report of zero comes when a majority is counted without
it, every call that waits has been given an epoch that is not above all the stored ones,
and the greatest epoch is not reported. -/
def Sound (s : EpochChoice n) : ChoiceAct n → Prop
  | .report id peerEpoch => s.lead.waitForPeerEpoch = true →
      (0 < peerEpoch ∨ IsMajority (s.lead.report id peerEpoch).reported) ∧
      (∀ x ∈ s.calls, ∃ j, x.own ≤ (s.lead.report id peerEpoch).recvPeerEpoch j) ∧
      peerEpoch ≠ Int32.maxValue
  | _ => True

instance (s : EpochChoice n) : ∀ a, Decidable (Sound s a)
  | .report _ _ => inferInstanceAs (Decidable (_ → _))
  | .poll _ => inferInstanceAs (Decidable True)
  | .finish _ => inferInstanceAs (Decidable True)
  | .propose _ => inferInstanceAs (Decidable True)

/-! ## What the steps keep -/

namespace EpochChoice

/-- What the calls keep, in runs of sound reports. -/
structure Inv (s : EpochChoice n) : Prop where
  nonneg : ∀ i, 0 ≤ s.lead.recvPeerEpoch i
  ne_max : ∀ i, s.lead.recvPeerEpoch i ≠ Int32.maxValue
  backed : s.lead.reported ⊆ s.reporters
  counted : s.reporters ⊆ s.lead.reported ∨ IsMajority s.lead.reported
  covered : ∀ x ∈ s.calls, x.stored = true → ∃ j, x.own ≤ s.lead.recvPeerEpoch j
  /-- Until the epoch is fixed, no call has returned. -/
  opened : s.lead.waitForPeerEpoch = true →
    s.zxIds = [] ∧ ∀ x ∈ s.calls, ∀ e, x.stage ≠ .done e
  closed : s.lead.waitForPeerEpoch = false →
    IsMajority s.lead.reported ∧ s.lead.peerEpoch = s.lead.greatest 0 + 1
  waiting : ∀ x ∈ s.calls, x.stored = false → ∃ e, x.stage = .done e
  sleeping : ∀ x ∈ s.calls, x.stage = .sleeping → IsMajority s.lead.reported
  done : ∀ x ∈ s.calls, ∀ e, x.stage = .done e →
    s.lead.waitForPeerEpoch = false ∧ e = s.lead.peerEpoch
  nextId : s.nextId = 1 + Int64.ofNat s.zxIds.length
  numbered : ∀ k z, s.zxIds[k]? = some z → z = zxIdOf s.lead.peerEpoch (1 + Int64.ofNat k)

@[simp] theorem mem_reporters {s : EpochChoice n} {i : Fin n} :
    i ∈ s.reporters ↔ ∃ x ∈ s.calls, x.id = i := by
  simp [reporters]

theorem reporters_congr {s s' : EpochChoice n}
    (h : s'.calls.map EpochCall.id = s.calls.map EpochCall.id) : s'.reporters = s.reporters := by
  unfold reporters
  rw [h]

/-- A call that goes on is still a call of its server. -/
theorem map_id_set {calls : List (EpochCall n)} {c : Nat} {x : EpochCall n}
    (hx : calls[c]? = some x) (stage : WaitStage) :
    (calls.set c { x with stage := stage }).map EpochCall.id = calls.map EpochCall.id := by
  obtain ⟨hlt, hget⟩ := List.getElem?_eq_some_iff.mp hx
  have hlt' : c < (calls.map EpochCall.id).length := by rwa [List.length_map]
  have hid : ({ x with stage := stage } : EpochCall n).id = (calls.map EpochCall.id)[c] := by
    rw [List.getElem_map, hget]
  rw [List.map_set, hid, List.set_getElem_self]

theorem reporters_setStage {s : EpochChoice n} {c : Nat} {x : EpochCall n}
    (hx : s.calls[c]? = some x) (stage : WaitStage) :
    (s.setStage c x stage).reporters = s.reporters :=
  reporters_congr (map_id_set hx stage)

/-- A call in the list after a report is the new one, or was there before. -/
theorem mem_report {calls : List (EpochCall n)} {x y : EpochCall n} :
    x ∈ calls ++ [y] ↔ x ∈ calls ∨ x = y := by
  rw [List.mem_append, List.mem_singleton]

/-- A call in the list after a step is the one that moved, or was there before. -/
theorem mem_setStage {s : EpochChoice n} {c : Nat} {x y : EpochCall n} {stage : WaitStage}
    (hy : y ∈ (s.setStage c x stage).calls) : y ∈ s.calls ∨ y = { x with stage := stage } :=
  List.mem_or_eq_of_mem_set hy

namespace Inv

variable {s : EpochChoice n}

theorem of_fresh (h : s.Fresh) : s.Inv := by
  obtain ⟨id, rfl⟩ := h
  constructor
  case nonneg => exact fun _ => Int32.le_refl 0
  case ne_max =>
    have hmax : (0 : Int32) ≠ Int32.maxValue := by decide
    exact fun _ => hmax
  case backed | counted => simp [LeadTables.reported, reporters]
  case opened => exact fun _ => ⟨rfl, fun _ hx => absurd hx List.not_mem_nil⟩
  case closed => exact fun h => absurd h.symm Bool.false_ne_true
  case covered | waiting | sleeping | done => exact fun _ hx => absurd hx List.not_mem_nil
  case nextId => rfl
  case numbered => exact fun k z hz => absurd hz (Option.some_ne_none z).symm

/-- With a majority, some report is positive. -/
theorem exists_pos {l : LeadTables n} (h : IsMajority l.reported) :
    ∃ j, 0 < l.recvPeerEpoch j := by
  have hcard : 0 < l.reported.card := Nat.lt_of_lt_of_le (Nat.succ_pos _) h
  obtain ⟨j, hj⟩ := Finset.card_pos.mp hcard
  exact ⟨j, LeadTables.mem_reported.mp hj⟩

/-- A call computes the same epoch as one that reported nothing. -/
theorem greatest_eq (h : s.Inv) (hmaj : IsMajority s.lead.reported) {e : Int32}
    (he : ∃ j, e ≤ s.lead.recvPeerEpoch j) : s.lead.greatest e = s.lead.greatest 0 := by
  obtain ⟨j, hj⟩ := he
  exact s.lead.greatest_eq hj (h.nonneg j) (exists_pos hmaj)

/-- The epoch of the term is above every stored one. -/
theorem lt_peerEpoch (h : s.Inv) (hclosed : s.lead.waitForPeerEpoch = false)
    {x : EpochCall n} (hx : x ∈ s.calls) (hstored : x.stored = true) :
    x.own < s.lead.peerEpoch := by
  obtain ⟨hmaj, hepoch⟩ := h.closed hclosed
  obtain ⟨j, hj⟩ := h.covered x hx hstored
  have hle : s.lead.recvPeerEpoch j ≤ s.lead.greatest 0 := by
    by_cases hpos : 0 < s.lead.recvPeerEpoch j
    · exact s.lead.reported_le_greatest 0 hpos
    · exact Std.le_trans (Std.not_lt.mp hpos) (s.lead.le_greatest 0)
  obtain ⟨i, _, hi⟩ := s.lead.greatest_reported (h.nonneg j) (exists_pos hmaj)
  have hmax : s.lead.greatest 0 ≠ Int32.maxValue := hi ▸ h.ne_max i
  have hown := Std.le_trans hj hle
  rw [hepoch]
  grind

theorem chosen (h : s.Inv) : EpochChosen s where
  waits c x hx hstage := by
    have hmaj : IsMajority s.lead.reported ↔ IsMajority s.reporters := by
      constructor
      · exact fun hm => hm.mono h.backed
      · intro hm
        rcases h.counted with hsub | hm'
        · exact hm.mono hsub
        · exact hm'
    rw [← hmaj]
    rw [poll]
    split
    next hm =>
      obtain ⟨hlt, _⟩ := List.getElem?_eq_some_iff.mp hx
      simp [setStage, hlt, hm]
    next hm =>
      have hne : x ≠ { x with stage := .sleeping } := by
        intro heq
        rw [heq] at hstage
        cases hstage
      simp [hx, hm, hne]
  agrees x hx e he := (h.done x hx e he).2
  numbered := h.numbered
  above x hx e he y hy hstored := by
    obtain ⟨hclosed, rfl⟩ := h.done x hx e he
    exact h.lt_peerEpoch hclosed hy hstored

/-- A report while the epoch is open. -/
theorem report_open (h : s.Inv) {id : Fin n} {e : Int32} (hopen : s.lead.waitForPeerEpoch = true)
    (hnonneg : 0 ≤ e) (hok : Sound s (.report id e)) : (s.report id e).Inv := by
  obtain ⟨hpos, hcovered, hmax⟩ := hok hopen
  obtain ⟨hzx, hcalls⟩ := h.opened hopen
  have hslot := s.lead.recvPeerEpoch_report id e
  have hkept : IsMajority s.lead.reported → IsMajority (s.lead.report id e).reported := by
    intro hmaj
    rcases hpos with hpos | hmaj'
    · exact hmaj.mono (s.lead.reported_report id hpos)
    · exact hmaj'
  rw [report, if_pos hopen]
  constructor
  case nonneg =>
    intro i
    rw [hslot]
    split
    · exact hnonneg
    · exact h.nonneg i
  case ne_max =>
    intro i
    rw [hslot]
    split
    · exact hmax
    · exact h.ne_max i
  case backed =>
    intro i hi
    rw [LeadTables.mem_reported, hslot] at hi
    rw [mem_reporters]
    split at hi
    next heq => exact ⟨_, List.mem_append_right _ (.head _), heq.symm⟩
    next =>
      obtain ⟨x, hx, hid⟩ := mem_reporters.mp (h.backed (LeadTables.mem_reported.mpr hi))
      exact ⟨x, List.mem_append_left _ hx, hid⟩
  case counted =>
    rcases hpos with hpos | hmaj
    · rcases h.counted with hsub | hmaj
      · refine .inl fun i hi => ?_
        obtain ⟨x, hx, hid⟩ := mem_reporters.mp hi
        rcases mem_report.mp hx with hx | rfl
        · exact s.lead.reported_report id hpos (hsub (mem_reporters.mpr ⟨x, hx, hid⟩))
        · rw [LeadTables.mem_reported, hslot, if_pos hid.symm]
          exact hpos
      · exact .inr (hkept hmaj)
    · exact .inr hmaj
  case covered =>
    intro x hx hstored
    rcases mem_report.mp hx with hx | rfl
    · exact hcovered x hx
    · refine ⟨id, ?_⟩
      rw [hslot, if_pos rfl]
      exact Std.le_refl _
  case opened =>
    refine fun _ => ⟨hzx, fun x hx => ?_⟩
    rcases mem_report.mp hx with hx | rfl
    · exact hcalls x hx
    · exact nofun
  case closed =>
    intro hclosed
    exact absurd (hopen.symm.trans hclosed) nofun
  case waiting =>
    intro x hx hstored
    rcases mem_report.mp hx with hx | rfl
    · exact h.waiting x hx hstored
    · cases hstored
  case sleeping =>
    intro x hx hstage
    rcases mem_report.mp hx with hx | rfl
    · exact hkept (h.sleeping x hx hstage)
    · cases hstage
  case done =>
    intro x hx e' hstage
    rcases mem_report.mp hx with hx | rfl
    · exact absurd hstage (hcalls x hx e')
    · cases hstage
  case nextId => exact h.nextId
  case numbered => exact h.numbered

/-- A report after the epoch is fixed. -/
theorem report_closed (h : s.Inv) {id : Fin n} {e : Int32}
    (hclosed : s.lead.waitForPeerEpoch = false) : (s.report id e).Inv := by
  rw [report, if_neg (by simp [hclosed])]
  have hold : ∀ x ∈ s.calls ++ [{ id := id, own := e, stored := false
                                  stage := .done s.lead.peerEpoch }],
      x ∈ s.calls ∨ x.stored = false ∧ x.stage = .done s.lead.peerEpoch := by
    intro x hx
    rcases mem_report.mp hx with hx | rfl
    · exact .inl hx
    · exact .inr ⟨rfl, rfl⟩
  constructor
  case nonneg => exact h.nonneg
  case ne_max => exact h.ne_max
  case backed =>
    intro i hi
    obtain ⟨x, hx, hid⟩ := mem_reporters.mp (h.backed hi)
    exact mem_reporters.mpr ⟨x, List.mem_append_left _ hx, hid⟩
  case counted => exact .inr (h.closed hclosed).1
  case covered =>
    intro x hx hstored
    rcases hold x hx with hx | ⟨hno, _⟩
    · exact h.covered x hx hstored
    · exact absurd (hno.symm.trans hstored) nofun
  case opened => exact fun hopen => absurd (hclosed.symm.trans hopen) nofun
  case closed => exact fun _ => h.closed hclosed
  case waiting =>
    intro x hx hstored
    rcases hold x hx with hx | ⟨_, hdone⟩
    · exact h.waiting x hx hstored
    · exact ⟨_, hdone⟩
  case sleeping =>
    intro x hx hstage
    rcases hold x hx with hx | ⟨_, hdone⟩
    · exact h.sleeping x hx hstage
    · cases hdone.symm.trans hstage
  case done =>
    intro x hx e' hstage
    rcases hold x hx with hx | ⟨_, hdone⟩
    · exact h.done x hx e' hstage
    · cases hdone.symm.trans hstage
      exact ⟨hclosed, rfl⟩
  case nextId => exact h.nextId
  case numbered => exact h.numbered

theorem poll (h : s.Inv) {c : Nat} {x : EpochCall n} (hx : s.calls[c]? = some x)
    (hstage : x.stage = .polling) : (s.poll c x).Inv := by
  have hmem := List.mem_of_getElem? hx
  rw [EpochChoice.poll]
  split
  next hmaj =>
    constructor
    case nonneg => exact h.nonneg
    case ne_max => exact h.ne_max
    case backed => exact reporters_setStage hx .sleeping ▸ h.backed
    case counted => exact .inr hmaj
    case covered =>
      intro y hy hstored
      rcases mem_setStage hy with hy | rfl
      · exact h.covered y hy hstored
      · exact h.covered x hmem hstored
    case opened =>
      intro hopen
      refine ⟨(h.opened hopen).1, fun y hy => ?_⟩
      rcases mem_setStage hy with hy | rfl
      · exact (h.opened hopen).2 y hy
      · exact nofun
    case closed => exact h.closed
    case waiting =>
      intro y hy hstored
      rcases mem_setStage hy with hy | rfl
      · exact h.waiting y hy hstored
      · obtain ⟨e, he⟩ := h.waiting x hmem hstored
        cases hstage.symm.trans he
    case sleeping => exact fun _ _ _ => hmaj
    case done =>
      intro y hy e hdone
      rcases mem_setStage hy with hy | rfl
      · exact h.done y hy e hdone
      · cases hdone
    case nextId => exact h.nextId
    case numbered => exact h.numbered
  next => exact h

theorem finish (h : s.Inv) {c : Nat} {x : EpochCall n} (hx : s.calls[c]? = some x)
    (hstage : x.stage = .sleeping) : (s.finish c x).Inv := by
  have hmem := List.mem_of_getElem? hx
  have hmaj := h.sleeping x hmem hstage
  have hstored : x.stored = true := by
    by_contra hno
    obtain ⟨e, he⟩ := h.waiting x hmem (by simpa using hno)
    cases hstage.symm.trans he
  have hgreatest : s.lead.greatest x.own = s.lead.greatest 0 :=
    h.greatest_eq hmaj (h.covered x hmem hstored)
  have hold : ∀ y ∈ (s.finish c x).calls,
      y ∈ s.calls ∨ y = { x with stage := .done (s.lead.greatest x.own + 1) } :=
    fun y hy => mem_setStage hy
  constructor
  case nonneg => exact h.nonneg
  case ne_max => exact h.ne_max
  case backed => exact reporters_setStage hx (.done (s.lead.greatest x.own + 1)) ▸ h.backed
  case counted => exact .inr hmaj
  case covered =>
    intro y hy hy'
    rcases hold y hy with hy | rfl
    · exact h.covered y hy hy'
    · exact h.covered x hmem hstored
  case opened => exact nofun
  case closed =>
    exact fun _ => ⟨hmaj, congrArg (· + 1) hgreatest⟩
  case waiting =>
    intro y hy hno
    rcases hold y hy with hy | rfl
    · exact h.waiting y hy hno
    · exact ⟨_, rfl⟩
  case sleeping => exact fun _ _ _ => hmaj
  case done =>
    intro y hy e hdone
    refine ⟨rfl, ?_⟩
    rcases hold y hy with hy | rfl
    · obtain ⟨hclosed, rfl⟩ := h.done y hy e hdone
      rw [(h.closed hclosed).2]
      exact congrArg (· + 1) hgreatest.symm
    · cases hdone
      rfl
  case nextId => exact h.nextId
  case numbered =>
    -- a draft has its id after the epoch was fixed, and `finish` fixes the same one
    intro k z hz
    change s.zxIds[k]? = some z at hz
    change z = zxIdOf (s.lead.greatest x.own + 1) _
    cases hwait : s.lead.waitForPeerEpoch with
    | true =>
        rw [(h.opened hwait).1] at hz
        cases hz
    | false =>
        rw [hgreatest, ← (h.closed hwait).2]
        exact h.numbered k z hz

theorem propose (h : s.Inv) {x : EpochCall n} {e : Int32} (hx : x ∈ s.calls)
    (hdone : x.stage = .done e) : s.propose.Inv := by
  have hclosed := (h.done x hx e hdone).1
  constructor
  case nonneg => exact h.nonneg
  case ne_max => exact h.ne_max
  case backed => exact h.backed
  case counted => exact h.counted
  case covered => exact h.covered
  case opened => exact fun hopen => absurd (hclosed.symm.trans hopen) nofun
  case closed => exact h.closed
  case waiting => exact h.waiting
  case sleeping => exact h.sleeping
  case done => exact h.done
  case nextId =>
    change s.nextId + 1 = 1 + Int64.ofNat (s.zxIds ++ [_]).length
    rw [h.nextId, List.length_append, List.length_singleton, Int64.ofNat_add]
    exact Int64.add_assoc _ _ _
  case numbered =>
    intro k z hz
    change (s.zxIds ++ [_])[k]? = some z at hz
    rw [List.getElem?_append] at hz
    split at hz
    next => exact h.numbered k z hz
    next hge =>
      obtain ⟨hlt, hz⟩ := List.getElem?_eq_some_iff.mp hz
      have hk : k = s.zxIds.length := by
        simp only [List.length_singleton] at hlt
        omega
      subst hk
      rw [← h.nextId, ← hz]
      simp only [Nat.sub_self, List.getElem_cons_zero]
      rfl

theorem next (h : s.Inv) {a : ChoiceAct n} {s' : EpochChoice n} (ha : Sound s a)
    (hstep : s.step a = some s') : s'.Inv := by
  cases a with
  | report id e =>
      simp only [step] at hstep
      split at hstep
      next hnonneg =>
        cases hstep
        cases hwait : s.lead.waitForPeerEpoch with
        | true => exact h.report_open hwait hnonneg ha
        | false => exact h.report_closed hwait
      next => cases hstep
  | poll c =>
      simp only [step] at hstep
      split at hstep
      next x hx =>
        split at hstep
        next hstage =>
          cases hstep
          exact h.poll hx hstage
        next => cases hstep
      next => cases hstep
  | finish c =>
      simp only [step] at hstep
      split at hstep
      next x hx =>
        split at hstep
        next hstage =>
          cases hstep
          exact h.finish hx hstage
        next => cases hstep
      next => cases hstep
  | propose c =>
      simp only [step] at hstep
      split at hstep
      next hx =>
        cases hstep
        exact h.propose (List.mem_of_getElem? hx) rfl
      next => cases hstep

end Inv

end EpochChoice

/-- In every run of sound reports the calls wait for a majority, return one epoch, the
one in the ids of the drafts, and it is above all that were reported. -/
theorem epoch_chosen {s : EpochChoice n} (h : (choiceSystem n).Run Sound s) :
    EpochChosen s := by
  have hinv : s.Inv := by
    refine Transition.System.Run.invariant (fun _ => EpochChoice.Inv.of_fresh) ?_ h
    exact fun s a s' hs ha hstep => hs.next ha hstep
  exact hinv.chosen

/-! ## A fresh cluster -/

/-- Nothing but zero has been reported, and nobody has stopped waiting. -/
structure AllZero (s : EpochChoice n) : Prop where
  slots : ∀ i, s.lead.recvPeerEpoch i = 0
  opened : s.lead.waitForPeerEpoch = true
  polling : ∀ x ∈ s.calls, x.stage = .polling

theorem AllZero.not_isMajority {s : EpochChoice n} (h : AllZero s) :
    ¬ IsMajority s.lead.reported := by
  intro hmaj
  obtain ⟨j, hj⟩ := EpochChoice.Inv.exists_pos hmaj
  rw [h.slots j] at hj
  exact absurd hj (by decide)

theorem AllZero.next {s s' : EpochChoice n} {a : ChoiceAct n} (h : AllZero s)
    (ha : ∀ id e, a = .report id e → e = 0) (hstep : s.step a = some s') : AllZero s' := by
  cases a with
  | report id e =>
      obtain rfl := ha id e rfl
      simp only [EpochChoice.step, Int32.le_refl, if_true, Option.some.injEq] at hstep
      subst hstep
      rw [EpochChoice.report, if_pos h.opened]
      refine ⟨fun i => ?_, h.opened, fun x hx => ?_⟩
      · rw [LeadTables.recvPeerEpoch_report]
        split
        · rfl
        · exact h.slots i
      · rcases EpochChoice.mem_report.mp hx with hx | rfl
        · exact h.polling x hx
        · rfl
  | poll c =>
      simp only [EpochChoice.step, EpochChoice.poll, if_neg h.not_isMajority] at hstep
      split at hstep
      next =>
        split at hstep
        next =>
          cases hstep
          exact h
        next => cases hstep
      next => cases hstep
  | finish c =>
      simp only [EpochChoice.step] at hstep
      split at hstep
      next x hx =>
        rw [if_neg (by simp [h.polling x (List.mem_of_getElem? hx)])] at hstep
        cases hstep
      next => cases hstep
  | propose c =>
      simp only [EpochChoice.step] at hstep
      split at hstep
      next hx => cases h.polling _ (List.mem_of_getElem? hx)
      next => cases hstep

/-- Where all reports are zero, no call ever returns. -/
theorem zero_epochs_wait {s : EpochChoice n}
    (h : (choiceSystem n).Run (fun _ a => ∀ id e, a = .report id e → e = 0) s) :
    ∀ x ∈ s.calls, x.stage = .polling := by
  have hzero : AllZero s := by
    refine Transition.System.Run.invariant ?_ (fun s a s' hs ha => hs.next ha) h
    rintro s ⟨id, rfl⟩
    exact ⟨fun _ => rfl, rfl, nofun⟩
  exact hzero.polling

/-- Three servers without data have all called. -/
def freshReports : EpochChoice 3 :=
  { lead := ((({ id := 0 } : LeadTables 3).report 0 0).report 1 0).report 2 0
    calls := [{ id := 0, own := 0, stored := true, stage := .polling },
      { id := 1, own := 0, stored := true, stage := .polling },
      { id := 2, own := 0, stored := true, stage := .polling }] }

/-- All three servers have reported zero, and the loop does not end. -/
theorem fresh_cluster_waits :
    ¬ ∀ s, (choiceSystem 3).Reachable s → EpochChosen s := by
  intro h
  have hrun : Transition.exec EpochChoice.step { lead := { id := 0 } }
      [.report 0 0, .report 1 0, .report 2 0] = some freshReports := rfl
  have hchosen := h freshReports (Transition.exec_reachable ⟨0, rfl⟩ hrun)
  have hends := (hchosen.waits 0 _ rfl rfl).mpr (by decide)
  exact absurd hends (by decide)

/-- The leader and one follower, with the epochs 1 and 4. -/
def twoReports : List (ChoiceAct 3) :=
  [.report 0 1, .poll 0, .report 1 4, .poll 0, .poll 1, .finish 1, .finish 0, .report 2 6,
   .propose 0]

/-- Both calls, and the late one of the third server, have returned 5. -/
def twoReported : EpochChoice 3 :=
  { lead := (((({ id := 0 } : LeadTables 3).report 0 1).report 1 4).finish 4).finish 1
    calls := [{ id := 0, own := 1, stored := true, stage := .done 5 },
      { id := 1, own := 4, stored := true, stage := .done 5 },
      { id := 2, own := 6, stored := false, stage := .done 5 }]
    nextId := 2
    zxIds := [zxIdOf 5 1] }

theorem epoch_chosen_two : EpochChosen twoReported := by
  have hexec : Transition.exec EpochChoice.step { lead := { id := 0 } } twoReports =
      some twoReported := rfl
  have hrun : (choiceSystem 3).Run Sound twoReported :=
    Transition.exec_run (.start ⟨0, rfl⟩) (by decide) hexec
  exact epoch_chosen hrun

end Paxos
