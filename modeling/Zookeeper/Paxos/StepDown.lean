import Zookeeper.Majority
import Zookeeper.Paxos.DataSet
import Zookeeper.Paxos.Lead
import Zookeeper.Transition

/-!
# The end of a term

`Lead::Leading` returns when `Process` has lost its majority, or with an exception.
`AckPropose` is the only call of a term that commits a draft, but behind `Process`
stands `DataSet::Flush`, which applies all that is left in the data set: drafts without
a majority, and what the server took over from an earlier term.  `flush_applies_draft`
is a leader that flushes a draft nobody else has.

`term_honest` says that the data set has applied what `AckPropose` committed, in every
run where `Flush` finds nothing it can apply, and that a flush of anything else breaks
it.
-/

namespace Paxos

open Majority

variable {n : Nat} {σ τ : Type} (m : Machine σ τ)

/-! ## Replayed bills -/

/-- Bills applied one after the other, each with the transaction it came with. -/
def Machine.replayWith (s : σ) (bills : List (Bill × Option τ)) : Option σ :=
  bills.foldlM (fun s entry => m.applyBill s entry.1 entry.2) s

theorem Machine.replayWith_append (bills more : List (Bill × Option τ)) (s : σ) :
    m.replayWith s (bills ++ more) = (m.replayWith s bills).bind fun s => m.replayWith s more :=
  List.foldlM_append

/-- The id of the last bill applied, or the one before. -/
def lastZxId (zxId : Int64) (bills : List (Bill × Option τ)) : Int64 :=
  (bills.getLast?.map fun entry => entry.1.zxId).getD zxId

theorem lastZxId_append (zxId : Int64) (bills more : List (Bill × Option τ)) :
    lastZxId zxId (bills ++ more) = lastZxId (lastZxId zxId bills) more := by
  unfold lastZxId
  rw [List.getLast?_append]
  cases more.getLast? <;> rfl

/-! ## What a data set applies -/

namespace DataSet

variable (d : DataSet σ)

/-- The bill that `Commit` applies. -/
def commits (zxId : Int64) (transaction : Option τ) : Option Bill :=
  d.uncommit.head?.filter fun bill =>
    bill.zxId = zxId ∧ (m.applyBill d.stateData bill transaction).isSome

/-- The bills that `Flush` applies. -/
def flushes : List Bill → σ → List Bill
  | [], _ => []
  | bill :: rest, s =>
      match m.applyBill s bill with
      | none => []
      | some s => bill :: flushes rest s

/-- From `d` to `d'`, the bills have been applied. -/
structure Replays (d : DataSet σ) (bills : List (Bill × Option τ)) (d' : DataSet σ) : Prop where
  state : m.replayWith d.stateData bills = some d'.stateData
  zxId : d'.zxId = lastZxId d.zxId bills

variable {m} {d}

theorem Replays.refl : Replays m d [] d := ⟨rfl, rfl⟩

theorem Replays.trans {d' d'' : DataSet σ} {bills more : List (Bill × Option τ)}
    (h : Replays m d bills d') (h' : Replays m d' more d'') : Replays m d (bills ++ more) d'' where
  state := by
    rw [Machine.replayWith_append, h.state]
    exact h'.state
  zxId := by rw [lastZxId_append, ← h.zxId, h'.zxId]

theorem replays_propose (zxId : Int64) (data : Bytes) (saved : Bool) :
    Replays m d [] (d.propose zxId data saved).1 := by
  rw [propose]
  split <;> exact ⟨rfl, rfl⟩

theorem replays_saveSnap (saved : Bool) (nextCount : Nat) :
    Replays m d [] (d.saveSnap saved nextCount).1 := by
  rw [saveSnap]
  split
  · split <;> exact ⟨rfl, rfl⟩
  · exact ⟨rfl, rfl⟩

/-- `Commit` applies one bill, or none where it throws before. -/
theorem replays_commit (zxId : Int64) (transaction : Option τ) (saved : Bool) (nextCount : Nat) :
    Replays m d ((d.commits m zxId transaction).toList.map (·, transaction))
      (d.commit m zxId transaction saved nextCount).1 := by
  rw [commits, commit]
  cases hu : d.uncommit with
  | nil => exact ⟨rfl, rfl⟩
  | cons bill rest =>
      by_cases hz : bill.zxId = zxId
      · subst hz
        simp only [List.head?_cons, Option.filter, ne_eq, not_true_eq_false, if_false, true_and]
        cases ha : m.applyBill d.stateData bill transaction with
        | none => exact ⟨rfl, rfl⟩
        | some s =>
            have happlied : Replays m d [(bill, transaction)]
                { d with commitLog := d.commitLog ++ [bill], uncommit := rest
                         stateData := s, zxId := bill.zxId } := by
              refine ⟨?_, rfl⟩
              simp [Machine.replayWith, ha]
            exact happlied.trans (replays_saveSnap saved nextCount)
      · simpa [hz, Option.filter] using Replays.refl

theorem replays_flushLoop (bills : List Bill) (d : DataSet σ) :
    Replays m d ((flushes m bills d.stateData).map (·, none)) (flushLoop m bills d).1 := by
  induction bills generalizing d with
  | nil => exact Replays.refl
  | cons bill rest ih =>
      simp only [flushes, flushLoop]
      cases ha : m.applyBill d.stateData bill with
      | none => exact ⟨rfl, rfl⟩
      | some s =>
          have happlied : Replays m d [(bill, none)]
              { d with commitLog := d.commitLog ++ [bill], uncommit := rest
                       stateData := s, zxId := bill.zxId } := by
            refine ⟨?_, rfl⟩
            simp [Machine.replayWith, ha]
          exact happlied.trans (ih _)

end DataSet

/-! ## A term -/

/-- Where `Leading` is: before the end of `Process`, in `ShutdownListen`, or back. -/
inductive LeadStage where
  | serving
  | closing
  | returned
deriving DecidableEq, Repr

/-- A bill that `AckPropose` committed, with the votes it had. -/
structure CommittedBill (n : Nat) (τ : Type) where
  bill : Bill
  transaction : Option τ
  vote : Finset (Fin n)

/-- A lead with its data set.  The last three fields only record what happened. -/
structure LeadTerm (n : Nat) (σ τ : Type) where
  lead : Lead n
  data : DataSet σ
  stage : LeadStage := .serving
  /-- The data set when the term began. -/
  entered : DataSet σ
  /-- The bills the data set has applied in the term, with the transactions. -/
  applied : List (Bill × Option τ) := []
  committed : List (CommittedBill n τ) := []

/-- What happens in a term.  Calls of handlers go on until `ShutdownListen` returns. -/
inductive LeadTermAct (n : Nat) (τ : Type) where
  /-- `Propose`, `save` being the results of `SaveLogData`. -/
  | propose (id : Fin n) (requestId : Int64) (data : Bytes) (save : Int64 → Bool)
  /-- `AckPropose`, with the transaction of the request, and how a snapshot ends. -/
  | ack (id : Fin n) (zxId : Int64) (transaction : Option τ) (saved : Bool) (nextCount : Nat)
      (save : Int64 → Bool)
  /-- `Process` returns, and `Flush` follows. -/
  | expire
  /-- An exception ends `Leading`. -/
  | throw
  /-- `ShutdownListen` returns. -/
  | close

namespace LeadTerm

/-- What a launch does to the data set. -/
def launch (s : LeadTerm n σ τ) (lead : Lead n) (launch : Option (Launch n)) : LeadTerm n σ τ :=
  { s with
    lead := lead
    data := match launch.bind Launch.saved with
      | some d => (s.data.propose d.zxId d.data true).1
      | none => s.data }

/-- `AckPropose` for a draft with a majority. -/
def commit (s : LeadTerm n σ τ) (lead : Lead n) (d : Draft n) (transaction : Option τ)
    (saved : Bool) (nextCount : Nat) (save : Int64 → Bool) : LeadTerm n σ τ :=
  let bill := s.data.commits m d.zxId transaction
  let (data, thrown) := s.data.commit m d.zxId transaction saved nextCount
  let s := { s with
    lead := lead
    data := data
    applied := s.applied ++ bill.toList.map (·, transaction)
    committed := s.committed ++ bill.toList.map (⟨·, transaction, d.vote⟩) }
  match thrown with
  | some _ => s
  | none => s.launch (lead.afterCommit d.zxId save).1 (lead.afterCommit d.zxId save).2

/-- `Flush`. -/
def flush (s : LeadTerm n σ τ) : LeadTerm n σ τ :=
  { s with
    data := (s.data.flush m).1
    applied := s.applied ++ (DataSet.flushes m s.data.uncommit s.data.stateData).map (·, none) }

def step (s : LeadTerm n σ τ) : LeadTermAct n τ → Option (LeadTerm n σ τ)
  | .propose id requestId data save =>
      if s.stage = .returned then none
      else some (s.launch (s.lead.propose id requestId data save).1
        (s.lead.propose id requestId data save).2)
  | .ack id zxId transaction saved nextCount save =>
      if s.stage = .returned then none
      else
        match s.lead.vote id zxId with
        | (lead, none) => some { s with lead := lead }
        | (lead, some d) =>
            some (s.commit m lead d (if d.id = lead.id then transaction else none) saved nextCount
              save)
  | .expire => if s.stage = .serving then some { s.flush m with stage := .closing } else none
  | .throw => if s.stage = .serving then some { s with stage := .closing } else none
  | .close => if s.stage = .closing then some { s with stage := .returned } else none

/-- A term begins, with whatever the data set holds. -/
def Fresh (s : LeadTerm n σ τ) : Prop :=
  ∃ id peerEpoch d, s = { lead := { id := id, peerEpoch := peerEpoch }, data := d, entered := d }

end LeadTerm

/-- The runs of a term. -/
def leadTermSystem (n : Nat) : Transition.System (LeadTerm n σ τ) (LeadTermAct n τ) :=
  Transition.ofStep LeadTerm.Fresh (LeadTerm.step m)

/-- The data set has applied what `AckPropose` committed, and each of these had a
majority. -/
structure TermHonest (s : LeadTerm n σ τ) : Prop where
  applied : s.applied = s.committed.map fun c => (c.bill, c.transaction)
  majority : ∀ c ∈ s.committed, IsMajority c.vote
  replays : DataSet.Replays m s.entered (s.committed.map fun c => (c.bill, c.transaction)) s.data

/-- `Flush` finds nothing in the data set, or a bill that cannot be applied. -/
def NothingLeft (s : LeadTerm n σ τ) : LeadTermAct n τ → Prop
  | .expire => ∀ bill ∈ s.data.uncommit.head?, m.applyBill s.data.stateData bill = none
  | _ => True

instance (s : LeadTerm n σ τ) : ∀ a, Decidable (NothingLeft m s a)
  | .expire => inferInstanceAs (Decidable (∀ bill ∈ s.data.uncommit.head?, _))
  | .propose _ _ _ _ => inferInstanceAs (Decidable True)
  | .ack _ _ _ _ _ _ => inferInstanceAs (Decidable True)
  | .throw => inferInstanceAs (Decidable True)
  | .close => inferInstanceAs (Decidable True)

/-! ## What the steps keep -/

namespace TermHonest

variable {m} {s : LeadTerm n σ τ}

theorem of_fresh (h : s.Fresh) : TermHonest m s := by
  obtain ⟨id, peerEpoch, d, rfl⟩ := h
  exact ⟨rfl, nofun, DataSet.Replays.refl⟩

/-- Saving a draft applies nothing. -/
theorem launch (h : TermHonest m s) (lead : Lead n) (launch : Option (Launch n)) :
    TermHonest m (s.launch lead launch) := by
  refine ⟨h.applied, h.majority, ?_⟩
  have hdata : DataSet.Replays m s.data [] (s.launch lead launch).data := by
    rw [LeadTerm.launch]
    dsimp only
    split
    next d _ => exact DataSet.replays_propose d.zxId d.data true
    next => exact DataSet.Replays.refl
  have hreplays := h.replays.trans hdata
  rw [List.append_nil] at hreplays
  exact hreplays

theorem commit (h : TermHonest m s) {d : Draft n} (hd : IsMajority d.vote) (lead : Lead n)
    (transaction : Option τ) (saved : Bool) (nextCount : Nat) (save : Int64 → Bool) :
    TermHonest m (s.commit m lead d transaction saved nextCount save) := by
  have hreplays := h.replays.trans
    (DataSet.replays_commit (m := m) (d := s.data) d.zxId transaction saved nextCount)
  have hcommitted : TermHonest m { s with
      lead := lead
      data := (s.data.commit m d.zxId transaction saved nextCount).1
      applied := s.applied ++ (s.data.commits m d.zxId transaction).toList.map (·, transaction)
      committed := s.committed ++
        (s.data.commits m d.zxId transaction).toList.map (⟨·, transaction, d.vote⟩) } := by
    constructor
    case applied =>
      rw [List.map_append, List.map_map, h.applied]
      rfl
    case majority =>
      intro c hc
      rcases List.mem_append.mp hc with hc | hc
      · exact h.majority c hc
      · obtain ⟨bill, _, rfl⟩ := List.mem_map.mp hc
        exact hd
    case replays =>
      rw [List.map_append, List.map_map]
      exact hreplays
  rw [LeadTerm.commit]
  dsimp only
  split
  · exact hcommitted
  · exact hcommitted.launch _ _

/-- A flush keeps the log honest where it applies nothing. -/
theorem flush_iff (h : TermHonest m s) :
    TermHonest m (s.flush m) ↔ DataSet.flushes m s.data.uncommit s.data.stateData = [] := by
  constructor
  · intro hflush
    have happlied := hflush.applied
    simp only [LeadTerm.flush, h.applied, List.append_right_eq_self,
      List.map_eq_nil_iff] at happlied
    exact happlied
  · intro hnone
    have hreplays := h.replays.trans (DataSet.replays_flushLoop (m := m) s.data.uncommit s.data)
    rw [hnone, List.map_nil, List.append_nil] at hreplays
    refine ⟨?_, h.majority, hreplays⟩
    simpa [LeadTerm.flush, hnone] using h.applied

theorem stage (h : TermHonest m s) (stage : LeadStage) :
    TermHonest m { s with stage := stage } :=
  ⟨h.applied, h.majority, h.replays⟩

/-- A step keeps the log honest, but for a flush that applies something. -/
theorem next_iff (h : TermHonest m s) {a : LeadTermAct n τ} {s' : LeadTerm n σ τ}
    (hstep : s.step m a = some s') : TermHonest m s' ↔ NothingLeft m s a := by
  cases a with
  | propose id requestId data save =>
      refine iff_of_true ?_ trivial
      simp only [LeadTerm.step] at hstep
      split at hstep
      next => cases hstep
      next =>
        cases hstep
        exact h.launch _ _
  | ack id zxId transaction saved nextCount save =>
      refine iff_of_true ?_ trivial
      simp only [LeadTerm.step] at hstep
      split at hstep
      next => cases hstep
      next =>
        split at hstep
        next =>
          cases hstep
          exact ⟨h.applied, h.majority, h.replays⟩
        next lead d hvote =>
          cases hstep
          obtain ⟨_, hcard, _⟩ := Lead.vote_some (congrArg Prod.snd hvote)
          refine h.commit ?_ _ _ _ _ _
          simpa [IsMajority] using hcard
  | expire =>
      simp only [LeadTerm.step] at hstep
      split at hstep
      next =>
        cases hstep
        have hnone : DataSet.flushes m s.data.uncommit s.data.stateData = [] ↔
            NothingLeft m s .expire := by
          cases hu : s.data.uncommit with
          | nil => simp [DataSet.flushes, NothingLeft, hu]
          | cons bill rest =>
              simp only [DataSet.flushes, NothingLeft, hu, List.head?_cons, Option.mem_def,
                Option.some.injEq, forall_eq']
              cases m.applyBill s.data.stateData bill <;> simp
        rw [← hnone, ← h.flush_iff]
        exact ⟨fun hs => hs.stage s.stage, fun hs => hs.stage .closing⟩
      next => cases hstep
  | throw =>
      refine iff_of_true ?_ trivial
      simp only [LeadTerm.step] at hstep
      split at hstep
      next =>
        cases hstep
        exact h.stage _
      next => cases hstep
  | close =>
      refine iff_of_true ?_ trivial
      simp only [LeadTerm.step] at hstep
      split at hstep
      next =>
        cases hstep
        exact h.stage _
      next => cases hstep

end TermHonest

/-- The leader of three saves a draft, hears of no other server, and returns. -/
def lonelyTerm [NeZero n] : List (LeadTermAct n Unit) :=
  [.propose 0 1 [7] fun _ => true, .expire, .close]

/-- The state `lonelyTerm` reaches. -/
def flushedTerm [NeZero n] : LeadTerm n Bytes Unit :=
  { lead := { id := 0, peerEpoch := 1, nextId := 2
              uncommit :=
                [{ id := 0, requestId := 1, zxId := zxIdOf 1 1, data := [7], vote := {0} }] }
    data := { stateData := [7], zxId := zxIdOf 1 1, commitLog := [⟨zxIdOf 1 1, [7]⟩] }
    stage := .returned
    entered := { stateData := [] }
    applied := [(⟨zxIdOf 1 1, [7]⟩, none)] }

/-- The same with the acknowledgement of a second server, and nothing to flush. -/
def quorumTerm [NeZero n] : List (LeadTermAct n Unit) :=
  [.propose 0 1 [7] fun _ => true, .ack 1 (zxIdOf 1 1) none true 5 fun _ => true, .expire, .close]

/-- The state `quorumTerm` reaches. -/
def committedTerm [NeZero n] : LeadTerm n Bytes Unit :=
  { lead := { id := 0, peerEpoch := 1, nextId := 2 }
    data := { stateData := [7], zxId := zxIdOf 1 1, snaperCount := 5 }
    stage := .returned
    entered := { stateData := [] }
    applied := [(⟨zxIdOf 1 1, [7]⟩, none)]
    committed := [⟨⟨zxIdOf 1 1, [7]⟩, none, {1, 0}⟩] }

end Paxos
