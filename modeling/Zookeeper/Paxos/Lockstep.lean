import Zookeeper.Paxos.DataSet
import Zookeeper.Paxos.DraftFrame
import Zookeeper.Paxos.Lead
import Zookeeper.Transition

/-!
# The queue of a leader and that of its data set

A `Lead` queues its drafts, and its `DataSet` has the one that was launched last.
`Propose` and `AckPropose` hold `_lock`, and `LaunchNextDraft` gives it up: behind a draft
that it has saved, where it ends, and behind one that it could not save, where it goes on
(`paxos/paxos/lead.cpp`).  So a launch is a step of its own for each turn of its loop, and
a call that goes on without the lock is a *stray*.

`queues_in_lockstep` says that the data set has the first draft and nothing else whenever
the lock is free, where the term begins without bills from an earlier one, no launch goes
on behind a draft that was not saved, and a commit does not throw.
-/

namespace Paxos

variable {n : Nat} {σ τ : Type} (m : Machine σ τ)

/-- A lead with its data set, and where the calls of `LaunchNextDraft` stand.  The last
four fields only record what happened. -/
structure DraftQueue (n : Nat) (σ : Type) where
  lead : Lead n
  data : DataSet σ
  /-- A call of `LaunchNextDraft` has the lock. -/
  locked : Bool := false
  /-- The calls of `LaunchNextDraft` that have given it up and go on. -/
  strays : Nat := 0
  /-- The data set when the term began. -/
  entered : DataSet σ
  submitted : List Bill := []
  /-- The bills that were saved and sent. -/
  launched : List Bill := []
  /-- What `DataSet::Commit` has thrown. -/
  raised : List Thrown := []

/-- The calls of handlers and clients, and the turns of the loop in `LaunchNextDraft`,
`saved` being what `SaveLogData` returns. -/
inductive DraftQueueAct (n : Nat) (τ : Type) where
  | propose (id : Fin n) (requestId : Int64) (data : Bytes)
  /-- `AckPropose`, with the transaction of the request, and how a snapshot ends. -/
  | ack (id : Fin n) (zxId : Int64) (transaction : Option τ) (saved : Bool) (nextCount : Nat)
  /-- A turn with the lock. -/
  | turn (saved : Bool)
  /-- A turn without it. -/
  | stray (saved : Bool)

namespace DraftQueue

/-- The body of the loop in `LaunchNextDraft`, less the lock. -/
def attempt (s : DraftQueue n σ) (saved : Bool) : DraftQueue n σ :=
  match s.lead.uncommit with
  | [] => s
  | d :: ds =>
      let s := { s with data := (s.data.propose d.zxId d.data saved).1 }
      if saved then
        { s with
          lead := { s.lead with
            uncommit := { d with data := launchedData d.zxId d.data } :: ds }
          launched := ⟨d.zxId, d.data⟩ :: s.launched }
      else { s with lead := s.lead.erase d.zxId }

/-- `Lead::AckPropose` for a draft with a majority, up to the launch of the next one. -/
def commit (s : DraftQueue n σ) (lead : Lead n) (d : Draft n) (transaction : Option τ)
    (saved : Bool) (nextCount : Nat) : DraftQueue n σ :=
  let (data, thrown) := s.data.commit m d.zxId transaction saved nextCount
  match thrown with
  | some e => { s with lead := lead, data := data, raised := e :: s.raised }
  | none =>
      let lead := lead.erase d.zxId
      { s with lead := lead, data := data, locked := !lead.uncommit.isEmpty }

def step (s : DraftQueue n σ) : DraftQueueAct n τ → Option (DraftQueue n σ)
  | .propose id requestId data =>
      if s.locked then none
      else
        let lead := s.lead.enqueue id requestId data
        some { s with
          lead := lead
          locked := lead.uncommit.length = 1
          submitted := ⟨zxIdOf s.lead.peerEpoch s.lead.nextId, data⟩ :: s.submitted }
  | .ack id zxId transaction saved nextCount =>
      if s.locked then none
      else
        match s.lead.vote id zxId with
        | (lead, none) => some { s with lead := lead }
        | (lead, some d) =>
            some (s.commit m lead d (if d.id = lead.id then transaction else none) saved nextCount)
  | .turn saved =>
      if s.locked then
        some { s.attempt saved with
          locked := false
          strays := if saved then s.strays else s.strays + 1 }
      else none
  | .stray saved =>
      -- the loop is over, or ends with the exception of `guard.unlock()`
      if 0 < s.strays then some { s.attempt saved with strays := s.strays - 1 } else none

/-- A term begins, with whatever the data set holds. -/
def Fresh (s : DraftQueue n σ) : Prop :=
  ∃ id peerEpoch d, s = { lead := { id := id, peerEpoch := peerEpoch }, data := d, entered := d }

end DraftQueue

/-- The runs of an active leader. -/
def draftQueue (n : Nat) : Transition.System (DraftQueue n σ) (DraftQueueAct n τ) :=
  Transition.ofStep DraftQueue.Fresh (DraftQueue.step m)

/-- The data set has the first draft, as it was submitted, and no other bill; and the
draft was launched. -/
structure Lockstep (s : DraftQueue n σ) : Prop where
  empty : s.lead.uncommit = [] → s.data.uncommit = []
  front : ∀ d ds, s.lead.uncommit = d :: ds →
    ∃ bill ∈ s.submitted, s.data.uncommit = [bill] ∧ bill.zxId = d.zxId ∧ bill ∈ s.launched

/-- A new draft goes behind the first one; the draft that an acknowledgement commits can
be applied, and the snapshot that is due is saved; and a launch does not go on. -/
def KeepsFront (s : DraftQueue n σ) : DraftQueueAct n τ → Prop
  | .propose _ _ _ =>
      ∀ d ∈ s.lead.uncommit.head?, d.zxId < zxIdOf s.lead.peerEpoch s.lead.nextId
  | .ack id zxId transaction saved _ =>
      ∀ d ∈ (s.lead.vote id zxId).2, ∀ bill ∈ s.data.uncommit.head?,
        (m.applyBill s.data.stateData bill
          (if d.id = s.lead.id then transaction else none)).isSome ∧
        (s.data.snaperCount ≤ s.data.commitLog.length + 1 → saved = true)
  | .turn saved => saved = true ∨ s.lead.uncommit.tail = []
  | .stray _ => s.lead.uncommit = []

instance (s : DraftQueue n σ) : ∀ a, Decidable (KeepsFront m s a)
  | .propose _ _ _ => inferInstanceAs (Decidable (∀ d ∈ s.lead.uncommit.head?, _))
  | .ack id zxId _ _ _ => inferInstanceAs (Decidable (∀ d ∈ (s.lead.vote id zxId).2, _))
  | .turn _ => inferInstanceAs (Decidable (_ ∨ _))
  | .stray _ => inferInstanceAs (Decidable (_ = _))

/-! ## The queue -/

namespace Lead

variable {l : Lead n} {x : Draft n} {xs : List (Draft n)}

/-- The draft of the next id. -/
def nextDraft (l : Lead n) (id : Fin n) (requestId : Int64) (data : Bytes) : Draft n :=
  { id, requestId, zxId := zxIdOf l.peerEpoch l.nextId, data, vote := {id} }

/-- The draft is put in its place. -/
theorem enqueue_uncommit (l : Lead n) (id : Fin n) (requestId : Int64) (data : Bytes) :
    (l.enqueue id requestId data).uncommit =
      insertDraft (l.nextDraft id requestId data) l.uncommit := rfl

/-- Behind the first draft, there is room for one of a greater id. -/
theorem enqueue_behind (hq : l.uncommit = x :: xs) (id : Fin n) (requestId : Int64) (data : Bytes)
    (hlt : x.zxId < zxIdOf l.peerEpoch l.nextId) :
    ∃ y ys, (l.enqueue id requestId data).uncommit = x :: y :: ys ∧
      ∀ d ∈ y :: ys, d = l.nextDraft id requestId data ∨ d ∈ xs := by
  have hge : ¬ (l.nextDraft id requestId data).zxId < x.zxId := Int64.lt_asymm hlt
  have hne : x.zxId ≠ (l.nextDraft id requestId data).zxId := Int64.ne_of_lt hlt
  obtain ⟨y, ys, hmore⟩ :=
    List.exists_cons_of_ne_nil (insertDraft_ne_nil (l.nextDraft id requestId data) xs)
  refine ⟨y, ys, ?_, fun d hd => mem_insertDraft (hmore ▸ hd)⟩
  rw [enqueue_uncommit, hq, insertDraft, if_neg hge, if_neg hne, hmore]

end Lead

/-! ## The data set -/

namespace DataSet

variable {m} {d : DataSet σ} {bill : Bill} {rest : List Bill}

/-- A commit of the first bill that can be applied, with the snapshot saved if one is due,
takes the bill. -/
theorem commit_front {transaction : Option τ} {saved : Bool} (nextCount : Nat)
    (hq : d.uncommit = bill :: rest) (happly : (m.applyBill d.stateData bill transaction).isSome)
    (hsaved : d.snaperCount ≤ d.commitLog.length + 1 → saved = true) :
    ∃ d', d.commit m bill.zxId transaction saved nextCount = (d', none) ∧ d'.uncommit = rest := by
  obtain ⟨s, hs⟩ := Option.isSome_iff_exists.mp happly
  rw [commit, hq]
  dsimp only
  rw [if_neg (by simp), hs]
  dsimp only
  rw [saveSnap]
  split
  next hlong =>
    rw [List.length_append, List.length_singleton] at hlong
    rw [if_pos (hsaved hlong)]
    exact ⟨_, rfl, rfl⟩
  next => exact ⟨_, rfl, rfl⟩

end DataSet

namespace DraftQueue

variable {m} {s s' : DraftQueue n σ} {a : DraftQueueAct n τ}

/-- The drafts that were not launched yet. -/
def unlaunched (s : DraftQueue n σ) : List (Draft n) :=
  if s.locked then s.lead.uncommit else s.lead.uncommit.tail

theorem unlaunched_locked (h : s.locked = true) : s.unlaunched = s.lead.uncommit := by
  rw [unlaunched, h, if_pos rfl]

theorem unlaunched_free (h : s.locked = false) : s.unlaunched = s.lead.uncommit.tail := by
  rw [unlaunched, h, if_neg Bool.false_ne_true]

structure Inv (s : DraftQueue n σ) : Prop where
  ascending : s.lead.uncommit.Pairwise fun x y => x.zxId < y.zxId
  lockstep : s.locked = false → Lockstep s
  launching : s.locked = true → s.data.uncommit = [] ∧ s.lead.uncommit ≠ []
  waiting : ∀ d ∈ s.unlaunched, ⟨d.zxId, d.data⟩ ∈ s.submitted
  valid : Thrown.invalidZxId ∉ s.raised

theorem Inv.of_fresh (h : s.Fresh) (hempty : s.entered.uncommit = []) : s.Inv := by
  obtain ⟨id, peerEpoch, d, rfl⟩ := h
  refine ⟨.nil, fun _ => ⟨fun _ => hempty, fun d ds hq => ?_⟩, fun hlock => ?_, fun d hd => ?_, ?_⟩
  · cases hq
  · cases hlock
  · cases hd
  · exact List.not_mem_nil

theorem Inv.propose (h : s.Inv) {id : Fin n} {requestId : Int64} {data : Bytes}
    (hs : s.step m (.propose id requestId data) = some s')
    (hfront : KeepsFront m s (.propose id requestId data)) : s'.Inv := by
  rw [step] at hs
  split at hs
  next => cases hs
  next hlock =>
    rw [Bool.not_eq_true] at hlock
    cases hs
    have hstep := h.lockstep hlock
    have hascending : (s.lead.enqueue id requestId data).uncommit.Pairwise
        fun x y => x.zxId < y.zxId := insertDraft_ascending _ h.ascending
    cases hq : s.lead.uncommit with
    | nil =>
        -- the only draft, and the lock is kept for its launch
        have hone : (s.lead.enqueue id requestId data).uncommit =
            [s.lead.nextDraft id requestId data] := by
          rw [Lead.enqueue_uncommit, hq, insertDraft]
        refine ⟨hascending, fun hunlocked => ?_, fun _ => ⟨hstep.empty hq, ?_⟩, ?_, h.valid⟩
        · simp [hone] at hunlocked
        · simp [hone]
        · intro d hd
          rw [unlaunched_locked (by simp [hone])] at hd
          dsimp only at hd
          rw [hone, List.mem_singleton] at hd
          cases hd
          exact .head _
    | cons x xs =>
        obtain ⟨y, ys, hmore, hold⟩ := Lead.enqueue_behind hq id requestId data
          (hfront x (by rw [hq]; rfl))
        refine ⟨hascending, fun _ => ⟨fun hnil => ?_, fun d ds hd => ?_⟩, fun hlocked => ?_, ?_,
          h.valid⟩
        · simp [hmore] at hnil
        · obtain ⟨rfl, -⟩ := List.cons.inj (hmore.symm.trans hd)
          obtain ⟨bill, hmem, hdata, hid, hlaunched⟩ := hstep.front x xs hq
          exact ⟨bill, .tail _ hmem, hdata, hid, hlaunched⟩
        · simp [hmore] at hlocked
        · intro d hd
          rw [unlaunched_free (by simp [hmore])] at hd
          dsimp only at hd
          rw [hmore] at hd
          rcases hold d hd with rfl | hd
          · exact .head _
          · refine .tail _ (h.waiting d ?_)
            rw [unlaunched_free hlock, hq]
            exact hd

/-- A vote changes nothing but the votes of the first draft. -/
theorem Inv.vote (h : s.Inv) (hlock : s.locked = false) (id : Fin n) (zxId : Int64) :
    ({ s with lead := (s.lead.vote id zxId).1 } : DraftQueue n σ).Inv := by
  rcases s.lead.vote_cases id zxId with heq | ⟨d, ds, hq, hz, heq⟩
  · rw [heq]
    exact h
  · rw [heq]
    have hascending := h.ascending
    rw [hq] at hascending
    refine ⟨?_, fun _ => ⟨fun hnil => ?_, fun d' ds' hd' => ?_⟩, fun hlocked => ?_, ?_, h.valid⟩
    · exact List.pairwise_cons.mpr (List.pairwise_cons.mp hascending)
    · cases hnil
    · cases hd'
      exact (h.lockstep hlock).front d ds hq
    · exact absurd (hlock.symm.trans hlocked) Bool.false_ne_true
    · have hold := h.waiting
      rw [unlaunched_free hlock, hq] at hold
      rw [unlaunched_free (by exact hlock)]
      exact hold

/-- A draft with a majority is committed, and the lock is kept for the next launch. -/
theorem Inv.commit (h : s.Inv) (hlock : s.locked = false) {d : Draft n} {ds : List (Draft n)}
    (hq : s.lead.uncommit = d :: ds) {transaction : Option τ} {saved : Bool} {nextCount : Nat}
    (hbill : ∀ bill ∈ s.data.uncommit.head?,
      (m.applyBill s.data.stateData bill transaction).isSome ∧
        (s.data.snaperCount ≤ s.data.commitLog.length + 1 → saved = true)) :
    (s.commit m s.lead d transaction saved nextCount).Inv := by
  obtain ⟨bill, hmem, hdata, hid, -⟩ := (h.lockstep hlock).front d ds hq
  obtain ⟨happly, hsaved⟩ := hbill bill (by rw [hdata]; rfl)
  obtain ⟨data, hcommit, hempty⟩ := DataSet.commit_front nextCount hdata happly hsaved
  have hascending := h.ascending
  rw [hq] at hascending
  rw [DraftQueue.commit, ← hid, hcommit]
  dsimp only
  rw [hid, Lead.erase_front hq h.ascending]
  have hold := h.waiting
  rw [unlaunched_free hlock, hq] at hold
  refine ⟨(List.pairwise_cons.mp hascending).2, fun hfree => ⟨fun _ => hempty, ?_⟩, fun hkept => ?_,
    fun x hx => ?_, h.valid⟩
  · intro x xs hx
    rw [Bool.not_eq_false', List.isEmpty_iff] at hfree
    exact absurd (hfree.symm.trans hx) (by simp)
  · refine ⟨hempty, fun hnil => ?_⟩
    dsimp only at hkept hnil
    rw [hnil] at hkept
    cases hkept
  · refine hold x ?_
    rw [unlaunched] at hx
    dsimp only at hx
    split at hx
    next => exact hx
    next => exact List.mem_of_mem_tail hx

theorem Inv.ack (h : s.Inv) {id : Fin n} {zxId : Int64} {transaction : Option τ} {saved : Bool}
    {nextCount : Nat} (hs : s.step m (.ack id zxId transaction saved nextCount) = some s')
    (hfront : KeepsFront m s (.ack id zxId transaction saved nextCount)) : s'.Inv := by
  rw [step] at hs
  split at hs
  next => cases hs
  next hlock =>
    rw [Bool.not_eq_true] at hlock
    have hvoted := h.vote hlock id zxId
    split at hs
    next lead hvote =>
      cases hs
      rw [hvote] at hvoted
      exact hvoted
    next lead d hvote =>
      cases hs
      obtain ⟨-, -, ds, hlead⟩ := Lead.vote_some (congrArg Prod.snd hvote)
      have hid : lead.id = s.lead.id := by
        rw [← s.lead.vote_id id zxId, hvote]
      rw [hvote] at hvoted hlead
      have hq : lead.uncommit = d :: ds := congrArg Lead.uncommit hlead
      refine hvoted.commit hlock hq fun bill hbill => ?_
      rw [hid]
      exact hfront d (by rw [hvote]; rfl) bill hbill

/-- A turn with the lock leaves the first draft launched, or nothing. -/
theorem Inv.turn (h : s.Inv) {saved : Bool} (hs : s.step m (.turn saved) = some s')
    (hfront : KeepsFront m s (.turn saved)) : s'.Inv := by
  rw [step] at hs
  split at hs
  next hlock =>
    cases hs
    obtain ⟨hempty, hne⟩ := h.launching hlock
    obtain ⟨d, ds, hq⟩ := List.exists_cons_of_ne_nil hne
    have hold := h.waiting
    rw [unlaunched_locked hlock, hq] at hold
    have hascending := h.ascending
    rw [attempt, hq]
    dsimp only
    cases saved with
    | true =>
        rw [if_pos rfl]
        refine ⟨?_, fun _ => ⟨fun hnil => ?_, fun d' ds' hd' => ?_⟩, fun hlocked => ?_, ?_, h.valid⟩
        · rw [hq] at hascending
          exact List.pairwise_cons.mpr (List.pairwise_cons.mp hascending)
        · cases hnil
        · cases hd'
          refine ⟨⟨d.zxId, d.data⟩, hold d (.head _), ?_, rfl, .head _⟩
          simp [DataSet.propose, hempty]
        · cases hlocked
        · exact fun x hx => hold x (.tail _ hx)
    | false =>
        have hlast : ds = [] := by simpa [KeepsFront, hq] using hfront
        subst hlast
        rw [if_neg Bool.false_ne_true, Lead.erase_front hq hascending]
        refine ⟨.nil, fun _ => ⟨fun _ => hempty, fun d' ds' hd' => ?_⟩, fun hlocked => ?_,
          fun x hx => ?_, h.valid⟩
        · cases hd'
        · cases hlocked
        · cases hx
  next => cases hs

/-- A stray finds the queue empty and ends. -/
theorem Inv.stray (h : s.Inv) {saved : Bool} (hs : s.step m (.stray saved) = some s')
    (hfront : KeepsFront m s (.stray saved)) : s'.Inv := by
  rw [step] at hs
  split at hs
  next =>
    cases hs
    have hempty : s.lead.uncommit = [] := hfront
    rw [attempt, hempty]
    exact ⟨h.ascending, fun hlock => ⟨(h.lockstep hlock).empty, (h.lockstep hlock).front⟩,
      h.launching, h.waiting, h.valid⟩
  next => cases hs

theorem Inv.step (h : s.Inv) (hfront : KeepsFront m s a) (hs : s.step m a = some s') :
    s'.Inv := by
  cases a with
  | propose id requestId data => exact h.propose hs hfront
  | ack id zxId transaction saved nextCount => exact h.ack hs hfront
  | turn saved => exact h.turn hs hfront
  | stray saved => exact h.stray hs hfront

/-- The record of the data set at the start does not change. -/
theorem entered_of_step (hs : s.step m a = some s') : s'.entered = s.entered := by
  have hattempt : ∀ saved, (s.attempt saved).entered = s.entered := by
    intro saved
    rw [attempt]
    split
    next => rfl
    next =>
      dsimp only
      split
      next => rfl
      next => rfl
  cases a with
  | propose id requestId data =>
      rw [DraftQueue.step] at hs
      split at hs
      next => cases hs
      next => cases hs; rfl
  | ack id zxId transaction saved nextCount =>
      rw [DraftQueue.step] at hs
      split at hs
      next => cases hs
      next =>
        split at hs
        next => cases hs; rfl
        next =>
          cases hs
          rw [DraftQueue.commit]
          dsimp only
          split
          next => rfl
          next => rfl
  | turn saved =>
      rw [DraftQueue.step] at hs
      split at hs
      next => cases hs; exact hattempt saved
      next => cases hs
  | stray saved =>
      rw [DraftQueue.step] at hs
      split at hs
      next => cases hs; exact hattempt saved
      next => cases hs

end DraftQueue

/-- Whenever the lock is free, the data set has the first draft of the queue and nothing
else, and no commit has found another bill, in the runs that begin without old bills and
keep the first draft. -/
theorem queues_in_lockstep {s : DraftQueue n σ} (h : (draftQueue m n).Run (KeepsFront m) s)
    (hempty : s.entered.uncommit = []) :
    (s.locked = false → Lockstep s) ∧ Thrown.invalidZxId ∉ s.raised := by
  have hinv : s.entered.uncommit = [] → s.Inv := by
    refine Transition.System.Run.invariant (I := fun s => s.entered.uncommit = [] → s.Inv)
      (fun _ => DraftQueue.Inv.of_fresh) ?_ h
    intro s a s' hi hfront hs hempty
    exact (hi (DraftQueue.entered_of_step hs ▸ hempty)).step hfront hs
  exact ⟨(hinv hempty).lockstep, (hinv hempty).valid⟩

/-! ## A leader of three -/

/-- Two drafts, of which the first one is committed and the second one launched. -/
def twoDrafts (leader follower : Fin n) : List (DraftQueueAct n Unit) :=
  [.propose leader 1 [7], .turn true, .propose leader 2 [8],
   .ack follower (zxIdOf 1 1) none true 5, .turn true]

/-- A draft is launched and acknowledged. -/
def oneDraft (leader follower : Fin n) : List (DraftQueueAct n Unit) :=
  [.propose leader 1 [7], .turn true, .ack follower (zxIdOf 1 1) none true 5]

/-- A server leads, with the bills its data set has. -/
def DraftQueue.of (leader : Fin n) (uncommit : List Bill) : DraftQueue n Bytes :=
  { lead := { id := leader, peerEpoch := 1 }
    data := { stateData := [], uncommit := uncommit }
    entered := { stateData := [], uncommit := uncommit } }

theorem DraftQueue.of_fresh (leader : Fin n) (uncommit : List Bill) :
    (DraftQueue.of leader uncommit).Fresh :=
  ⟨leader, 1, _, rfl⟩

theorem queues_in_lockstep_twoDrafts :
    ∃ s, Transition.exec (DraftQueue.step Machine.tape) (DraftQueue.of (0 : Fin 3) [])
        (twoDrafts 0 1) = some s ∧
      s.lead.uncommit ≠ [] ∧ (s.locked = false → Lockstep s) ∧ Thrown.invalidZxId ∉ s.raised :=
  have hguard : Transition.Guarded (DraftQueue.step Machine.tape) (KeepsFront Machine.tape)
      (DraftQueue.of (0 : Fin 3) []) (twoDrafts 0 1) := by
    decide
  ⟨_, rfl, by decide, queues_in_lockstep Machine.tape
    (Transition.exec_run (.start (DraftQueue.of_fresh 0 [])) hguard rfl) rfl⟩

/-- A bill from an earlier term stands before the draft, and the commit throws. -/
theorem inherited_bill_in_front :
    ¬ ∀ s, (draftQueue Machine.tape 3).Reachable s →
      (s.locked = false → Lockstep s) ∧ Thrown.invalidZxId ∉ s.raised := by
  intro h
  have hrun : ((Transition.exec (DraftQueue.step Machine.tape)
      (DraftQueue.of (0 : Fin 3) [⟨1, []⟩]) (oneDraft 0 1)).map DraftQueue.raised) =
        some [.invalidZxId] := rfl
  obtain ⟨s, hs, hraised⟩ := Option.map_eq_some_iff.mp hrun
  refine (h s (Transition.exec_reachable (DraftQueue.of_fresh _ _) hs)).2 ?_
  rw [hraised]
  exact List.mem_singleton.mpr rfl

end Paxos
