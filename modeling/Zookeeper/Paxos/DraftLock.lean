import Zookeeper.GuardTrace
import Zookeeper.Paxos.Lead

/-!
# The lock of the drafts

`Lead::Propose` and `Lead::AckPropose` take `_lock`, which protects `_uncommit`, and hand
their guard to `LaunchNextDraft` (`paxos/paxos/lead.cpp`).  A launch that has saved a
draft gives the lock up and returns, and `AckPropose` gives it up again.  A launch that
could not save its draft gives it up as well, and goes on with the loop.

`lock_discipline` says for each of the three calls exactly when it uses its guard right,
and for `AckPropose` also that it gets to resuming the call.
-/

namespace Paxos

open GuardEvent

variable {n : Nat}

/-- The marks in the trace of `AckPropose`. -/
inductive DraftMark where
  /-- `DataSet::Commit` has applied the bill. -/
  | committed
  /-- The last step, `hn_resume` or the failure notice. -/
  | notified
deriving DecidableEq, Repr

/-! ## The traces -/

/-- The loop of `Lead::LaunchNextDraft`: the test, the draft in front, and the lock.  The
exception of an `unlock` without the lock ends it. -/
def launchTrace (save : Int64 → Bool) : Bool → List (Draft n) → List (GuardEvent DraftMark)
  | _, [] => [.access]
  | locked, d :: ds =>
      [.access, .access, .unlock] ++
        if save d.zxId then [] else if locked then launchTrace save false ds else []

namespace Lead

/-- `Lead::Propose`, up to `hn_block`. -/
def proposeTrace (l : Lead n) (id : Fin n) (requestId : Int64) (data : Bytes)
    (save : Int64 → Bool) : List (GuardEvent DraftMark) :=
  let l := l.enqueue id requestId data
  [.lock, .access] ++
    if l.uncommit.length = 1 then launchTrace save true l.uncommit else [.unlock]

/-- The lines of `Lead::AckPropose` behind `DataSet::Commit`. -/
def committedTrace (l : Lead n) (zxId : Int64) (save : Int64 → Bool) :
    List (GuardEvent DraftMark) :=
  let l := l.erase zxId
  let launch := if l.uncommit = [] then [] else launchTrace save true l.uncommit
  [.access, .access] ++ launch ++
    if throws true launch then []
    else .unlock :: if owned true launch then [.mark .notified] else []

/-- The lines for a draft with a majority, `commit` being how `DataSet::Commit` ends. -/
def commitTrace (l : Lead n) (zxId : Int64) (commit : CommitEnd) (save : Int64 → Bool) :
    List (GuardEvent DraftMark) :=
  match commit with
  | .throwsBefore => []
  | .throwsAfter => [.mark .committed]
  | .returns => .mark .committed :: l.committedTrace zxId save

/-- `Lead::AckPropose`. -/
def ackTrace (l : Lead n) (id : Fin n) (zxId : Int64) (commit : CommitEnd) (save : Int64 → Bool) :
    List (GuardEvent DraftMark) :=
  [.lock, .access] ++
    match l.vote id zxId with
    | (_, none) => []
    | (l, some d) => l.commitTrace d.zxId commit save

/-- Behind a commit, the call gets to its last step. -/
def Notifies (es : List (GuardEvent DraftMark)) : Prop :=
  ∀ before after, es = before ++ .mark .committed :: after → .mark .notified ∈ after

/-- No other draft is queued, or the new one can be saved. -/
def ProposeSafe (l : Lead n) (save : Int64 → Bool) : Prop :=
  (∀ d ∈ l.uncommit, d.zxId = zxIdOf l.peerEpoch l.nextId) → l.uncommit.length ≤ 1 →
    save (zxIdOf l.peerEpoch l.nextId) = true

/-- The vote is not the one that makes a majority for the first draft; or nothing is
committed; or the commit returns and no other draft waits. -/
def AckSafe (l : Lead n) (id : Fin n) (zxId : Int64) (commit : CommitEnd) : Prop :=
  ∀ d ds, l.uncommit = d :: ds → d.zxId = zxId → n / 2 + 1 ≤ (insert id d.vote).card →
    commit = .throwsBefore ∨ commit = .returns ∧ ∀ x ∈ ds, x.zxId = zxId

end Lead

/-! ## The launch -/

/-- The loop begins with its test. -/
theorem launchTrace_test (save : Int64 → Bool) (locked : Bool) (ds : List (Draft n)) :
    ∃ es, launchTrace save locked ds = .access :: es := by
  cases ds with
  | nil => exact ⟨[], rfl⟩
  | cons d ds => exact ⟨_, rfl⟩

/-- The guard throws where the loop does. -/
theorem launchTrace_throws (save : Int64 → Bool) (locked : Bool) (ds : List (Draft n)) :
    throws locked (launchTrace save locked ds) = (launchLoop save locked ds).thrown := by
  induction ds generalizing locked with
  | nil => rfl
  | cons d ds ih =>
      rw [launchTrace, launchLoop]
      split
      next => cases locked <;> rfl
      next =>
        split
        next hlocked =>
          subst hlocked
          exact ih false
        next hlocked =>
          rw [Bool.not_eq_true] at hlocked
          subst hlocked
          rfl

/-- With the lock, a launch is disciplined exactly if it saves the first draft. -/
theorem launchTrace_disciplined_iff (save : Int64 → Bool) (ds : List (Draft n)) :
    Disciplined true (launchTrace save true ds) ↔ ∀ d ∈ ds.head?, save d.zxId = true := by
  cases ds with
  | nil => exact ⟨fun _ d hd => absurd hd (by simp), fun _ => ⟨rfl, trivial⟩⟩
  | cons d ds =>
      have hhead : (∀ x ∈ (d :: ds).head?, save x.zxId = true) ↔ save d.zxId = true := by
        simp
      rw [hhead, launchTrace, disciplined_append]
      cases hsave : save d.zxId with
      | true => exact iff_of_true ⟨⟨rfl, rfl, rfl, trivial⟩, trivial⟩ rfl
      | false =>
          -- behind the failure, the test of the loop has no lock
          obtain ⟨es, hes⟩ := launchTrace_test save false ds
          refine iff_of_false (fun h => ?_) Bool.false_ne_true
          have hrest := h.2
          rw [if_neg Bool.false_ne_true, if_pos rfl, hes] at hrest
          exact absurd hrest.1 Bool.false_ne_true

/-! ## The calls -/

namespace Lead

variable (l : Lead n)

theorem proposeTrace_disciplined_iff (id : Fin n) (requestId : Int64) (data : Bytes)
    (save : Int64 → Bool) :
    Disciplined false (l.proposeTrace id requestId data save) ↔ l.ProposeSafe save := by
  have hlength := insertDraft_length_one (n := n)
    { id, requestId, zxId := zxIdOf l.peerEpoch l.nextId, data, vote := {id} } l.uncommit
  rw [proposeTrace, disciplined_append]
  split
  next hone =>
    obtain ⟨d, hd, hid⟩ := l.enqueue_single hone
    obtain ⟨hids, hfew⟩ := hlength.mp hone
    rw [hd]
    constructor
    · intro h _ _
      have hsaved := (launchTrace_disciplined_iff save [d]).mp h.2
      exact hid ▸ hsaved d rfl
    · intro h
      refine ⟨⟨rfl, rfl, trivial⟩, (launchTrace_disciplined_iff save [d]).mpr fun x hx => ?_⟩
      cases hx
      rw [hid]
      exact h hids hfew
  next hmany =>
    refine iff_of_true ⟨⟨rfl, rfl, trivial⟩, rfl, trivial⟩ fun hids hfew => ?_
    exact absurd (hlength.mpr ⟨hids, hfew⟩) hmany

/-- No other draft waits: the call gives the lock up and gets to its last step. -/
theorem committedTrace_last {zxId : Int64} (save : Int64 → Bool)
    (h : ∀ x ∈ l.uncommit, x.zxId = zxId) :
    l.committedTrace zxId save = [.access, .access, .unlock, .mark .notified] := by
  have hnone : (l.erase zxId).uncommit = [] := by simpa [erase, List.filter_eq_nil_iff] using h
  rw [committedTrace, hnone]
  rfl

/-- Another draft waits: the lock was given up in its launch. -/
theorem committedTrace_more {zxId : Int64} (save : Int64 → Bool)
    (h : ¬ ∀ x ∈ l.uncommit, x.zxId = zxId) :
    ¬ Disciplined true (l.committedTrace zxId save) := by
  have hmore : (l.erase zxId).uncommit ≠ [] := by simpa [erase, List.filter_eq_nil_iff] using h
  intro hdisciplined
  rw [committedTrace, if_neg hmore, disciplined_append, disciplined_append] at hdisciplined
  obtain ⟨⟨-, hlaunch⟩, hrelease⟩ := hdisciplined
  obtain ⟨d, ds, hq⟩ := List.exists_cons_of_ne_nil hmore
  have hsaved : save d.zxId = true :=
    (launchTrace_disciplined_iff save _).mp hlaunch d (by rw [hq]; rfl)
  rw [hq, launchTrace, if_pos hsaved] at hrelease
  exact absurd hrelease.1 Bool.false_ne_true

/-- A trace with one commit. -/
theorem notifies_once {before after : List (GuardEvent DraftMark)}
    (hbefore : .mark .committed ∉ before) (hafter : .mark .committed ∉ after) :
    Notifies (before ++ .mark .committed :: after) ↔ .mark .notified ∈ after := by
  constructor
  · exact fun h => h before after rfl
  · intro hnotified before' after' heq
    obtain ⟨-, -, rfl⟩ := (List.append_cons_inj_of_notMem hbefore hafter).mp heq
    exact hnotified

theorem notifies_none {es : List (GuardEvent DraftMark)} (h : .mark .committed ∉ es) :
    Notifies es := by
  rintro before after rfl
  exact absurd (List.mem_append_right before (.head after)) h

/-- What `AckPropose` is to do with its guard, and with a draft that it commits. -/
def AckRight (es : List (GuardEvent DraftMark)) : Prop := Disciplined false es ∧ Notifies es

/-- For a draft with a majority, the call is right exactly if nothing is committed, or the
commit returns and no other draft waits. -/
theorem commitTrace_right_iff (zxId : Int64) (commit : CommitEnd) (save : Int64 → Bool) :
    AckRight ([.lock, .access] ++ l.commitTrace zxId commit save) ↔
      commit = .throwsBefore ∨ commit = .returns ∧ ∀ x ∈ l.uncommit, x.zxId = zxId := by
  have htaken : Disciplined false ([.lock, .access] : List (GuardEvent DraftMark)) :=
    ⟨rfl, rfl, trivial⟩
  cases commit with
  | throwsBefore => exact iff_of_true ⟨htaken, notifies_none (by simp [commitTrace])⟩ (.inl rfl)
  | throwsAfter =>
      refine iff_of_false (fun h => ?_) (by simp)
      exact List.not_mem_nil (h.2 [.lock, .access] [] rfl)
  | returns =>
      rw [AckRight, commitTrace, disciplined_append]
      constructor
      · rintro ⟨⟨-, hrest⟩, -⟩
        by_contra hmore
        exact l.committedTrace_more save (by simpa using hmore) hrest
      · intro h
        have hlast : ∀ x ∈ l.uncommit, x.zxId = zxId := by simpa using h
        rw [l.committedTrace_last save hlast]
        exact ⟨⟨htaken, rfl, rfl, rfl, trivial⟩, (notifies_once (by simp) (by simp)).mpr (by simp)⟩

/-- A vote for anything but the first draft does nothing, and may come at any time. -/
theorem ackTrace_right_iff (id : Fin n) (zxId : Int64) (commit : CommitEnd)
    (save : Int64 → Bool) :
    AckRight (l.ackTrace id zxId commit save) ↔ l.AckSafe id zxId commit := by
  have hkept : AckRight ([.lock, .access] ++ []) :=
    ⟨⟨rfl, rfl, trivial⟩, notifies_none (by simp)⟩
  rw [ackTrace, vote]
  cases hq : l.uncommit with
  | nil => exact iff_of_true hkept fun d ds hd => absurd (hq.symm.trans hd) (by simp)
  | cons d ds =>
      dsimp only
      rcases Decidable.em (d.zxId = zxId) with hz | hother
      · rw [if_pos hz]
        rcases Decidable.em (n / 2 + 1 ≤ (insert id d.vote).card) with hmajority | hfew
        · rw [if_pos hmajority]
          dsimp only
          rw [commitTrace_right_iff, hz]
          constructor
          · intro h d' ds' hd' _ _
            obtain ⟨rfl, rfl⟩ := List.cons.inj (hq.symm.trans hd')
            exact h.imp_right (And.imp_right fun hall x hx => hall x (.tail _ hx))
          · intro h
            refine (h d ds hq hz hmajority).imp_right (And.imp_right fun hall x hx => ?_)
            rcases List.mem_cons.mp hx with rfl | hx
            · rfl
            · exact hall x hx
        · rw [if_neg hfew]
          refine iff_of_true hkept fun d' ds' hd' _ hmajority => ?_
          obtain ⟨rfl, rfl⟩ := List.cons.inj (hq.symm.trans hd')
          exact absurd hmajority hfew
      · rw [if_neg hother]
        refine iff_of_true hkept fun d' ds' hd' hz _ => ?_
        obtain ⟨rfl, rfl⟩ := List.cons.inj (hq.symm.trans hd')
        exact absurd hz hother

end Lead

/-- A launch that has the lock uses it right exactly if the first draft can be saved.
`Propose` does if the draft it launches can be saved; and `AckPropose` does, and gets to
its last step behind a commit, if it commits nothing, or the last draft. -/
theorem lock_discipline (l : Lead n) (save : Int64 → Bool) :
    (Disciplined true (launchTrace save true l.uncommit) ↔
      ∀ d ∈ l.uncommit.head?, save d.zxId = true) ∧
    (∀ id requestId data,
      Disciplined false (l.proposeTrace id requestId data save) ↔ l.ProposeSafe save) ∧
    (∀ id zxId commit,
      Disciplined false (l.ackTrace id zxId commit save) ∧
        Lead.Notifies (l.ackTrace id zxId commit save) ↔ l.AckSafe id zxId commit) :=
  ⟨launchTrace_disciplined_iff save l.uncommit,
    fun id requestId data => l.proposeTrace_disciplined_iff id requestId data save,
    fun id zxId commit => l.ackTrace_right_iff id zxId commit save⟩

/-- A leader with two drafts of its own. -/
def leadOfTwo (leader : Fin n) : Lead n :=
  { id := leader
    peerEpoch := 1
    nextId := 3
    uncommit :=
      [{ id := leader, requestId := 1, zxId := zxIdOf 1 1, data := [7], vote := {leader} },
       { id := leader, requestId := 2, zxId := zxIdOf 1 2, data := [8], vote := {leader} }] }

/-- The first draft is committed, and behind the launch of the second one the lock is
given up twice. -/
theorem second_draft_unlocks_twice :
    ¬ ∀ (l : Lead 3) (save : Int64 → Bool),
      Disciplined true (launchTrace save true l.uncommit) ∧
      (∀ id requestId data, Disciplined false (l.proposeTrace id requestId data save)) ∧
      ∀ id zxId commit, Disciplined false (l.ackTrace id zxId commit save) ∧
        Lead.Notifies (l.ackTrace id zxId commit save) := by
  intro h
  obtain ⟨hdisciplined, -⟩ := (h (leadOfTwo 0) fun _ => true).2.2 1 (zxIdOf 1 1) .returns
  have hthrows : throws false
      ((leadOfTwo (0 : Fin 3)).ackTrace 1 (zxIdOf 1 1) .returns fun _ => true) = true := by
    decide
  exact absurd (hdisciplined.not_throws.symm.trans hthrows) Bool.false_ne_true

end Paxos
