import Zookeeper.Paxos.Lead
import Zookeeper.Paxos.Service
import Zookeeper.Transition

/-!
# Failure notices

A `REQUEST_FAIL` frame makes the server that gets it take the call with that request id
for failed (`paxos/paxos/follow.cpp`).  A `Lead` sends it from two places
(`paxos/paxos/lead.cpp`): `LaunchNextDraft`, to the server whose draft it could not save,
and `AckPropose`, to the server whose acknowledgement has made it commit a draft of
another one.

`notices_right` says that the notices are for dropped drafts and go to the servers that
submitted them, in the runs in which `AckPropose` does not get to its own.
-/

namespace Paxos

variable {n : Nat}

/-- What became of a draft. -/
inductive Fate (n : Nat) where
  | committed (d : Draft n)
  /-- `LaunchNextDraft` could not save it. -/
  | dropped (d : Draft n)
deriving DecidableEq

/-- A `REQUEST_FAIL` frame that was sent, and what it was sent for. -/
structure FailNotice (n : Nat) where
  server : Fin n
  requestId : Int64
  fate : Fate n
deriving DecidableEq

/-- A lead with the callbacks of its own server and its forwarding table.  The last two
fields only record what happened, in order. -/
structure NoticeTable (n : Nat) where
  lead : Lead n
  service : Service := {}
  /-- `_forwarding`. -/
  forwarding : Fin n → Option Nat := fun _ => none
  fates : List (Fate n) := []
  sent : List (FailNotice n) := []

inductive NoticeAct (n : Nat) where
  /-- `Propose`, of a call of the own server. -/
  | call (call : Nat) (data : Bytes) (save : Int64 → Bool)
  /-- `Propose`, of a request. -/
  | request (id : Fin n) (requestId : Int64) (data : Bytes) (save : Int64 → Bool)
  | ack (id : Fin n) (zxId : Int64) (commit : CommitEnd) (save : Int64 → Bool)
  | startForwarding (id : Fin n) (fd : Nat)
  | unregister (id : Fin n)

/-- The drafts that a launch takes off the queue. -/
def launchDropped (save : Int64 → Bool) : Bool → List (Draft n) → List (Draft n)
  | _, [] => []
  | locked, d :: ds =>
      if save d.zxId then [] else d :: if locked then launchDropped save false ds else []

namespace NoticeTable

/-- `hn_send` of a `REQUEST_FAIL`, where there is a connection. -/
def sendFail (s : NoticeTable n) (server : Fin n) (requestId : Int64) (fate : Fate n) :
    NoticeTable n :=
  match s.forwarding server with
  | none => s
  | some _ => { s with sent := s.sent ++ [⟨server, requestId, fate⟩] }

/-- The answer of `LaunchNextDraft` to a draft it could not save. -/
def answerFailed (s : NoticeTable n) (d : Draft n) : NoticeTable n :=
  if d.id ≠ s.lead.id then s.sendFail d.id d.requestId (.dropped d)
  else { s with service := (s.service.popRequest d.requestId).1 }

/-- `Lead::LaunchNextDraft`. -/
def launch (s : NoticeTable n) (save : Int64 → Bool) : NoticeTable n :=
  let (lead, launch) := s.lead.launchNextDraft save
  launch.failed.foldl answerFailed
    { s with
      lead := lead
      fates := s.fates ++ (launchDropped save true s.lead.uncommit).map .dropped }

/-- `Lead::Propose`. -/
def propose (s : NoticeTable n) (id : Fin n) (requestId : Int64) (data : Bytes)
    (save : Int64 → Bool) : NoticeTable n :=
  let s := { s with lead := s.lead.enqueue id requestId data }
  if s.lead.uncommit.length = 1 then s.launch save else s

/-- The last lines of `Lead::AckPropose`: the call of the own server goes on. -/
def answerCommitted (s : NoticeTable n) (id : Fin n) (d : Draft n) : Option Nat → NoticeTable n
  | some _ => s
  | none => s.sendFail id d.requestId (.committed d)

/-- The lines of `Lead::AckPropose` behind `DataSet::Commit`.  Behind a launch, releasing
the lock throws. -/
def committed (s : NoticeTable n) (id : Fin n) (d : Draft n) (call : Option Nat)
    (save : Int64 → Bool) : NoticeTable n :=
  let s := { s with lead := s.lead.erase d.zxId, fates := s.fates ++ [Fate.committed d] }
  if s.lead.uncommit = [] then s.answerCommitted id d call else s.launch save

/-- `PopRequest` in `Lead::AckPropose`, for a draft of the own server. -/
def takeCall (s : NoticeTable n) (d : Draft n) : Service × Option Nat :=
  if d.id = s.lead.id then s.service.popRequest d.requestId else (s.service, none)

/-- The lines of `Lead::AckPropose` for a draft with a majority. -/
def commit (s : NoticeTable n) (id : Fin n) (d : Draft n) (commit : CommitEnd)
    (save : Int64 → Bool) : NoticeTable n :=
  let (service, call) := s.takeCall d
  let s := { s with service := service }
  match commit with
  | .throwsBefore => s
  | .throwsAfter => { s with fates := s.fates ++ [.committed d] }
  | .returns => s.committed id d call save

/-- `Lead::AckPropose`. -/
def ack (s : NoticeTable n) (id : Fin n) (zxId : Int64) (commit : CommitEnd)
    (save : Int64 → Bool) : NoticeTable n :=
  match s.lead.vote id zxId with
  | (lead, none) => { s with lead := lead }
  | (lead, some d) => { s with lead := lead }.commit id d commit save

def step (s : NoticeTable n) : NoticeAct n → Option (NoticeTable n)
  | .call call data save =>
      let (service, requestId) := s.service.pushRequest call
      some ({ s with service := service }.propose s.lead.id requestId data save)
  | .request id requestId data save => some (s.propose id requestId data save)
  | .ack id zxId commit save => some (s.ack id zxId commit save)
  | .startForwarding id fd =>
      some { s with forwarding := Function.update s.forwarding id (some fd) }
  | .unregister id => some { s with forwarding := Function.update s.forwarding id none }

/-- A term begins. -/
def Fresh (s : NoticeTable n) : Prop := ∃ id peerEpoch, s = { lead := { id, peerEpoch } }

end NoticeTable

/-- The calls of `Propose` and `AckPropose` in a term. -/
def noticeTable (n : Nat) : Transition.System (NoticeTable n) (NoticeAct n) :=
  Transition.ofStep NoticeTable.Fresh NoticeTable.step

/-- A notice goes to the server that submitted a draft, under its request id, because that
draft was dropped; and there is at most one for each draft. -/
structure NoticesRight (s : NoticeTable n) : Prop where
  due : ∀ f ∈ s.sent, ∃ d, f.fate = .dropped d ∧ f.server = d.id ∧ f.requestId = d.requestId
  once : (s.sent.map FailNotice.fate).Sublist s.fates

/-- An acknowledgement that commits the last draft of the queue is from a server without a
connection, or the draft is the leader's own and its call still waits. -/
def AnswersNobody (s : NoticeTable n) : NoticeAct n → Prop
  | .ack id zxId commit _ =>
      ∀ d ∈ s.lead.uncommit.head?, d.zxId = zxId → n / 2 + 1 ≤ (insert id d.vote).card →
        commit = .returns → (∀ x ∈ s.lead.uncommit, x.zxId = zxId) →
          s.forwarding id = none ∨ (s.takeCall d).2 ≠ none
  | _ => True

instance (s : NoticeTable n) : ∀ a, Decidable (AnswersNobody s a)
  | .ack _ _ _ _ => inferInstanceAs (Decidable (∀ d ∈ s.lead.uncommit.head?, _))
  | .call _ _ _ => inferInstanceAs (Decidable True)
  | .request _ _ _ _ => inferInstanceAs (Decidable True)
  | .startForwarding _ _ => inferInstanceAs (Decidable True)
  | .unregister _ => inferInstanceAs (Decidable True)

/-! ## The launch -/

/-- A launch takes drafts off the front of the queue. -/
theorem launchDropped_append (save : Int64 → Bool) (locked : Bool) (ds : List (Draft n)) :
    launchDropped save locked ds ++ (launchLoop save locked ds).uncommit = ds := by
  induction ds generalizing locked with
  | nil => rfl
  | cons d ds ih =>
      rw [launchDropped, launchLoop]
      split
      next => rfl
      next =>
        split
        next => exact congrArg (d :: ·) (ih false)
        next => rfl

/-- The drafts that are answered are among those that are dropped. -/
theorem launchLoop_failed_sublist (save : Int64 → Bool) (locked : Bool) (ds : List (Draft n)) :
    (launchLoop save locked ds).failed.Sublist (launchDropped save locked ds) := by
  induction ds generalizing locked with
  | nil => exact .slnil
  | cons d ds ih =>
      rw [launchDropped, launchLoop]
      split
      next => exact .slnil
      next =>
        split
        next => exact (ih false).cons_cons d
        next => exact List.nil_sublist _

namespace NoticeTable

variable {s s' : NoticeTable n} {a : NoticeAct n}

/-- The notice that a draft which could not be saved leads to. -/
def noticeFor (s : NoticeTable n) (d : Draft n) : Option (FailNotice n) :=
  if d.id ≠ s.lead.id ∧ s.forwarding d.id ≠ none then some ⟨d.id, d.requestId, .dropped d⟩
  else none

/-- Answers leave the queue and the connections alone. -/
theorem answerFailed_eq (s : NoticeTable n) (d : Draft n) :
    (s.answerFailed d).lead = s.lead ∧ (s.answerFailed d).forwarding = s.forwarding ∧
      (s.answerFailed d).fates = s.fates ∧
      (s.answerFailed d).sent = s.sent ++ (s.noticeFor d).toList := by
  rw [answerFailed, noticeFor]
  split
  next hother =>
    rw [sendFail]
    cases hfd : s.forwarding d.id with
    | none => simp
    | some fd => simp [hother]
  next hown => simp [hown]

theorem answers_eq (failed : List (Draft n)) (s : NoticeTable n) :
    (failed.foldl answerFailed s).fates = s.fates ∧
      (failed.foldl answerFailed s).sent = s.sent ++ failed.filterMap s.noticeFor := by
  induction failed generalizing s with
  | nil => exact ⟨rfl, (List.append_nil s.sent).symm⟩
  | cons d ds ih =>
      obtain ⟨hlead, hforwarding, hfates, hsent⟩ := s.answerFailed_eq d
      obtain ⟨hfates', hsent'⟩ := ih (s.answerFailed d)
      have hfor : (s.answerFailed d).noticeFor = s.noticeFor := by
        funext x
        rw [noticeFor, noticeFor, hlead, hforwarding]
      rw [List.foldl_cons, hfates', hsent', hfates, hsent, hfor]
      refine ⟨rfl, ?_⟩
      cases hnotice : s.noticeFor d with
      | none => simp [hnotice]
      | some f => simp [hnotice]

/-- The notices of a launch. -/
theorem noticeFor_some {d : Draft n} {f : FailNotice n} (h : s.noticeFor d = some f) :
    f.fate = .dropped d ∧ f.server = d.id ∧ f.requestId = d.requestId := by
  rw [noticeFor] at h
  split at h
  next => cases h; exact ⟨rfl, rfl, rfl⟩
  next => cases h

theorem noticesFor_sublist (s : NoticeTable n) (ds : List (Draft n)) :
    ((ds.filterMap s.noticeFor).map FailNotice.fate).Sublist (ds.map .dropped) := by
  induction ds with
  | nil => exact .slnil
  | cons d ds ih =>
      cases hnotice : s.noticeFor d with
      | none =>
          rw [List.filterMap_cons_none hnotice, List.map_cons]
          exact ih.cons _
      | some f =>
          rw [List.filterMap_cons_some hnotice, List.map_cons, List.map_cons,
            (noticeFor_some hnotice).1]
          exact ih.cons_cons _

/-- A launch answers drafts that it has dropped. -/
theorem right_launch (h : NoticesRight s) (save : Int64 → Bool) : NoticesRight (s.launch save) := by
  rw [launch]
  dsimp only
  obtain ⟨hfates, hsent⟩ := answers_eq (s.lead.launchNextDraft save).2.failed
    { s with
      lead := (s.lead.launchNextDraft save).1
      fates := s.fates ++ (launchDropped save true s.lead.uncommit).map .dropped }
  constructor
  case due =>
    intro f hf
    rw [hsent] at hf
    rcases List.mem_append.mp hf with hf | hf
    · exact h.due f hf
    · obtain ⟨d, -, hd⟩ := List.mem_filterMap.mp hf
      exact ⟨d, noticeFor_some hd⟩
  case once =>
    rw [hfates, hsent, List.map_append]
    have hfailed := launchLoop_failed_sublist save true s.lead.uncommit
    exact h.once.append ((noticesFor_sublist _ _).trans (hfailed.map _))

theorem right_propose (h : NoticesRight s) (id : Fin n) (requestId : Int64) (data : Bytes)
    (save : Int64 → Bool) : NoticesRight (s.propose id requestId data save) := by
  have hqueued : NoticesRight { s with lead := s.lead.enqueue id requestId data } :=
    ⟨h.due, h.once⟩
  rw [propose]
  dsimp only
  split
  next => exact right_launch hqueued save
  next => exact hqueued

/-- A notice for a committed draft is wrong. -/
theorem right_answerCommitted_iff (h : NoticesRight s) (id : Fin n) (d : Draft n)
    (call : Option Nat) :
    NoticesRight (s.answerCommitted id d call) ↔ s.forwarding id = none ∨ call ≠ none := by
  cases call with
  | some k => exact iff_of_true h (.inr (Option.some_ne_none k))
  | none =>
      rw [answerCommitted, sendFail]
      cases hfd : s.forwarding id with
      | none => exact iff_of_true h (.inl rfl)
      | some fd =>
          refine iff_of_false (fun hright => ?_) (by simp)
          obtain ⟨d', hfate, -⟩ :=
            hright.due _ (List.mem_append_right _ (List.mem_singleton_self _))
          cases hfate

theorem right_committed_iff (h : NoticesRight s) (id : Fin n) (d : Draft n) (call : Option Nat)
    (save : Int64 → Bool) :
    NoticesRight (s.committed id d call save) ↔
      ((∀ x ∈ s.lead.uncommit, x.zxId = d.zxId) → s.forwarding id = none ∨ call ≠ none) := by
  have hkept : NoticesRight
      { s with lead := s.lead.erase d.zxId, fates := s.fates ++ [.committed d] } :=
    ⟨h.due, h.once.trans (List.sublist_append_left _ _)⟩
  have hlast : (s.lead.erase d.zxId).uncommit = [] ↔ ∀ x ∈ s.lead.uncommit, x.zxId = d.zxId := by
    simp [Lead.erase, List.filter_eq_nil_iff]
  rw [committed, ← hlast]
  dsimp only
  split
  next hempty =>
    rw [right_answerCommitted_iff hkept]
    exact ⟨fun hcond _ => hcond, fun hcond => hcond hempty⟩
  next hmore => exact iff_of_true (right_launch hkept save) fun hempty => absurd hempty hmore

theorem right_commit_iff (h : NoticesRight s) (id : Fin n) (d : Draft n) (commit : CommitEnd)
    (save : Int64 → Bool) :
    NoticesRight (s.commit id d commit save) ↔
      (commit = .returns → (∀ x ∈ s.lead.uncommit, x.zxId = d.zxId) →
        s.forwarding id = none ∨ (s.takeCall d).2 ≠ none) := by
  have htaken : NoticesRight { s with service := (s.takeCall d).1 } := ⟨h.due, h.once⟩
  rw [NoticeTable.commit]
  dsimp only
  cases commit with
  | throwsBefore => exact iff_of_true htaken (by simp)
  | throwsAfter =>
      exact iff_of_true ⟨h.due, h.once.trans (List.sublist_append_left _ _)⟩ (by simp)
  | returns =>
      rw [right_committed_iff htaken]
      exact ⟨fun hcond _ => hcond, fun hcond => hcond rfl⟩

/-- An acknowledgement keeps the notices right exactly if it does not send one. -/
theorem right_ack_iff (h : NoticesRight s) (id : Fin n) (zxId : Int64) (commit : CommitEnd)
    (save : Int64 → Bool) :
    NoticesRight (s.ack id zxId commit save) ↔ AnswersNobody s (.ack id zxId commit save) := by
  have hvoted : ∀ lead, NoticesRight { s with lead := lead } := fun _ => ⟨h.due, h.once⟩
  rw [ack, AnswersNobody, Lead.vote]
  cases hq : s.lead.uncommit with
  | nil => exact iff_of_true (hvoted _) fun d hd => absurd hd (by simp)
  | cons d ds =>
      simp only [List.head?_cons, Option.mem_def, Option.some.injEq, forall_eq']
      rcases Decidable.em (d.zxId = zxId) with hz | hother
      · rw [if_pos hz]
        rcases Decidable.em (n / 2 + 1 ≤ (insert id d.vote).card) with hmajority | hfew
        · rw [if_pos hmajority]
          dsimp only
          rw [right_commit_iff (hvoted _)]
          simp only [List.forall_mem_cons, hz, true_and, hmajority, forall_const]
          rfl
        · rw [if_neg hfew]
          exact iff_of_true (hvoted _) fun _ hmajority => absurd hmajority hfew
      · rw [if_neg hother]
        exact iff_of_true (hvoted _) fun hz => absurd hz hother

/-- The other steps keep the notices right. -/
theorem right_step_iff (h : NoticesRight s) (hs : s.step a = some s') :
    NoticesRight s' ↔ AnswersNobody s a := by
  cases a with
  | call call data save =>
      cases hs
      have hpushed : NoticesRight { s with service := (s.service.pushRequest call).1 } :=
        ⟨h.due, h.once⟩
      exact iff_of_true (right_propose hpushed _ _ _ _) trivial
  | request id requestId data save =>
      cases hs
      exact iff_of_true (right_propose h _ _ _ _) trivial
  | ack id zxId commit save =>
      cases hs
      exact right_ack_iff h id zxId commit save
  | startForwarding id fd =>
      cases hs
      exact iff_of_true ⟨h.due, h.once⟩ trivial
  | unregister id =>
      cases hs
      exact iff_of_true ⟨h.due, h.once⟩ trivial

end NoticeTable

/-- The notices are right in every run in which no acknowledgement is answered with one;
and the first one that is makes them wrong. -/
theorem notices_right {s : NoticeTable n} (h : (noticeTable n).Run AnswersNobody s) :
    NoticesRight s ∧ ∀ a s', s.step a = some s' → (NoticesRight s' ↔ AnswersNobody s a) := by
  have hright : NoticesRight s := by
    refine Transition.System.Run.invariant (I := NoticesRight) ?_ ?_ h
    · rintro s ⟨id, peerEpoch, rfl⟩
      exact ⟨fun f hf => absurd hf List.not_mem_nil, .slnil⟩
    · exact fun s a s' hs ha hstep => (NoticeTable.right_step_iff hs hstep).mpr ha
  exact ⟨hright, fun a s' => NoticeTable.right_step_iff hright⟩

/-! ## A leader of three -/

/-- A server leads. -/
def newNoticeTable (leader : Fin n) : NoticeTable n := { lead := { id := leader, peerEpoch := 1 } }

theorem newNoticeTable_fresh (leader : Fin n) : (newNoticeTable leader).Fresh := ⟨leader, 1, rfl⟩

/-- A request of a follower is dropped, and a call of the leader is committed. -/
def droppedRequest (follower : Fin n) : List (NoticeAct n) :=
  [.startForwarding follower 4, .request follower 5 [7] fun _ => false, .call 0 [8] fun _ => true,
   .ack follower (zxIdOf 1 2) .returns fun _ => true]

/-- A request of a follower is committed with the vote of another one. -/
def committedRequest (follower voter : Fin n) : List (NoticeAct n) :=
  [.startForwarding voter 4, .request follower 5 [7] fun _ => true,
   .ack voter (zxIdOf 1 1) .returns fun _ => true]

theorem notices_right_droppedRequest :
    ∃ s, Transition.exec NoticeTable.step (newNoticeTable (0 : Fin 3)) (droppedRequest 1) =
        some s ∧
      s.sent.length = 1 ∧ NoticesRight s :=
  have hguard : Transition.Guarded NoticeTable.step AnswersNobody (newNoticeTable (0 : Fin 3))
      (droppedRequest 1) := by
    decide
  ⟨_, rfl, rfl,
    (notices_right (Transition.exec_run (.start (newNoticeTable_fresh 0)) hguard rfl)).1⟩

/-- Server 2 is told that its request 5 has failed. -/
theorem voter_is_told :
    ¬ ∀ s, (noticeTable 3).Reachable s → NoticesRight s := by
  intro h
  obtain ⟨d, hfate, -⟩ := (h _ (Transition.exec_reachable (newNoticeTable_fresh 0)
    (rfl : Transition.exec NoticeTable.step (newNoticeTable 0) (committedRequest 1 2) =
      some _))).due _ (List.mem_singleton_self _)
  cases hfate

end Paxos
