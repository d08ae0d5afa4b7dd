import Mathlib.Logic.Function.Basic
import Zookeeper.Transition
import Zookeeper.Paxos.Lead

/-!
# A follower joins

While a follower joins, the leader goes on working.  `FollowHandler::SyncFollower`
copies the log under the lock of the data set, gives that lock back, and only
then enters the follower in the forwarding table.  A proposal or commit is first
issued on the data set and then sent, slot by slot, to the followers in the
table.  Commits are sent under the lock of the leader, proposals are not.

Every issue remembers how many slots its sending has passed.  `ExactlyOnce` is
what a follower needs: nothing that its copy covers is sent to it, and
everything later is sent once when its turn comes.  `exactly_once` proves it for
the runs in which forwarding starts at the right time for every issue, and
`missed_proposal` is a run in which it starts too late.
-/

namespace Paxos

variable {n : Nat}

/-- A change of the leader's data set. -/
inductive IssueKind where
  | propose (zxId : Int64)
  | commit (zxId : Int64)
deriving DecidableEq, Repr

/-- A proposal or commit of the data set, and the slots it was sent past. -/
structure Issue where
  kind : IssueKind
  slot : Nat := 0
  /-- An exception keeps it from being sent. -/
  dead : Bool := false
deriving DecidableEq, Repr

/-- A leader whose calls are under way. -/
structure Joins (n : Nat) where
  lead : Lead n
  /-- Everything issued so far, in order. -/
  issued : List Issue := []
  /-- The commit that is being sent with the lock held, and its draft. -/
  locked : Option (Nat × Int64) := none
  /-- How much was issued when the follower in a slot copied the log. -/
  synced : Fin n → Option Nat := fun _ => none
  /-- The forwarding table. -/
  forwarding : Fin n → Bool := fun _ => false
  /-- What was sent to the follower in a slot, by position in `issued`. -/
  sent : Fin n → List Nat := fun _ => []

inductive JoinAct (n : Nat) where
  /-- `Lead::Propose`, up to the sending of the draft it launches. -/
  | propose (id : Fin n) (requestId : Int64) (data : Bytes) (save : Int64 → Bool)
  /-- `Lead::AckPropose`, up to the sending of the commit. -/
  | ack (id : Fin n) (zxId : Int64) (commit : CommitEnd)
  /-- The rest of `Lead::AckPropose`. -/
  | launch (save : Int64 → Bool)
  /-- One turn of the loop that sends an issue. -/
  | pass (k : Nat)
  /-- The part of `SyncFollower` under the lock of the data set. -/
  | sync (i : Fin n)
  | startForwarding (i : Fin n)
  /-- `Lead::Unregister`. -/
  | unregister (i : Fin n)

namespace Joins

/-- What a launch issues. -/
def launched (launch : Option (Launch n)) : List Issue :=
  match launch with
  | none => []
  | some launch =>
      (launch.saved.map fun d => { kind := .propose d.zxId, dead := launch.thrown }).toList

/-- Send an issue to the follower in the next slot. -/
def pass (s : Joins n) (k : Nat) (issue : Issue) : Joins n :=
  { s with
    issued := s.issued.set k { issue with slot := issue.slot + 1 }
    sent := fun i =>
      if i.val = issue.slot ∧ s.forwarding i = true then s.sent i ++ [k] else s.sent i }

def step (s : Joins n) : JoinAct n → Option (Joins n)
  | .propose id requestId data save =>
      if s.locked.isSome then none
      else
        let (lead, launch) := s.lead.propose id requestId data save
        some { s with lead := lead, issued := s.issued ++ launched launch }
  | .ack id zxId commit =>
      if s.locked.isSome then none
      else
        match s.lead.vote id zxId, commit with
        | (lead, none), _ => some { s with lead := lead }
        | (lead, some _), .returns =>
            some { s with
              lead := lead.erase zxId
              issued := s.issued ++ [{ kind := .commit zxId }]
              locked := some (s.issued.length, zxId) }
        | (lead, some _), .throwsBefore => some { s with lead := lead }
        | (lead, some _), .throwsAfter =>
            some { s with
              lead := lead
              issued := s.issued ++ [{ kind := .commit zxId, dead := true }] }
  | .launch save =>
      match s.locked with
      | none => none
      | some (k, _) =>
          match s.issued[k]? with
          | none => none
          | some issue =>
              if issue.slot < n then none
              else if s.lead.uncommit = [] then some { s with locked := none }
              else
                let (lead, launch) := s.lead.launchNextDraft save
                some { s with
                  lead := lead, issued := s.issued ++ launched (some launch), locked := none }
  | .pass k =>
      match s.issued[k]? with
      | none => none
      | some issue =>
          if issue.dead = true ∨ n ≤ issue.slot then none else some (s.pass k issue)
  | .sync i =>
      if (s.synced i).isSome then none
      else some { s with synced := Function.update s.synced i (some s.issued.length) }
  | .startForwarding i =>
      if (s.synced i).isSome ∧ s.forwarding i = false then
        some { s with forwarding := Function.update s.forwarding i true }
      else none
  | .unregister i =>
      some { s with
        synced := Function.update s.synced i none
        forwarding := Function.update s.forwarding i false
        sent := Function.update s.sent i [] }

/-- A leader that has no draft and no follower yet. -/
def Fresh (s : Joins n) : Prop := ∃ lead : Lead n, s = { lead := lead }

/-- How often an issue is to have been sent to a follower whose copy covers the
first `p`. -/
def due (i : Fin n) (p k : Nat) (issue : Issue) : Nat :=
  if k < p then 0 else if i.val < issue.slot then 1 else 0

end Joins

/-- The interleavings of a leader's calls with the joining of followers. -/
def joins (n : Nat) : Transition.System (Joins n) (JoinAct n) :=
  Transition.ofStep Joins.Fresh Joins.step

/-- A follower in the forwarding table was sent what its copy does not cover,
once when its turn came, and nothing else.  Nothing later is kept from it. -/
def ExactlyOnce (s : Joins n) : Prop :=
  ∀ i p, s.synced i = some p → s.forwarding i = true →
    ∀ k issue, s.issued[k]? = some issue →
      (s.sent i).count k = Joins.due i p k issue ∧ (p ≤ k → issue.dead = false)

/-- Forwarding starts for a follower when everything its copy covers has passed
its slot, or will never be sent, and nothing later has. -/
def Joins.OnTime (s : Joins n) (i : Fin n) : Prop :=
  ∀ p ∈ s.synced i, ∀ k < s.issued.length, ∀ issue ∈ s.issued[k]?,
    if k < p then issue.dead = true ∨ i.val < issue.slot else issue.slot ≤ i.val

/-- A launch whose first draft cannot be saved does not go on to one that can:
its lock is gone by then, and the exception keeps the second from being sent. -/
def LaunchKeeps (save : Int64 → Bool) : List (Draft n) → Prop
  | d :: d' :: _ => save d.zxId = true ∨ save d'.zxId = false
  | _ => True

/-- Forwarding starts on time, and while a follower joins or is in the table no
exception keeps a proposal or a commit from being sent. -/
def Timely (s : Joins n) : JoinAct n → Prop
  | .startForwarding i => s.OnTime i
  | .launch save => (∀ i, s.synced i = none) ∨ LaunchKeeps save s.lead.uncommit
  | .ack _ _ commit => (∀ i, s.synced i = none) ∨ commit ≠ .throwsAfter
  | _ => True

instance (save : Int64 → Bool) : ∀ ds : List (Draft n), Decidable (LaunchKeeps save ds)
  | [] => inferInstanceAs (Decidable True)
  | [_] => inferInstanceAs (Decidable True)
  | _ :: _ :: _ => inferInstanceAs (Decidable (_ ∨ _))

instance (s : Joins n) (i : Fin n) : Decidable (s.OnTime i) :=
  inferInstanceAs (Decidable (∀ p ∈ _, ∀ k < _, ∀ issue ∈ _, ite _ _ _))

instance (s : Joins n) : ∀ a, Decidable (Timely s a)
  | .startForwarding i => inferInstanceAs (Decidable (s.OnTime i))
  | .launch _ => inferInstanceAs (Decidable ((∀ i, s.synced i = none) ∨ LaunchKeeps _ _))
  | .ack _ _ commit =>
      inferInstanceAs (Decidable ((∀ i, s.synced i = none) ∨ commit ≠ .throwsAfter))
  | .propose _ _ _ _ => inferInstanceAs (Decidable True)
  | .pass _ => inferInstanceAs (Decidable True)
  | .sync _ => inferInstanceAs (Decidable True)
  | .unregister _ => inferInstanceAs (Decidable True)

/-! ## The invariant -/

/-- What a `Timely` run keeps. -/
structure Joins.Inv (s : Joins n) : Prop where
  /-- Only a follower whose copy is made is forwarded to, and only it was sent anything. -/
  table : ∀ i, s.synced i = none → s.forwarding i = false
  quiet : ∀ i, s.forwarding i = false → s.sent i = []
  covered : ∀ i p, s.synced i = some p → p ≤ s.issued.length
  alive : ∀ i p, s.synced i = some p → ∀ k, ∀ issue ∈ s.issued[k]?, p ≤ k → issue.dead = false
  known : ∀ i, ∀ k ∈ s.sent i, k < s.issued.length
  passed : ∀ i p, s.synced i = some p → s.forwarding i = true →
    ∀ k, ∀ issue ∈ s.issued[k]?, k < p → issue.dead = true ∨ i.val < issue.slot
  counted : ∀ i p, s.synced i = some p → s.forwarding i = true →
    ∀ k, ∀ issue ∈ s.issued[k]?, (s.sent i).count k = Joins.due i p k issue

namespace Joins.Inv

variable {s : Joins n}

theorem of_fresh (h : s.Fresh) : s.Inv := by
  obtain ⟨lead, rfl⟩ := h
  refine ⟨fun _ _ => rfl, fun _ _ => rfl, ?_, ?_, ?_, ?_, ?_⟩ <;> simp

/-- Once forwarding starts, nothing is owed for what has not passed the slot. -/
theorem count_eq_zero (h : s.Inv) {i : Fin n} {k : Nat} (hk : s.issued.length ≤ k) :
    (s.sent i).count k = 0 :=
  List.count_eq_zero.mpr fun hmem => absurd (h.known i k hmem) (Nat.not_lt.mpr hk)

/-- New issues are not sent to anyone yet. -/
theorem extend (h : s.Inv) (lead : Lead n) (locked : Option (Nat × Int64)) (new : List Issue)
    (hslot : ∀ issue ∈ new, issue.slot = 0)
    (hdead : (∀ i, s.synced i = none) ∨ ∀ issue ∈ new, issue.dead = false) :
    Inv { s with lead := lead, locked := locked, issued := s.issued ++ new } where
  table := h.table
  quiet := h.quiet
  covered i p hp := by
    have := h.covered i p hp
    rw [List.length_append]
    omega
  alive i p hp k issue hk hpk := by
    rcases hdead with hnone | hdead
    · exact absurd hp (by simp [hnone i])
    · rw [Option.mem_def, List.getElem?_append] at hk
      split at hk
      next => exact h.alive i p hp k issue hk hpk
      next => exact hdead issue (List.mem_of_getElem? hk)
  known i k hk := by
    have := h.known i k hk
    rw [List.length_append]
    omega
  passed i p hp hf k issue hk hkp := by
    have hlt : k < s.issued.length := Nat.lt_of_lt_of_le hkp (h.covered i p hp)
    rw [Option.mem_def, List.getElem?_append_left hlt] at hk
    exact h.passed i p hp hf k issue hk hkp
  counted i p hp hf k issue hk := by
    rw [Option.mem_def, List.getElem?_append] at hk
    split at hk
    next => exact h.counted i p hp hf k issue hk
    next hge =>
      have hcov := h.covered i p hp
      rw [h.count_eq_zero (Nat.le_of_not_lt hge), Joins.due, if_neg (by omega),
        hslot issue (List.mem_of_getElem? hk), if_neg (Nat.not_lt_zero _)]

/-- An issue passes one more slot, and is sent if a follower is there. -/
theorem pass (h : s.Inv) {k : Nat} {issue : Issue} (hk : s.issued[k]? = some issue)
    (hlive : issue.dead = false) : (s.pass k issue).Inv := by
  have hlt : k < s.issued.length := (List.getElem?_eq_some_iff.mp hk).1
  have hset : ∀ j, ∀ x ∈ (s.issued.set k { issue with slot := issue.slot + 1 })[j]?,
      (j = k ∧ x = { issue with slot := issue.slot + 1 }) ∨ (j ≠ k ∧ x ∈ s.issued[j]?) := by
    intro j x hx
    by_cases hjk : j = k
    · subst hjk
      rw [Option.mem_def, List.getElem?_set_self hlt, Option.some.injEq] at hx
      exact .inl ⟨rfl, hx.symm⟩
    · rw [Option.mem_def, List.getElem?_set_ne (Ne.symm hjk)] at hx
      exact .inr ⟨hjk, hx⟩
  refine ⟨h.table, ?_, ?_, ?_, ?_, ?_, ?_⟩
  · intro i hf
    have hf' : s.forwarding i = false := hf
    simp [Joins.pass, hf', h.quiet i hf']
  · intro i p hp
    simpa [Joins.pass] using h.covered i p hp
  · intro i p hp j x hx hpj
    rcases hset j x hx with ⟨rfl, rfl⟩ | ⟨_, hx⟩
    · exact hlive
    · exact h.alive i p hp j x hx hpj
  · intro i j hj
    simp only [Joins.pass, List.length_set] at hj ⊢
    split at hj
    next =>
      rcases List.mem_append.mp hj with hj | hj
      · exact h.known i j hj
      · rw [List.mem_singleton] at hj
        exact hj ▸ hlt
    next => exact h.known i j hj
  · intro i p hp hf j x hx hjp
    rcases hset j x hx with ⟨rfl, rfl⟩ | ⟨_, hx⟩
    · rcases h.passed i p hp hf j issue hk hjp with hd | hs
      · exact .inl hd
      · exact .inr (Nat.lt_succ_of_lt hs)
    · exact h.passed i p hp hf j x hx hjp
  · intro i p hp hf j x hx
    have hf' : s.forwarding i = true := hf
    rcases hset j x hx with ⟨rfl, rfl⟩ | ⟨hne, hx⟩
    · have hold := h.counted i p hp hf j issue hk
      simp only [Joins.pass, hf', and_true]
      by_cases hi : i.val = issue.slot
      · -- its turn: what the copy covers passed this slot long ago
        have hpj : p ≤ j := by
          refine Nat.le_of_not_lt fun hjp => ?_
          rcases h.passed i p hp hf j issue hk hjp with hd | hs
          · exact absurd hd (by simp [hlive])
          · omega
        rw [Joins.due, if_neg (by omega), if_neg (by omega)] at hold
        rw [if_pos hi, List.count_append, hold, List.count_singleton_self, Joins.due,
          if_neg (by omega), if_pos (by simp only; omega)]
      · rw [if_neg hi, hold]
        have hslot : i.val < issue.slot + 1 ↔ i.val < issue.slot := by omega
        simp only [Joins.due, hslot]
    · have hold := h.counted i p hp hf j x hx
      simp only [Joins.pass]
      split
      next => rw [List.count_append, hold, List.count_singleton, if_neg (by simpa using hne.symm),
          Nat.add_zero]
      next => exact hold

/-- The copy of the log is made. -/
theorem sync (h : s.Inv) {i : Fin n} (hi : s.synced i = none) :
    Inv { s with synced := Function.update s.synced i (some s.issued.length) } := by
  have hcase : ∀ j p, Function.update s.synced i (some s.issued.length) j = some p →
      (j = i ∧ p = s.issued.length) ∨ s.synced j = some p := by
    intro j p hp
    by_cases hj : j = i
    · subst hj
      rw [Function.update_self, Option.some.injEq] at hp
      exact .inl ⟨rfl, hp.symm⟩
    · rw [Function.update_of_ne hj] at hp
      exact .inr hp
  have hoff : s.forwarding i = false := h.table i hi
  refine ⟨?_, h.quiet, ?_, ?_, h.known, ?_, ?_⟩
  · intro j hj
    by_cases hji : j = i
    · exact hji ▸ hoff
    · exact h.table j (by simpa [Function.update_of_ne hji] using hj)
  · intro j p hp
    rcases hcase j p hp with ⟨_, rfl⟩ | hp
    · exact Nat.le_refl _
    · exact h.covered j p hp
  · intro j p hp k issue hk hpk
    rcases hcase j p hp with ⟨_, rfl⟩ | hp
    · rw [Option.mem_def, List.getElem?_eq_none hpk] at hk
      cases hk
    · exact h.alive j p hp k issue hk hpk
  · intro j p hp hf
    rcases hcase j p hp with ⟨rfl, _⟩ | hp
    · exact absurd hf (by simp [hoff])
    · exact h.passed j p hp hf
  · intro j p hp hf
    rcases hcase j p hp with ⟨rfl, _⟩ | hp
    · exact absurd hf (by simp [hoff])
    · exact h.counted j p hp hf

/-- The follower is entered in the forwarding table, on time. -/
theorem startForwarding (h : s.Inv) {i : Fin n} (hoff : s.forwarding i = false)
    (hsync : (s.synced i).isSome) (hon : s.OnTime i) :
    Inv { s with forwarding := Function.update s.forwarding i true } := by
  have hcase : ∀ j, Function.update s.forwarding i true j = true →
      j = i ∨ s.forwarding j = true := by
    intro j hj
    by_cases hji : j = i
    · exact .inl hji
    · rw [Function.update_of_ne hji] at hj
      exact .inr hj
  refine ⟨?_, ?_, h.covered, h.alive, h.known, ?_, ?_⟩
  · intro j hj
    have hji : j ≠ i := by
      rintro rfl
      simp [show s.synced j = none from hj] at hsync
    change Function.update s.forwarding i true j = false
    rw [Function.update_of_ne hji]
    exact h.table j hj
  · intro j hj
    refine h.quiet j ?_
    by_cases hji : j = i
    · exact hji ▸ hoff
    · change Function.update s.forwarding i true j = false at hj
      rwa [Function.update_of_ne hji] at hj
  · intro j p hp hf k issue hk hkp
    rcases hcase j hf with rfl | hf
    · have := hon p hp k (List.getElem?_eq_some_iff.mp hk).1 issue hk
      rwa [if_pos hkp] at this
    · exact h.passed j p hp hf k issue hk hkp
  · intro j p hp hf k issue hk
    rcases hcase j hf with rfl | hf
    · have hslot := hon p hp k (List.getElem?_eq_some_iff.mp hk).1 issue hk
      change (s.sent j).count k = _
      rw [h.quiet j hoff, List.count_nil, Joins.due]
      split at hslot
      next hkp => rw [if_pos hkp]
      next hkp => rw [if_neg hkp, if_neg (Nat.not_lt.mpr hslot)]
    · exact h.counted j p hp hf k issue hk

/-- A follower leaves. -/
theorem unregister (h : s.Inv) (i : Fin n) :
    Inv { s with
      synced := Function.update s.synced i none
      forwarding := Function.update s.forwarding i false
      sent := Function.update s.sent i [] } := by
  have hcase : ∀ j p, Function.update s.synced i none j = some p → j ≠ i ∧ s.synced j = some p := by
    intro j p hp
    by_cases hji : j = i
    · subst hji
      rw [Function.update_self] at hp
      cases hp
    · rw [Function.update_of_ne hji] at hp
      exact ⟨hji, hp⟩
  refine ⟨?_, ?_, ?_, ?_, ?_, ?_, ?_⟩
  · intro j hj
    change Function.update s.forwarding i false j = false
    by_cases hji : j = i
    · rw [hji, Function.update_self]
    · rw [Function.update_of_ne hji]
      exact h.table j (by simpa [Function.update_of_ne hji] using hj)
  · intro j hj
    change Function.update s.sent i [] j = []
    by_cases hji : j = i
    · rw [hji, Function.update_self]
    · rw [Function.update_of_ne hji]
      exact h.quiet j (by simpa [Function.update_of_ne hji] using hj)
  · intro j p hp
    exact h.covered j p (hcase j p hp).2
  · intro j p hp
    exact h.alive j p (hcase j p hp).2
  · intro j k hk
    change k ∈ Function.update s.sent i [] j at hk
    by_cases hji : j = i
    · rw [hji, Function.update_self] at hk
      cases hk
    · rw [Function.update_of_ne hji] at hk
      exact h.known j k hk
  · intro j p hp hf
    obtain ⟨hji, hp⟩ := hcase j p hp
    exact h.passed j p hp (by simpa [Function.update_of_ne hji] using hf)
  · intro j p hp hf k issue hk
    obtain ⟨hji, hp⟩ := hcase j p hp
    change (Function.update s.sent i [] j).count k = _
    rw [Function.update_of_ne hji]
    exact h.counted j p hp (by simpa [Function.update_of_ne hji] using hf) k issue hk

end Joins.Inv

/-! ## Launches -/

/-- What a launch issues starts at the first slot. -/
theorem Joins.launched_slot (launch : Option (Launch n)) :
    ∀ issue ∈ Joins.launched launch, issue.slot = 0 := by
  intro issue hmem
  unfold Joins.launched at hmem
  cases launch with
  | none => cases hmem
  | some launch =>
      cases hs : launch.saved with
      | none => simp [hs] at hmem
      | some d =>
          simp only [hs, Option.map_some, Option.toList_some, List.mem_singleton] at hmem
          rw [hmem]

/-- A launch that keeps its lock sends what it saves. -/
theorem launchLoop_keeps {save : Int64 → Bool} {ds : List (Draft n)} (h : LaunchKeeps save ds) :
    ∀ issue ∈ Joins.launched (some (launchLoop save true ds)), issue.dead = false := by
  intro issue hmem
  match ds, h with
  | [], _ => simp [Joins.launched, launchLoop] at hmem
  | [d], _ =>
      by_cases hd : save d.zxId = true <;>
        simp [Joins.launched, launchLoop, hd] at hmem
      rw [hmem]
  | d :: d' :: ds, h =>
      by_cases hd : save d.zxId = true
      · simp [Joins.launched, launchLoop, hd] at hmem
        rw [hmem]
      · have hd' : save d'.zxId = false := h.resolve_left hd
        simp [Joins.launched, launchLoop, hd, hd'] at hmem

/-- A proposal launches only when its draft is alone in the queue. -/
theorem propose_keeps (l : Lead n) (id : Fin n) (requestId : Int64) (data : Bytes)
    (save : Int64 → Bool) :
    ∀ issue ∈ Joins.launched (l.propose id requestId data save).2, issue.dead = false := by
  intro issue hmem
  rw [Lead.propose] at hmem
  dsimp only at hmem
  split at hmem
  next hone =>
    obtain ⟨d, hd⟩ := List.length_eq_one_iff.mp hone
    simp only [Lead.launchNextDraft, hd] at hmem
    exact launchLoop_keeps (by trivial) issue hmem
  next => cases hmem

/-! ## Runs -/

/-- A timely step keeps the invariant. -/
theorem Joins.Inv.step {s s' : Joins n} {a : JoinAct n} (h : s.Inv) (ha : Timely s a)
    (hs : s.step a = some s') : s'.Inv := by
  cases a with
  | propose id requestId data save =>
      simp only [Joins.step] at hs
      split at hs
      next => cases hs
      next =>
        cases hs
        exact h.extend _ _ _ (launched_slot _) (.inr (propose_keeps _ _ _ _ _))
  | ack id zxId commit =>
      simp only [Joins.step] at hs
      split at hs
      next => cases hs
      next =>
        rcases hv : s.lead.vote id zxId with ⟨lead, draft⟩
        rw [hv] at hs
        cases draft with
        | none =>
            cases hs
            simpa using h.extend lead s.locked [] (by simp) (by simp)
        | some d =>
            cases commit with
            | returns =>
                cases hs
                exact h.extend _ _ _ (by simp) (.inr (by simp))
            | throwsBefore =>
                cases hs
                simpa using h.extend lead s.locked [] (by simp) (by simp)
            | throwsAfter =>
                cases hs
                refine h.extend _ _ _ (by simp) ?_
                rcases ha with hnone | hne
                · exact .inl hnone
                · exact absurd rfl hne
  | launch save =>
      simp only [Joins.step] at hs
      split at hs
      next => cases hs
      next =>
        split at hs
        next => cases hs
        next =>
          split at hs
          next => cases hs
          next =>
            split at hs
            next =>
              cases hs
              simpa using h.extend s.lead none [] (by simp) (by simp)
            next =>
              cases hs
              refine h.extend _ _ _ (launched_slot _) ?_
              rcases ha with hnone | hkeeps
              · exact .inl hnone
              · exact .inr (launchLoop_keeps hkeeps)
  | pass k =>
      simp only [Joins.step] at hs
      split at hs
      next => cases hs
      next issue hk =>
        split at hs
        next => cases hs
        next hlive =>
          cases hs
          exact h.pass hk (by simpa using (not_or.mp hlive).1)
  | sync i =>
      simp only [Joins.step] at hs
      split at hs
      next => cases hs
      next hi =>
        cases hs
        exact h.sync (by simpa using hi)
  | startForwarding i =>
      simp only [Joins.step] at hs
      split at hs
      next hi =>
        cases hs
        exact h.startForwarding hi.2 hi.1 ha
      next => cases hs
  | unregister i =>
      cases hs
      exact h.unregister i

/-- In every run in which forwarding starts on time, a follower that joins gets
every later proposal and commit exactly once. -/
theorem exactly_once {s : Joins n} (h : (joins n).Run Timely s) : ExactlyOnce s := by
  have hinv : s.Inv := Transition.System.Run.invariant (I := Joins.Inv)
    (fun _ hf => Joins.Inv.of_fresh hf) (fun _ _ _ hi ha hs => hi.step ha hs) h
  intro i p hp hf k issue hk
  exact ⟨hinv.counted i p hp hf k issue hk, hinv.alive i p hp k issue hk⟩

/-- What the followers were sent, for a look at a state. -/
def Joins.view (s : Joins n) (i : Fin n) : Option Nat × Bool × List Nat × List Nat :=
  (s.synced i, s.forwarding i, s.sent i, s.issued.map Issue.slot)

/-- The follower in slot 1 copies the log, leader 0 proposes and sends, and only
then is the follower entered in the forwarding table. -/
def lateForwarding [NeZero n] : List (JoinAct n) :=
  [.sync 1, .propose 0 1 [7] fun _ => true, .pass 0, .pass 0, .pass 0, .startForwarding 1]

/-- The follower in slot 1 is entered in the table before the proposal passes. -/
def timelyForwarding [NeZero n] : List (JoinAct n) :=
  [.sync 1, .propose 0 1 [7] fun _ => true, .pass 0, .startForwarding 1, .pass 0, .pass 0]

/-- A proposal sent between the copy and the forwarding never reaches the follower. -/
theorem missed_proposal : ¬ ∀ s, (joins 3).Reachable s → ExactlyOnce s := by
  intro h
  have hrun : (Transition.exec Joins.step { lead := { id := (0 : Fin 3), peerEpoch := 1 } }
      lateForwarding).map (fun s => s.view 1) = some (some 0, true, [], [3]) := by
    decide +kernel
  obtain ⟨s, hs, hview⟩ := Option.map_eq_some_iff.mp hrun
  simp only [Joins.view, Prod.mk.injEq] at hview
  obtain ⟨hsynced, hforw, hsent, hslot⟩ := hview
  obtain ⟨issue, hissue, hthree⟩ : ∃ issue, s.issued[0]? = some issue ∧ issue.slot = 3 := by
    have := congrArg (·[0]?) hslot
    simpa using this
  have honce := (h s (Transition.exec_reachable ⟨_, rfl⟩ hs) 1 0 hsynced hforw 0 issue hissue).1
  rw [hsent, Joins.due, hthree] at honce
  exact absurd honce (by decide)

/-- A proposal whose sending forwarding overtakes reaches the follower once. -/
theorem exactly_once_timely :
    ∃ s, Transition.exec Joins.step { lead := { id := (0 : Fin 3), peerEpoch := 1 } }
        timelyForwarding =
      some s ∧ s.view 1 = (some 0, true, [0], [3]) ∧ ExactlyOnce s := by
  have hrun : (Transition.exec Joins.step { lead := { id := (0 : Fin 3), peerEpoch := 1 } }
      timelyForwarding).map (fun s => s.view 1) = some (some 0, true, [0], [3]) := by
    decide +kernel
  obtain ⟨s, hs, hview⟩ := Option.map_eq_some_iff.mp hrun
  have hguard : Transition.Guarded Joins.step Timely
      { lead := { id := (0 : Fin 3), peerEpoch := 1 } } timelyForwarding := by
    decide +kernel
  exact ⟨s, hs, hview, exactly_once (Transition.exec_run (.start ⟨_, rfl⟩) hguard hs)⟩

end Paxos
