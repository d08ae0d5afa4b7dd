import Zookeeper.Paxos.Requests

/-!
# Coroutines that nobody resumes

A call of `DoTransaction` sleeps in `hn_block`, and is resumed through the callback that
its executor keeps for it: behind a commit, by a failure, or by `ClearRequest`.  A call
that is taken off the callbacks is an *orphan* if it is not resumed then.  The handler of
a follower runs the same `Lead::Propose`, which stops it as well, without a callback
(`paxos/paxos/lead.cpp`, `paxos/paxos/service.h`).

`no_orphans` says that there are no orphans, and no handler is stopped, in the runs in
which no request of a follower gets to `hn_block` and the code gets to `hn_resume` for
every call that it takes for a commit.
-/

namespace Paxos

variable {n : Nat}

namespace Requests

/-- A call is among the callbacks of the executor that it sleeps in, and the term of the
executor goes on. -/
def Registered (s : Requests n) (k : Nat) : Prop :=
  ∃ e requestId, (requestId, k) ∈ (s.services e).callbacks ∧ s.asked e requestId = some k ∧
    ∃ id, s.running id = some e

/-- A call sleeps, and is not registered. -/
def Orphan (s : Requests n) (k : Nat) : Prop :=
  (∃ call, s.calls k = some call ∧ call.state = .suspended) ∧ ¬ s.Registered k

/-- The handler of a session sleeps. -/
def Blocked (s : Requests n) (c : Nat) : Prop :=
  ∃ x, s.follows c = some x ∧ x.handler = .blocked

end Requests

/-- Nobody sleeps but the calls that are registered. -/
structure NoOrphans (s : Requests n) : Prop where
  calls : ∀ k, ¬ s.Orphan k
  handlers : ∀ c, ¬ s.Blocked c

/-! ## The condition -/

/-- The request is not queued behind another draft, and its draft cannot be saved. -/
def RequestFails (l : Lead n) (save : Int64 → Bool) : Prop :=
  (∀ d ∈ l.uncommit, d.zxId = zxIdOf l.peerEpoch l.nextId) ∧ l.uncommit.length ≤ 1 ∧
    save (zxIdOf l.peerEpoch l.nextId) = false

/-- An acknowledgement that takes a call commits the last draft, and the commit returns. -/
def AckResumes (l : Lead n) (service : Service) (id : Fin n) (zxId : Int64)
    (commit : CommitEnd) : Prop :=
  ∀ d ∈ l.uncommit.head?, d.zxId = zxId → n / 2 + 1 ≤ (insert id d.vote).card → d.id = l.id →
    (service.popRequest d.requestId).2 ≠ none →
      commit = .returns ∧ ∀ x ∈ l.uncommit, x.zxId = zxId

/-- What the handler reads is a request that fails, or an acknowledgement that resumes the
call it takes. -/
def ReplyResumes (l : Lead n) (service : Service) (id : Fin n) (save : Int64 → Bool)
    (commit : CommitEnd) : Option Reply → Prop
  | some (.request _ _) => RequestFails l save
  | some (.ackPropose zxId) => AckResumes l service id zxId commit
  | none => True

/-- A commit that the follow reads returns if it takes a call. -/
def NoticeResumes (x : Follower n) (service : Service) (commit : CommitEnd) :
    Option (Notice n) → Prop
  | some (.commit _ fromId requestId) =>
      x.stage = .active → fromId = x.id → (service.popRequest requestId).2 ≠ none →
        commit = .returns
  | _ => True

/-- What is read resumes what it takes; and a new request id is not in use. -/
def Resumes (s : Requests n) : RequestAct n → Prop
  | .call _ id _ _ => ∀ e ∈ s.executor id, ∀ p ∈ (s.services e).callbacks,
      p.1 ≠ (s.services e).nextRequestId
  | .reply c save commit => ∀ x ∈ s.follows c, ∀ l ∈ s.leads x.lead,
      ReplyResumes l.lead (s.services (.lead x.lead)) x.id save commit x.up.head?
  | .notice c _ commit => ∀ x ∈ s.follows c,
      NoticeResumes x (s.services (.follow c)) commit x.down.head?
  | _ => True

instance (l : Lead n) (save : Int64 → Bool) : Decidable (RequestFails l save) :=
  inferInstanceAs (Decidable (_ ∧ _ ∧ _))

instance (l : Lead n) (service : Service) (id : Fin n) (zxId : Int64) (commit : CommitEnd) :
    Decidable (AckResumes l service id zxId commit) :=
  inferInstanceAs (Decidable (∀ d ∈ l.uncommit.head?, _))

instance (l : Lead n) (service : Service) (id : Fin n) (save : Int64 → Bool)
    (commit : CommitEnd) : ∀ reply, Decidable (ReplyResumes l service id save commit reply)
  | some (.request _ _) => inferInstanceAs (Decidable (RequestFails l save))
  | some (.ackPropose zxId) => inferInstanceAs (Decidable (AckResumes l service id zxId commit))
  | none => inferInstanceAs (Decidable True)

instance (x : Follower n) (service : Service) (commit : CommitEnd) :
    ∀ notice, Decidable (NoticeResumes x service commit notice)
  | some (.commit _ _ _) => inferInstanceAs (Decidable (_ → _))
  | some (.propose _) => inferInstanceAs (Decidable True)
  | some (.requestFail _) => inferInstanceAs (Decidable True)
  | some .updated => inferInstanceAs (Decidable True)
  | none => inferInstanceAs (Decidable True)

instance (s : Requests n) : ∀ a, Decidable (Resumes s a)
  | .call _ id _ _ => inferInstanceAs (Decidable (∀ e ∈ s.executor id, _))
  | .reply c _ _ => inferInstanceAs (Decidable (∀ x ∈ s.follows c, ∀ l ∈ s.leads x.lead, _))
  | .notice c _ _ => inferInstanceAs (Decidable (∀ x ∈ s.follows c, _))
  | .lead _ _ _ => inferInstanceAs (Decidable True)
  | .activate _ => inferInstanceAs (Decidable True)
  | .deactivate _ => inferInstanceAs (Decidable True)
  | .stepDown _ => inferInstanceAs (Decidable True)
  | .follow _ _ _ => inferInstanceAs (Decidable True)
  | .register _ => inferInstanceAs (Decidable True)
  | .startForwarding _ => inferInstanceAs (Decidable True)
  | .updated _ => inferInstanceAs (Decidable True)
  | .close _ => inferInstanceAs (Decidable True)
  | .leave _ => inferInstanceAs (Decidable True)

/-! ## What a change leaves behind -/

namespace Requests

/-- Each executor has one callback for each request id. -/
def UniqueIds (s : Requests n) : Prop :=
  ∀ e, ((s.services e).callbacks.map Prod.fst).Nodup

/-- From `s` to `s'`, only the calls in `lost` become orphans, and no handler is stopped. -/
structure Leaves (s s' : Requests n) (lost : Nat → Prop) : Prop where
  unique : s.UniqueIds → s'.UniqueIds
  orphan : s.UniqueIds → ∀ k, s'.Orphan k → s.Orphan k ∨ lost k
  blocked : ∀ c, s'.Blocked c → s.Blocked c

variable {s s' s'' : Requests n} {lost lost' : Nat → Prop}

theorem Leaves.refl : Leaves s s fun _ => False :=
  ⟨id, fun _ _ => .inl, fun _ => id⟩

theorem Leaves.trans (h : Leaves s s' lost) (h' : Leaves s' s'' lost) : Leaves s s'' lost where
  unique := fun hunique => h'.unique (h.unique hunique)
  orphan := by
    intro hunique k hk
    rcases h'.orphan (h.unique hunique) k hk with hk | hk
    · exact h.orphan hunique k hk
    · exact .inr hk
  blocked := fun c hc => h.blocked c (h'.blocked c hc)

theorem Leaves.mono (h : Leaves s s' lost) (himp : ∀ k, lost k → lost' k) : Leaves s s' lost' :=
  ⟨h.unique, fun hunique k hk => (h.orphan hunique k hk).imp_right (himp k), h.blocked⟩

/-- A change that leaves calls, callbacks and terms alone. -/
theorem Leaves.of_same (hcalls : s'.calls = s.calls) (hservices : s'.services = s.services)
    (hasked : s'.asked = s.asked) (hrunning : s'.running = s.running)
    (hblocked : ∀ c, s'.Blocked c → s.Blocked c) : Leaves s s' lost where
  unique := by
    rw [UniqueIds, UniqueIds, hservices]
    exact id
  orphan := by
    intro _ k hk
    rw [Orphan, Registered, hcalls, hservices, hasked, hrunning] at hk
    exact .inl hk
  blocked := hblocked

theorem leaves_setLeader (s : Requests n) (i : Nat) (l : Leader n) :
    Leaves s (s.setLeader i l) lost := .of_same rfl rfl rfl rfl fun _ => id

/-- A session changes, and its handler goes on if it went on. -/
theorem leaves_setFollower (s : Requests n) (c : Nat) {x : Follower n}
    (hx : x.handler = .blocked → s.Blocked c) : Leaves s (s.setFollower c x) lost := by
  refine .of_same rfl rfl rfl rfl ?_
  rintro c' ⟨y, hy, hblocked⟩
  change Function.update s.follows c (some x) c' = some y at hy
  rcases Decidable.em (c' = c) with rfl | hne
  · rw [Function.update_self, Option.some.injEq] at hy
    exact hx (hy ▸ hblocked)
  · rw [Function.update_of_ne hne] at hy
    exact ⟨y, hy, hblocked⟩

theorem leaves_mapFollower (s : Requests n) (c : Nat) {f : Follower n → Follower n}
    (hf : ∀ x, (f x).handler = .blocked → x.handler = .blocked) :
    Leaves s (s.mapFollower c f) lost := by
  refine .of_same rfl rfl rfl rfl ?_
  rintro c' ⟨y, hy, hblocked⟩
  change Function.update s.follows c ((s.follows c).map f) c' = some y at hy
  rcases Decidable.em (c' = c) with rfl | hne
  · rw [Function.update_self] at hy
    obtain ⟨x, hx, rfl⟩ := Option.map_eq_some_iff.mp hy
    exact ⟨x, hx, hf x hblocked⟩
  · rw [Function.update_of_ne hne] at hy
    exact ⟨y, hy, hblocked⟩

theorem leaves_sendTo (s : Requests n) (fd : Option Nat) (notice : Notice n) :
    Leaves s (s.sendTo fd notice) lost := by
  cases fd with
  | none => exact .of_same rfl rfl rfl rfl fun _ => id
  | some c => exact leaves_mapFollower s c fun _ => id

theorem leaves_broadcast (s : Requests n) (l : Leader n) (notice : Notice n) :
    Leaves s (s.broadcast l notice) lost := by
  refine .of_same rfl rfl rfl rfl ?_
  rintro c ⟨y, hy, hblocked⟩
  obtain ⟨x, hx, rfl⟩ := Option.map_eq_some_iff.mp hy
  refine ⟨x, hx, ?_⟩
  split at hblocked
  next => exact hblocked
  next => exact hblocked

theorem leaves_closeHandler (s : Requests n) (c : Nat) : Leaves s (s.closeHandler c) lost := by
  rw [closeHandler]
  split
  next => exact .of_same rfl rfl rfl rfl fun _ => id
  next x _ =>
    split
    next => exact .of_same rfl rfl rfl rfl fun _ => id
    next l _ =>
      exact (leaves_setLeader s x.lead _).trans (leaves_setFollower _ c fun h => by cases h)

/-! ## Calls -/

/-- A call that goes on is no orphan. -/
theorem Leaves.resume (h : Leaves s s' lost) (k : Nat) {f : Call n → Call n}
    (hf : ∀ call, (f call).state ≠ .suspended) (hlost : ∀ k', lost k' → k' = k) :
    Leaves s (s'.mapCall k f) lost' := by
  refine ⟨h.unique, ?_, h.blocked⟩
  rintro hunique k' ⟨⟨call, hcall, hstate⟩, hreg⟩
  change Function.update s'.calls k ((s'.calls k).map f) k' = some call at hcall
  rcases Decidable.em (k' = k) with rfl | hne
  · rw [Function.update_self] at hcall
    obtain ⟨call, -, rfl⟩ := Option.map_eq_some_iff.mp hcall
    exact absurd hstate (hf call)
  · rw [Function.update_of_ne hne] at hcall
    rcases h.orphan hunique k' ⟨⟨call, hcall, hstate⟩, hreg⟩ with hk | hk
    · exact .inl hk
    · exact absurd (hlost k' hk) hne

/-- The flag of a call is cleared. -/
theorem leaves_fail (s : Requests n) (k : Nat) : Leaves s (s.mapCall k Call.fail) lost := by
  refine ⟨id, ?_, fun _ => id⟩
  rintro - k' ⟨⟨call, hcall, hstate⟩, hreg⟩
  refine .inl ⟨?_, hreg⟩
  change Function.update s.calls k ((s.calls k).map Call.fail) k' = some call at hcall
  rcases Decidable.em (k' = k) with rfl | hne
  · rw [Function.update_self] at hcall
    obtain ⟨call, hold, rfl⟩ := Option.map_eq_some_iff.mp hcall
    exact ⟨call, hold, hstate⟩
  · rw [Function.update_of_ne hne] at hcall
    exact ⟨call, hcall, hstate⟩

theorem finish_resumes (call : Call n) : call.finish.state ≠ .suspended := by
  rw [Call.finish]
  dsimp only
  split
  next => decide
  next => decide

theorem fail_finish_resumes (call : Call n) : call.fail.finish.state ≠ .suspended :=
  finish_resumes call.fail

/-- An executor is switched on or off. -/
theorem leaves_setActive (s : Requests n) (e : Executor) (active : Bool) :
    Leaves s (s.setService e { s.services e with active := active }) lost := by
  have hcallbacks : ∀ e', ((s.setService e { s.services e with active := active }).services
      e').callbacks = (s.services e').callbacks := by
    intro e'
    rcases Decidable.em (e' = e) with rfl | he
    · simp [setService]
    · simp [setService, he]
  refine ⟨fun hunique e' => ?_, fun _ k hk => .inl ⟨hk.1, fun hreg => hk.2 ?_⟩, fun _ hc => hc⟩
  · rw [hcallbacks]
    exact hunique e'
  · obtain ⟨e', requestId, hmem, hrest⟩ := hreg
    exact ⟨e', requestId, (hcallbacks e').symm ▸ hmem, hrest⟩

/-- A callback that is found is the only one under its id. -/
theorem popRequest_unique {service : Service} (hunique : (service.callbacks.map Prod.fst).Nodup)
    {requestId : Int64} {k : Nat} (hmem : (requestId, k) ∈ service.callbacks) :
    (service.popRequest requestId).2 = some k := by
  have hsome : (service.callbacks.find? fun p => p.1 = requestId).isSome = true :=
    List.find?_isSome.mpr ⟨_, hmem, by simp⟩
  obtain ⟨p, hp⟩ := Option.isSome_iff_exists.mp hsome
  have hid : p.1 = requestId := by simpa using List.find?_some hp
  have hsame : p = (requestId, k) :=
    List.inj_on_of_nodup_map hunique (List.mem_of_find?_eq_some hp) hmem hid
  rw [Service.popRequest, hp, hsame]
  rfl

/-- A callback that is taken leaves its call an orphan. -/
theorem leaves_pop (s : Requests n) (e : Executor) (requestId : Int64) :
    Leaves s (s.setService e ((s.services e).popRequest requestId).1)
      fun k => ((s.services e).popRequest requestId).2 = some k := by
  have hservices : ∀ e', (s.setService e ((s.services e).popRequest requestId).1).services e' =
      if e' = e then ((s.services e).popRequest requestId).1 else s.services e' :=
    fun e' => Function.update_apply _ _ _ _
  refine ⟨fun hunique e' => ?_, fun hunique k hk => ?_, fun c => id⟩
  · rw [hservices]
    split
    next => exact (hunique e).sublist (List.filter_sublist.map _)
    next => exact hunique e'
  · rcases Decidable.em (((s.services e).popRequest requestId).2 = some k) with hpop | hkeep
    · exact .inr hpop
    · refine .inl ⟨hk.1, fun hreg => hk.2 ?_⟩
      obtain ⟨e', requestId', hmem, hasked, hrunning⟩ := hreg
      refine ⟨e', requestId', ?_, hasked, hrunning⟩
      rw [hservices]
      split
      next he =>
        subst he
        refine List.mem_filter.mpr ⟨hmem, ?_⟩
        rw [decide_eq_true_eq]
        rintro rfl
        exact hkeep (popRequest_unique (hunique e') hmem)
      next => exact hmem

/-- A failure resumes the call it takes, but for the one that runs. -/
theorem leaves_takeFailed (s : Requests n) (e : Executor) (requestId : Int64)
    (current : Option Nat) :
    Leaves s (s.takeFailed e requestId current) fun k => current = some k := by
  have hpop := leaves_pop s e requestId
  rw [takeFailed]
  dsimp only
  cases hcall : ((s.services e).popRequest requestId).2 with
  | none =>
      rw [hcall] at hpop
      exact hpop.mono fun k hk => by cases hk
  | some k =>
      rw [hcall] at hpop
      dsimp only
      rcases Decidable.em (current = some k) with hcurrent | hother
      · simp only [if_pos hcurrent]
        refine (hpop.mono fun k' hk' => ?_).trans (leaves_fail _ k)
        exact hcurrent.trans hk'
      · simp only [if_neg hother]
        refine hpop.resume k fail_finish_resumes fun k' hk' => ?_
        exact (Option.some.inj hk').symm

/-! ## Drafts -/

theorem leaves_answers (i : Nat) (l : Leader n) (current : Option Nat)
    (failed : List (Draft n)) (s : Requests n) :
    Leaves s (failed.foldl (answerFailed i l current) s) fun k => current = some k := by
  induction failed generalizing s with
  | nil => exact Leaves.refl.mono fun _ => False.elim
  | cons d ds ih =>
      have hanswer : Leaves s (answerFailed i l current s d) fun k => current = some k := by
        rw [answerFailed]
        split
        next => exact leaves_sendTo s _ _
        next => exact leaves_takeFailed s _ _ current
      exact hanswer.trans (ih _)

/-- A launch resumes all calls that it answers, but for the one that runs. -/
theorem leaves_launched (s : Requests n) (i : Nat) (l : Leader n) (launch : Launch n)
    (current : Option Nat) :
    Leaves s (s.launched i l launch current) fun k => current = some k := by
  have hanswers := leaves_answers i l current launch.failed s
  rw [launched]
  split
  next =>
    split
    next => exact hanswers
    next => exact hanswers.trans (leaves_broadcast _ l _)
  next => exact hanswers

/-- A launch without a failure answers nobody. -/
theorem leaves_launched_ok (s : Requests n) (i : Nat) (l : Leader n) {launch : Launch n}
    (hfailed : launch.failed = []) (current : Option Nat) :
    Leaves s (s.launched i l launch current) fun _ => False := by
  rw [launched, hfailed]
  split
  next =>
    split
    next => exact .refl
    next => exact leaves_broadcast s l _
  next => exact .refl

theorem launchLoop_ok_failed (save : Int64 → Bool) (ds : List (Draft n))
    (hok : (launchLoop save true ds).ok = true) : (launchLoop save true ds).failed = [] := by
  cases ds with
  | nil => rfl
  | cons d ds =>
      rw [launchLoop] at hok ⊢
      split at hok
      next hsave => rw [if_pos hsave]
      next => cases hok

theorem leaves_propose (s : Requests n) (i : Nat) (l : Leader n) (id : Fin n) (e : Executor)
    (requestId : Int64) (data : Bytes) (save : Int64 → Bool) (current : Option Nat) :
    Leaves s (s.propose i l id e requestId data save current).1 fun k => current = some k := by
  rw [propose]
  dsimp only
  split
  next => exact .of_same rfl rfl rfl rfl fun _ hc => hc
  next launch _ =>
    refine Leaves.trans ?_ (leaves_launched _ i l launch current)
    exact .of_same rfl rfl rfl rfl fun _ hc => hc

/-- A proposal that blocks has taken no call. -/
theorem leaves_propose_blocks (s : Requests n) (i : Nat) (l : Leader n) (id : Fin n)
    (e : Executor) (requestId : Int64) (data : Bytes) (save : Int64 → Bool)
    (current : Option Nat)
    (hblocks : (s.propose i l id e requestId data save current).2 = true) :
    Leaves s (s.propose i l id e requestId data save current).1 fun _ => False := by
  rw [propose] at hblocks ⊢
  dsimp only at hblocks ⊢
  cases hlaunch : (l.lead.propose id requestId data save).2 with
  | none => exact .of_same rfl rfl rfl rfl fun _ hc => hc
  | some launch =>
      rw [hlaunch] at hblocks
      have hfailed : launch.failed = [] := by
        rw [Lead.propose] at hlaunch
        dsimp only at hlaunch
        split at hlaunch
        next =>
          cases hlaunch
          exact launchLoop_ok_failed save _ hblocks
        next => cases hlaunch
      refine Leaves.trans ?_ (leaves_launched_ok _ i l hfailed current)
      exact .of_same rfl rfl rfl rfl fun _ hc => hc

/-- A request that fails does not block. -/
theorem propose_fails (s : Requests n) (i : Nat) {l : Leader n} {save : Int64 → Bool}
    (hfails : RequestFails l.lead save) (id : Fin n) (e : Executor) (requestId : Int64)
    (data : Bytes) (current : Option Nat) :
    (s.propose i l id e requestId data save current).2 = false := by
  obtain ⟨hids, hfew, hsave⟩ := hfails
  have hone : (l.lead.enqueue id requestId data).uncommit.length = 1 :=
    (insertDraft_length_one _ _).mpr ⟨hids, hfew⟩
  obtain ⟨d, hd, hid⟩ := l.lead.enqueue_single hone
  have hlaunch : (l.lead.propose id requestId data save).2 =
      some (launchLoop save true [d]) := by
    rw [Lead.propose]
    dsimp only
    rw [if_pos hone, Lead.launchNextDraft, hd]
  rw [propose]
  dsimp only
  rw [hlaunch]
  dsimp only
  rw [launchLoop, hid, hsave]
  rfl

/-! ## Commits -/

theorem leaves_takeCommitted (s : Requests n) (e : Executor) (i : Nat) (zxId requestId : Int64) :
    Leaves s (s.takeCommitted e i zxId requestId).1
      fun k => (s.takeCommitted e i zxId requestId).2 = some k := by
  have hpop := leaves_pop s e requestId
  rw [takeCommitted]
  dsimp only
  cases hcall : ((s.services e).popRequest requestId).2 with
  | none =>
      rw [hcall] at hpop
      exact hpop
  | some k =>
      rw [hcall] at hpop
      exact hpop.trans (.of_same rfl rfl rfl rfl fun _ hc => hc)

theorem takeCommitted_call (s : Requests n) (e : Executor) (i : Nat) (zxId requestId : Int64) :
    (s.takeCommitted e i zxId requestId).2 = ((s.services e).popRequest requestId).2 := by
  rw [takeCommitted]
  dsimp only
  split
  next h => exact h.symm
  next h => exact h.symm

/-- A call that is taken belongs to a draft of the own server. -/
theorem takeOwn_call (s : Requests n) (i : Nat) (l : Leader n) (d : Draft n)
    (h : (s.takeOwn i l d).2 ≠ none) :
    d.id = l.lead.id ∧ ((s.services (.lead i)).popRequest d.requestId).2 ≠ none := by
  rw [takeOwn] at h
  split at h
  next hown =>
    rw [takeCommitted_call] at h
    exact ⟨hown, h⟩
  next => exact absurd rfl h

theorem leaves_takeOwn (s : Requests n) (i : Nat) (l : Leader n) (d : Draft n) :
    Leaves s (s.takeOwn i l d).1 fun k => (s.takeOwn i l d).2 = some k := by
  rw [takeOwn]
  split
  next => exact leaves_takeCommitted s _ i _ _
  next => exact Leaves.refl.mono fun _ => False.elim

/-- Behind a commit, the call that was taken goes on, if no other draft waits. -/
theorem leaves_committed {call : Option Nat} (h : Leaves s s' fun k => call = some k) (i : Nat)
    (l : Leader n) (c : Nat) (id : Fin n) (d : Draft n) (save : Int64 → Bool)
    (hlast : call ≠ none → ∀ x ∈ l.lead.uncommit, x.zxId = d.zxId) :
    Leaves s (s'.committed i l c id d call save) fun _ => False := by
  have hset : Leaves s ((({ s' with commits := (i, d.zxId) :: s'.commits } : Requests n).broadcast l
      (.commit d.zxId d.id d.requestId)).setLeader i
        { l with lead := (l.lead.afterCommit d.zxId save).1 }) fun k => call = some k := by
    refine (h.trans ?_).trans (leaves_setLeader _ i _)
    refine Leaves.trans ?_ (leaves_broadcast _ l _)
    exact .of_same rfl rfl rfl rfl fun _ hc => hc
  rw [committed]
  dsimp only
  cases hlaunch : (l.lead.afterCommit d.zxId save).2 with
  | some launch =>
      -- another draft waits, so no call was taken
      have hnone : call = none := by
        by_contra hcall
        have hempty : (l.lead.erase d.zxId).uncommit = [] := by
          simpa [Lead.erase, List.filter_eq_nil_iff] using hlast hcall
        rw [Lead.afterCommit, if_pos hempty] at hlaunch
        cases hlaunch
      subst hnone
      refine Leaves.mono ?_ fun k hk => absurd hk (Option.some_ne_none k).symm
      exact (hset.trans (leaves_launched _ i _ launch none)).trans (leaves_closeHandler _ c)
  | none =>
      cases call with
      | some k => exact hset.resume k finish_resumes fun k' hk' => (Option.some.inj hk').symm
      | none =>
          refine (hset.trans (leaves_sendTo _ _ _)).mono fun k hk => ?_
          exact absurd hk (Option.some_ne_none k).symm

/-- An acknowledgement resumes the call that it takes. -/
theorem leaves_ackPropose (s : Requests n) (i : Nat) (l : Leader n) (c : Nat) (id : Fin n)
    (zxId : Int64) (save : Int64 → Bool) (commit : CommitEnd)
    (hresumes : AckResumes l.lead (s.services (.lead i)) id zxId commit) :
    Leaves s (s.ackPropose i l c id zxId save commit) fun _ => False := by
  rw [ackPropose]
  rcases l.lead.vote_cases id zxId with heq | ⟨d, ds, hq, hz, heq⟩
  · rw [heq]
    exact leaves_setLeader s i _
  · rw [heq]
    dsimp only
    rcases Decidable.em (n / 2 + 1 ≤ (insert id d.vote).card) with hmajority | hfew
    · rw [if_pos hmajority]
      dsimp only
      generalize hl : ({ l with
        lead := { l.lead with uncommit := { d with vote := insert id d.vote } :: ds } }
          : Leader n) = l'
      generalize hd : ({ d with vote := insert id d.vote } : Draft n) = d'
      have htaken : ((s.setLeader i l').takeOwn i l' d').2 ≠ none →
          commit = .returns ∧ ∀ x ∈ l'.lead.uncommit, x.zxId = d'.zxId := by
        intro hcall
        obtain ⟨hown, hpop⟩ := takeOwn_call _ i l' d' hcall
        subst hl hd
        obtain ⟨hreturns, hlast⟩ := hresumes d (by rw [hq]; rfl) hz hmajority hown hpop
        refine ⟨hreturns, fun x hx => ?_⟩
        rcases List.mem_cons.mp hx with rfl | hx
        · rfl
        · exact (hlast x (hq ▸ .tail _ hx)).trans hz.symm
      have hown := (leaves_setLeader s i l').trans (leaves_takeOwn (s.setLeader i l') i l' d')
      cases commit with
      | returns => exact leaves_committed hown i l' c id d' save fun hcall => (htaken hcall).2
      | throwsBefore =>
          refine (hown.trans (leaves_closeHandler _ c)).mono fun k hk => ?_
          exact absurd (htaken (by rw [hk]; simp)).1 (by decide)
      | throwsAfter =>
          refine Leaves.trans (hown.mono fun k hk => ?_) (.trans ?_ (leaves_closeHandler _ c))
          · exact absurd (htaken (by rw [hk]; simp)).1 (by decide)
          · exact .of_same rfl rfl rfl rfl fun _ hc => hc
    · rw [if_neg hfew]
      exact leaves_setLeader s i _

/-! ## The steps -/

/-- `DoTransaction` up to the executor: the call is put among the callbacks. -/
def pushCall (s : Requests n) (k : Nat) (id : Fin n) (e : Executor) (data : Bytes) :
    Requests n :=
  ({ s with
    calls := Function.update s.calls k (some { server := id, data := data })
    asked := Function.update s.asked e
      (Function.update (s.asked e) (s.services e).nextRequestId (some k)) } :
        Requests n).setService e ((s.services e).pushRequest k).1

/-- A new call under a request id that is not in use is registered. -/
theorem leaves_pushCall (s : Requests n) {k : Nat} {id : Fin n} {e : Executor} (data : Bytes)
    (hrunning : s.running id = some e)
    (hfree : ∀ p ∈ (s.services e).callbacks, p.1 ≠ (s.services e).nextRequestId) :
    Leaves s (s.pushCall k id e data) fun _ => False := by
  have hkept : (s.services e).callbacks.filter
      (fun p => p.1 ≠ (s.services e).nextRequestId) = (s.services e).callbacks := by
    rw [List.filter_eq_self]
    intro p hp
    simpa using hfree p hp
  have hpushed : ((s.services e).pushRequest k).1.callbacks =
      ((s.services e).nextRequestId, k) :: (s.services e).callbacks :=
    congrArg (_ :: ·) hkept
  have hservices : ∀ e', (s.pushCall k id e data).services e' =
      if e' = e then ((s.services e).pushRequest k).1 else s.services e' :=
    fun e' => Function.update_apply _ _ _ _
  refine ⟨fun hunique e' => ?_, fun _ k' hk => ?_, fun _ hc => hc⟩
  · rw [hservices]
    split
    next =>
      rw [hpushed, List.map_cons, List.nodup_cons]
      refine ⟨fun hmem => ?_, hunique e⟩
      obtain ⟨p, hp, hid⟩ := List.mem_map.mp hmem
      exact hfree p hp hid
    next => exact hunique e'
  · obtain ⟨⟨call, hcall, hstate⟩, hreg⟩ := hk
    change Function.update s.calls k (some { server := id, data := data }) k' = some call at hcall
    rcases Decidable.em (k' = k) with rfl | hne
    · refine absurd ⟨e, (s.services e).nextRequestId, ?_, ?_, id, hrunning⟩ hreg
      · rw [hservices, if_pos rfl, hpushed]
        exact .head _
      · simp [pushCall, setService]
    · rw [Function.update_of_ne hne] at hcall
      refine .inl ⟨⟨call, hcall, hstate⟩, fun ⟨e', requestId, hmem, hasked, hrun⟩ => ?_⟩
      refine hreg ⟨e', requestId, ?_, ?_, hrun⟩
      · rw [hservices]
        split
        next he =>
          rw [hpushed]
          exact .tail _ (he ▸ hmem)
        next => exact hmem
      · rcases Decidable.em (e' = e) with rfl | he
        · have hother : requestId ≠ (s.services e').nextRequestId := hfree _ hmem
          simpa [pushCall, setService, hother] using hasked
        · simpa [pushCall, setService, he] using hasked

/-- A call that is refused does not sleep. -/
theorem leaves_refused (s : Requests n) (k : Nat) {call : Call n}
    (hcall : call.state ≠ .suspended) :
    Leaves s { s with calls := Function.update s.calls k (some call) } fun _ => False := by
  refine ⟨fun hunique => hunique, ?_, fun _ hc => hc⟩
  rintro - k' ⟨⟨call', hcall', hstate⟩, hreg⟩
  dsimp only at hcall'
  rcases Decidable.em (k' = k) with rfl | hne
  · rw [Function.update_self, Option.some.injEq] at hcall'
    exact absurd hstate (hcall' ▸ hcall)
  · rw [Function.update_of_ne hne] at hcall'
    exact .inl ⟨⟨call', hcall', hstate⟩, hreg⟩

theorem leaves_callActive {k : Nat} {id : Fin n} {e : Executor} {data : Bytes}
    {save : Int64 → Bool} (hrunning : s.running id = some e)
    (hfree : ∀ p ∈ (s.services e).callbacks, p.1 ≠ (s.services e).nextRequestId)
    (hs : s.callActive k id e data save = some s') : Leaves s s' fun _ => False := by
  have hpush := leaves_pushCall s (k := k) data hrunning hfree
  cases e with
  | lead i =>
      rw [callActive] at hs
      dsimp only at hs
      split at hs
      next => cases hs
      next l _ =>
        cases hs
        have hpropose := leaves_propose (s.pushCall k id (.lead i) data) i l l.lead.id (.lead i)
          (s.services (.lead i)).nextRequestId data save (some k)
        have hproposed := (hpush.mono fun _ => False.elim).trans hpropose
        split
        next hblocks => exact hpush.trans (leaves_propose_blocks _ i l _ _ _ data save _ hblocks)
        next => exact hproposed.resume k finish_resumes fun k' hk' => (Option.some.inj hk').symm
  | follow c =>
      rw [callActive] at hs
      dsimp only at hs
      split at hs
      next => cases hs
      next x hx =>
        cases hs
        exact hpush.trans (leaves_setFollower _ c fun hblocked => ⟨x, hx, hblocked⟩)

theorem leaves_call {k : Nat} {id : Fin n} {data : Bytes} {save : Int64 → Bool}
    (hs : s.call k id data save = some s') (hok : Resumes s (.call k id data save)) :
    Leaves s s' fun _ => False := by
  have hrefused := leaves_refused s k (finish_resumes { server := id, data := data })
  rw [call] at hs
  split at hs
  next => cases hs
  next =>
    split at hs
    next =>
      cases hs
      exact hrefused
    next e he =>
      split at hs
      next => cases hs
      next hrunning =>
        split at hs
        next => exact leaves_callActive (not_not.mp hrunning) (hok e he) hs
        next =>
          cases hs
          exact hrefused

theorem leaves_reply {c : Nat} {save : Int64 → Bool} {commit : CommitEnd}
    (hs : s.reply c save commit = some s') (hok : Resumes s (.reply c save commit)) :
    Leaves s s' fun _ => False := by
  rw [reply] at hs
  split at hs
  next => cases hs
  next x hx =>
    split at hs
    next => cases hs
    next l hl =>
      have hresumes := hok x hx l hl
      have hread : ∀ up, Leaves s (s.setFollower c { x with up := up }) fun _ => False :=
        fun up => leaves_setFollower s c fun hblocked => ⟨x, hx, hblocked⟩
      split at hs
      next =>
        split at hs
        next => cases hs
        next requestId data up hup =>
          rw [hup] at hresumes
          have hfails := propose_fails (s.setFollower c { x with up := up }) x.lead hresumes x.id
            (.follow c) requestId data none
          have hproposed := leaves_propose (s.setFollower c { x with up := up }) x.lead l x.id
            (.follow c) requestId data save none
          dsimp only at hs
          rw [hfails, if_neg Bool.false_ne_true] at hs
          obtain rfl := Option.some.inj hs
          exact (hread up).trans (hproposed.mono fun k hk => absurd hk (Option.some_ne_none k).symm)
        next zxId up hup =>
          rw [hup] at hresumes
          obtain rfl := Option.some.inj hs
          exact (hread up).trans
            (leaves_ackPropose _ x.lead l c x.id zxId save commit hresumes)
      next => cases hs

theorem leaves_notice {c : Nat} {saved : Bool} {commit : CommitEnd}
    (hs : s.notice c saved commit = some s') (hok : Resumes s (.notice c saved commit)) :
    Leaves s s' fun _ => False := by
  rw [notice] at hs
  split at hs
  next => cases hs
  next x hx =>
    have hresumes := hok x hx
    have hread : ∀ y : Follower n, y.handler = x.handler → Leaves s (s.setFollower c y)
        fun _ => False :=
      fun y hy => leaves_setFollower s c fun hblocked => ⟨x, hx, hy ▸ hblocked⟩
    split at hs
    next down _ _ =>
      cases hs
      exact ((hread { x with down := down, stage := .active } rfl).trans
        (leaves_setActive _ (.follow c) true)).trans (.of_same rfl rfl rfl rfl fun _ hc => hc)
    next => cases hs; exact hread _ rfl
    next => cases hs; exact hread _ rfl
    next =>
      cases hs
      refine hread _ ?_
      split
      next => rfl
      next => rfl
    next zxId fromId requestId down hstage hdown =>
      rw [hdown] at hresumes
      dsimp only at hs
      generalize hy : ({ x with
        down := down, stage := if commit = .returns then .active else .failed } : Follower n) = y
        at hs
      have hset := hread y (hy ▸ rfl)
      generalize hp : (if fromId = x.id then (s.setFollower c y).takeCommitted (.follow c) x.lead
        zxId requestId else (s.setFollower c y, none)) = p at hs
      obtain ⟨s₁, call⟩ := p
      have htaken : Leaves s s₁ (fun k => call = some k) ∧ (call ≠ none → commit = .returns) := by
        split at hp
        next hown =>
          have hpop := leaves_takeCommitted (s.setFollower c y) (.follow c) x.lead zxId requestId
          have hcall := takeCommitted_call (s.setFollower c y) (.follow c) x.lead zxId requestId
          rw [hp] at hpop hcall
          exact ⟨(hset.mono fun _ => False.elim).trans hpop,
            fun hne => hresumes hstage hown (hcall ▸ hne)⟩
        next =>
          cases hp
          exact ⟨hset.mono fun _ => False.elim, fun hne => absurd rfl hne⟩
      split at hs
      next k hcall =>
        cases hs
        refine htaken.1.resume k finish_resumes fun k' hk' => ?_
        exact Option.some.inj (hk'.symm.trans hcall)
      next hother =>
        cases hs
        refine htaken.1.mono fun k hk => ?_
        exact hother k (htaken.2 (by rw [hk]; simp)) hk
    next requestId down _ _ =>
      cases hs
      have htaken := leaves_takeFailed (s.setFollower c { x with down := down }) (.follow c)
        requestId none
      refine (hread { x with down := down } rfl).trans (htaken.mono fun k hk => ?_)
      exact absurd hk (Option.some_ne_none k).symm
    next => cases hs; exact hread _ rfl
    next => cases hs

/-- The calls of an executor that ends go on. -/
theorem leaves_clear (s : Requests n) {id : Fin n} {e : Executor}
    (hrunning : s.running id = some e) :
    Leaves s ((s.clearRequest e).setRunning id none) fun _ => False := by
  have hservices : ∀ e', ((s.clearRequest e).setRunning id none).services e' =
      if e' = e then (s.services e).clearRequest else s.services e' :=
    fun e' => Function.update_apply _ _ _ _
  refine ⟨fun hunique e' => ?_, fun _ k hk => .inl ?_, fun _ hc => hc⟩
  · rw [hservices]
    split
    next => exact List.nodup_nil
    next => exact hunique e'
  · obtain ⟨⟨call, hcall, hstate⟩, hreg⟩ := hk
    change (if k ∈ (s.services e).pending then (s.calls k).map fun call => call.fail.finish
      else s.calls k) = some call at hcall
    split at hcall
    next =>
      obtain ⟨call, -, rfl⟩ := Option.map_eq_some_iff.mp hcall
      exact absurd hstate (fail_finish_resumes call)
    next hout =>
      refine ⟨⟨call, hcall, hstate⟩, fun ⟨e', requestId, hmem, hasked, id', hrun⟩ => ?_⟩
      -- the call was with another executor, and that one goes on
      have he : e' ≠ e := by
        rintro rfl
        exact hout (List.mem_map.mpr ⟨_, hmem, rfl⟩)
      have hid : id' ≠ id := by
        rintro rfl
        exact he (Option.some.inj (hrun.symm.trans hrunning))
      refine hreg ⟨e', requestId, ?_, hasked, id', ?_⟩
      · rw [hservices, if_neg he]
        exact hmem
      · exact (Function.update_of_ne hid _ _).trans hrun

/-- A term begins on a server where none is running. -/
theorem leaves_setRunning (s : Requests n) {id : Fin n} {e : Executor}
    (hnone : s.running id = none) : Leaves s (s.setRunning id (some e)) lost := by
  refine ⟨fun hunique => hunique, fun _ k hk => .inl ⟨hk.1, fun hreg => hk.2 ?_⟩, fun _ hc => hc⟩
  obtain ⟨e', requestId, hmem, hasked, id', hrun⟩ := hreg
  have hid : id' ≠ id := by
    rintro rfl
    exact absurd (hnone.symm.trans hrun) (by simp)
  exact ⟨e', requestId, hmem, hasked, id', (Function.update_of_ne hid _ _).trans hrun⟩

/-- A step leaves no orphans. -/
theorem leaves_step {a : RequestAct n} (hs : s.step a = some s') (hok : Resumes s a) :
    Leaves s s' fun _ => False := by
  cases a with
  | lead id i peerEpoch =>
      rw [step] at hs
      split at hs
      next hfree =>
        cases hs
        exact Leaves.trans (leaves_setLeader s i _) (leaves_setRunning (s.setLeader i _) hfree.1)
      next => cases hs
  | activate i =>
      rw [step] at hs
      split at hs
      next => cases hs
      next =>
        split at hs
        next =>
          cases hs
          exact (leaves_setActive s _ true).trans (.of_same rfl rfl rfl rfl fun _ hc => hc)
        next => cases hs
  | deactivate i =>
      rw [step] at hs
      split at hs
      next => cases hs
      next =>
        split at hs
        next =>
          cases hs
          exact (leaves_setActive s _ false).trans (.of_same rfl rfl rfl rfl fun _ hc => hc)
        next => cases hs
  | stepDown i =>
      rw [step] at hs
      split at hs
      next => cases hs
      next =>
        split at hs
        next hrunning =>
          cases hs
          exact leaves_clear s hrunning.1
        next => cases hs
  | follow id i c =>
      rw [step] at hs
      split at hs
      next => cases hs
      next l _ =>
        split at hs
        next hfree =>
          cases hs
          refine Leaves.trans (.trans (leaves_setLeader s i _) (leaves_setFollower _ c ?_))
            (leaves_setRunning _ hfree.1)
          exact fun hblocked => absurd hblocked (by simp)
        next => cases hs
  | register c =>
      rw [step] at hs
      split at hs
      next => cases hs
      next =>
        split at hs
        next => cases hs
        next =>
          split at hs
          next =>
            split at hs
            next =>
              cases hs
              exact (leaves_setLeader s _ _).trans (leaves_setFollower _ c (by simp))
            next =>
              cases hs
              exact leaves_closeHandler s c
          next => cases hs
  | startForwarding c =>
      rw [step] at hs
      split at hs
      next => cases hs
      next =>
        split at hs
        next => cases hs
        next =>
          split at hs
          next =>
            cases hs
            exact (leaves_setLeader s _ _).trans (leaves_setFollower _ c (by simp))
          next => cases hs
  | updated c =>
      rw [step] at hs
      split at hs
      next => cases hs
      next =>
        split at hs
        next =>
          cases hs
          exact leaves_setFollower s c (by simp)
        next => cases hs
  | close c =>
      rw [step] at hs
      split at hs
      next => cases hs
      next =>
        split at hs
        next =>
          cases hs
          exact leaves_closeHandler s c
        next => cases hs
  | leave c =>
      rw [step] at hs
      split at hs
      next => cases hs
      next x hx =>
        split at hs
        next hrunning =>
          cases hs
          have hset : Leaves s (s.setFollower c { x with stage := .ended }) fun _ => False :=
            leaves_setFollower s c fun hblocked => ⟨x, hx, hblocked⟩
          exact hset.trans (leaves_clear (s.setFollower c { x with stage := .ended }) hrunning)
        next => cases hs
  | call k id data save => exact leaves_call hs hok
  | reply c save commit => exact leaves_reply hs hok
  | notice c saved commit => exact leaves_notice hs hok

end Requests

/-- In the runs whose steps resume what they take, whoever sleeps is registered. -/
theorem no_orphans {s : Requests n} (h : (requests n).Run Resumes s) : NoOrphans s := by
  have hinv : s.UniqueIds ∧ NoOrphans s := by
    refine Transition.System.Run.invariant (I := fun s => s.UniqueIds ∧ NoOrphans s) ?_ ?_ h
    · rintro s rfl
      refine ⟨fun _ => List.nodup_nil, fun k hk => ?_, fun c hc => ?_⟩
      · obtain ⟨⟨call, hcall, -⟩, -⟩ := hk
        cases hcall
      · obtain ⟨x, hx, -⟩ := hc
        cases hx
    · rintro s a s' ⟨hunique, hnone⟩ hok hs
      have hleaves := Requests.leaves_step hs hok
      refine ⟨hleaves.unique hunique, fun k hk => ?_, fun c hc => ?_⟩
      · rcases hleaves.orphan hunique k hk with hold | hlost
        · exact hnone.calls k hold
        · exact hlost
      · exact hnone.handlers c (hleaves.blocked c hc)
  exact hinv.2

/-- A call is committed and goes on, and another one sleeps. -/
def secondCall [NeZero n] : List (RequestAct n) := committedCall ++ [.call 1 0 [66] fun _ => true]

/-- A call on the server of the follow: the handler of the lead gets its request. -/
def followCall [NeZero n] : List (RequestAct n) :=
  followLead0 ++ [.call 0 2 [65] fun _ => true, .reply 0 (fun _ => true) .returns]

theorem no_orphans_secondCall :
    ∃ s call, Transition.exec Requests.step ({} : Requests 3) secondCall = some s ∧
      s.calls 1 = some call ∧ call.state = .suspended ∧ NoOrphans s := by
  have hguard : Transition.Guarded Requests.step Resumes ({} : Requests 3) secondCall := by
    decide +kernel
  have hrun : (Transition.exec Requests.step ({} : Requests 3) secondCall).map
      (fun s => s.calls 1) = some (some { server := 0, data := [66] }) := by
    decide +kernel
  obtain ⟨s, hs, hcall⟩ := Option.map_eq_some_iff.mp hrun
  exact ⟨s, _, hs, hcall, rfl, no_orphans (Transition.exec_run (.start rfl) hguard hs)⟩

/-- The request of a follow stops the handler that is to read its acknowledgements. -/
theorem handler_is_stopped : ¬ ∀ s, (requests 3).Reachable s → NoOrphans s := by
  intro h
  have hrun : (Transition.exec Requests.step ({} : Requests 3) followCall).map
      (fun s => (s.follows 0).map Follower.handler) = some (some .blocked) := by
    decide +kernel
  obtain ⟨s, hs, hview⟩ := Option.map_eq_some_iff.mp hrun
  obtain ⟨x, hx, hblocked⟩ := Option.map_eq_some_iff.mp hview
  exact (h s (Transition.exec_reachable rfl hs)).handlers 0 ⟨x, hx, hblocked⟩

end Paxos
