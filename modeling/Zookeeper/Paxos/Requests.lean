import Zookeeper.Transition
import Zookeeper.Paxos.Lead
import Zookeeper.Paxos.Service

/-!
# Transactions through leads and follows

The way of a transaction: `DoTransaction` hands it to the `Lead` of its server, or
to its `Follow`, which sends a request over its connection.  The lead queues a
draft, and when the draft has a majority, commits it and tells the follows with the
id of the server that asked and its request id (`paxos/paxos/lead.cpp`,
`paxos/paxos/follow.cpp`).

There are any number of leads and follows on `n` servers.  A `Follow` is one
session: the connection and its handler on the other side go with it, and a server
that connects again has a new one.  How the calls of a `DataSet` end is an argument
of the steps.  `hn_block` stops the handler of a request for good, since nothing
resumes it, and releasing a lock that `LaunchNextDraft` has released throws.

Nothing sets the flag of a call to true, so every call that is resumed throws, and
`resumed_right_iff` says that the outcome is right exactly where the transaction was
not committed.
-/

namespace Paxos

variable {n : Nat}

/-- What a `Follow` is sent, less the bodies that no request depends on. -/
inductive Notice (n : Nat) where
  | propose (zxId : Int64)
  | commit (zxId : Int64) (fromId : Fin n) (requestId : Int64)
  | requestFail (requestId : Int64)
  | updated
deriving DecidableEq

/-- What a handler is sent. -/
inductive Reply where
  | request (requestId : Int64) (data : Bytes)
  | ackPropose (zxId : Int64)
deriving DecidableEq

/-- Where a `FollowHandler` stands. -/
inductive HandlerStage where
  /-- Before `Register`. -/
  | start
  | registered
  /-- Behind `StartForwarding`. -/
  | forwarded
  /-- In `Process`. -/
  | processing
  /-- In `hn_block`, behind a request. -/
  | blocked
  | closed
deriving DecidableEq, Repr

/-- The stages in which a handler reads. -/
def HandlerStage.reads : HandlerStage → Bool
  | .registered | .forwarded | .processing => true
  | _ => false

/-- Where a `Follow` stands. -/
inductive FollowerStage where
  /-- In `SyncWithLeader`, or before. -/
  | syncing
  /-- In `ProcossPropose`. -/
  | active
  /-- An exception was thrown. -/
  | failed
  /-- The `Follow` is gone. -/
  | ended
deriving DecidableEq, Repr

/-- A `Follow` with its connection. -/
structure Follower (n : Nat) where
  lead : Nat
  id : Fin n
  handler : HandlerStage := .start
  stage : FollowerStage := .syncing
  /-- What is on the way to the lead. -/
  up : List Reply := []
  /-- What is on the way to the follow. -/
  down : List (Notice n) := []
deriving DecidableEq

/-- A `Lead` with its tables of followers. -/
structure Leader (n : Nat) where
  lead : Lead n
  count : Nat := 0
  followers : Fin n → Option Nat := fun _ => none
  forwarding : Fin n → Option Nat := fun _ => none

/-- A `ServiceExecutor`. -/
inductive Executor where
  | lead (i : Nat)
  | follow (c : Nat)
deriving DecidableEq, Repr

/-- Who asked for a draft, under which request id, and what it holds. -/
structure Asked where
  executor : Executor
  requestId : Int64
  data : Bytes
deriving DecidableEq

/-- The leads, follows and calls.  The last four fields only record what happened. -/
structure Requests (n : Nat) where
  leads : Nat → Option (Leader n) := fun _ => none
  follows : Nat → Option (Follower n) := fun _ => none
  services : Executor → Service := fun _ => {}
  calls : Nat → Option (Call n) := fun _ => none
  /-- The `Lead` or `Follow` that the role loop of a server runs. -/
  running : Fin n → Option Executor := fun _ => none
  /-- `PaxosImpl::_executor`. -/
  executor : Fin n → Option Executor := fun _ => none
  /-- The call each request id was given to. -/
  asked : Executor → Int64 → Option Nat := fun _ _ => none
  /-- What each lead gave an id to. -/
  given : Nat → Int64 → Option Asked := fun _ _ => none
  /-- The ids that were committed, with their leads. -/
  commits : List (Nat × Int64) := []
  /-- The calls that were taken for a commit, with the lead and the id. -/
  popped : List (Nat × Int64 × Nat) := []

/-- The steps.  New leads, follows and calls are given a number that is not in use. -/
inductive RequestAct (n : Nat) where
  /-- `PaxosImpl::Leading`, with the epoch of the handshake. -/
  | lead (id : Fin n) (lead : Nat) (peerEpoch : Int32)
  /-- `Leading` gets past `WaitForNewLeader`. -/
  | activate (lead : Nat)
  /-- `Process` ends. -/
  | deactivate (lead : Nat)
  /-- `Leading` ends. -/
  | stepDown (lead : Nat)
  /-- `PaxosImpl::Following`. -/
  | follow (id : Fin n) (lead session : Nat)
  | register (session : Nat)
  | startForwarding (session : Nat)
  /-- The handler gets past `WaitForNewLeader`. -/
  | updated (session : Nat)
  /-- The handler ends with an exception. -/
  | close (session : Nat)
  /-- `Following` ends. -/
  | leave (session : Nat)
  /-- `PaxosImpl::DoTransaction`, up to where it sleeps. -/
  | call (call : Nat) (id : Fin n) (data : Bytes) (save : Int64 → Bool)
  /-- The handler reads a message. -/
  | reply (session : Nat) (save : Int64 → Bool) (commit : CommitEnd)
  /-- The follow reads a message. -/
  | notice (session : Nat) (saved : Bool) (commit : CommitEnd)

namespace Requests

/-! ## Small changes -/

def setLeader (s : Requests n) (i : Nat) (l : Leader n) : Requests n :=
  { s with leads := Function.update s.leads i (some l) }

def setFollower (s : Requests n) (c : Nat) (x : Follower n) : Requests n :=
  { s with follows := Function.update s.follows c (some x) }

def mapFollower (s : Requests n) (c : Nat) (f : Follower n → Follower n) : Requests n :=
  { s with follows := Function.update s.follows c ((s.follows c).map f) }

def setService (s : Requests n) (e : Executor) (service : Service) : Requests n :=
  { s with services := Function.update s.services e service }

def mapCall (s : Requests n) (k : Nat) (f : Call n → Call n) : Requests n :=
  { s with calls := Function.update s.calls k ((s.calls k).map f) }

def setRunning (s : Requests n) (id : Fin n) (e : Option Executor) : Requests n :=
  { s with running := Function.update s.running id e }

def setExecutor (s : Requests n) (id : Fin n) (e : Option Executor) : Requests n :=
  { s with executor := Function.update s.executor id e }

/-- `hn_send` to a follower, where there is one. -/
def sendTo (s : Requests n) (fd : Option Nat) (notice : Notice n) : Requests n :=
  match fd with
  | none => s
  | some c => s.mapFollower c fun x => { x with down := x.down ++ [notice] }

/-- `hn_send` to all in the forwarding table. -/
def broadcast (s : Requests n) (l : Leader n) (notice : Notice n) : Requests n :=
  { s with
    follows := fun c => (s.follows c).map fun x =>
      if l.forwarding x.id = some c then { x with down := x.down ++ [notice] } else x }

/-- `PopRequest` where a failure is to be reported. -/
def takeFailed (s : Requests n) (e : Executor) (requestId : Int64) (current : Option Nat) :
    Requests n :=
  let (service, call) := (s.services e).popRequest requestId
  let s := s.setService e service
  match call with
  | none => s
  | some k => s.mapCall k fun call => if current = some k then call.fail else call.fail.finish

/-- `PopRequest` for a committed id. -/
def takeCommitted (s : Requests n) (e : Executor) (i : Nat) (zxId requestId : Int64) :
    Requests n × Option Nat :=
  let (service, call) := (s.services e).popRequest requestId
  let s := s.setService e service
  match call with
  | none => (s, none)
  | some k => ({ s with popped := (i, zxId, k) :: s.popped }, some k)

/-- The first lines of a commit of `Lead::AckPropose`: a draft of the lead's own
server takes its call. -/
def takeOwn (s : Requests n) (i : Nat) (l : Leader n) (d : Draft n) : Requests n × Option Nat :=
  if d.id = l.lead.id then s.takeCommitted (.lead i) i d.zxId d.requestId else (s, none)

/-- `ServiceExecutor::ClearRequest`. -/
def clearRequest (s : Requests n) (e : Executor) : Requests n :=
  { s with
    services := Function.update s.services e (s.services e).clearRequest
    calls := fun k =>
      if k ∈ (s.services e).pending then (s.calls k).map fun call => call.fail.finish
      else s.calls k }

/-- A handler ends: `Lead::Unregister`, and one handler less. -/
def closeHandler (s : Requests n) (c : Nat) : Requests n :=
  match s.follows c with
  | none => s
  | some x =>
      match s.leads x.lead with
      | none => s
      | some l =>
          (s.setLeader x.lead { l with
            count := l.count - 1
            followers := Function.update l.followers x.id none
            forwarding := Function.update l.forwarding x.id none }).setFollower c
              { x with handler := .closed }

/-! ## Drafts -/

/-- The answer to a draft that could not be saved. -/
def answerFailed (i : Nat) (l : Leader n) (current : Option Nat) (s : Requests n) (d : Draft n) :
    Requests n :=
  if d.id ≠ l.lead.id then s.sendTo (l.forwarding d.id) (.requestFail d.requestId)
  else s.takeFailed (.lead i) d.requestId current

/-- What `LaunchNextDraft` sends and answers. -/
def launched (s : Requests n) (i : Nat) (l : Leader n) (launch : Launch n)
    (current : Option Nat) : Requests n :=
  let s := launch.failed.foldl (answerFailed i l current) s
  match launch.saved with
  | some d => if launch.thrown then s else s.broadcast l (.propose d.zxId)
  | none => s

/-- `Lead::Propose`, for a request of the executor `e` on server `id`.  It blocks
where the result is true. -/
def propose (s : Requests n) (i : Nat) (l : Leader n) (id : Fin n) (e : Executor)
    (requestId : Int64) (data : Bytes) (save : Int64 → Bool) (current : Option Nat) :
    Requests n × Bool :=
  let zxId := zxIdOf l.lead.peerEpoch l.lead.nextId
  let (lead, launch) := l.lead.propose id requestId data save
  let s := { s with
    given := Function.update s.given i
      (Function.update (s.given i) zxId (some ⟨e, requestId, data⟩)) }
  let s := s.setLeader i { l with lead := lead }
  match launch with
  | none => (s, true)
  | some launch => (s.launched i l launch current, launch.ok)

/-- The rest of `Lead::AckPropose` behind `DataSet::Commit`, for a draft that is
committed with the call `call` of the lead's own server. -/
def committed (s : Requests n) (i : Nat) (l : Leader n) (c : Nat) (id : Fin n) (d : Draft n)
    (call : Option Nat) (save : Int64 → Bool) : Requests n :=
  let s := { s with commits := (i, d.zxId) :: s.commits }
  let s := s.broadcast l (.commit d.zxId d.id d.requestId)
  let (lead, launch) := l.lead.afterCommit d.zxId save
  let l := { l with lead := lead }
  let s := s.setLeader i l
  match launch with
  | some launch => (s.launched i l launch none).closeHandler c
  | none =>
      match call with
      | some k => s.mapCall k Call.finish
      | none => s.sendTo (l.forwarding id) (.requestFail d.requestId)

/-- `Lead::AckPropose`, called by the handler `c` of server `id`. -/
def ackPropose (s : Requests n) (i : Nat) (l : Leader n) (c : Nat) (id : Fin n) (zxId : Int64)
    (save : Int64 → Bool) (commit : CommitEnd) : Requests n :=
  match l.lead.vote id zxId with
  | (lead, none) => s.setLeader i { l with lead := lead }
  | (lead, some d) =>
      let l := { l with lead := lead }
      let (s, call) := (s.setLeader i l).takeOwn i l d
      match commit with
      | .returns => s.committed i l c id d call save
      | .throwsBefore => s.closeHandler c
      | .throwsAfter => { s with commits := (i, d.zxId) :: s.commits }.closeHandler c

/-! ## Steps -/

/-- `PaxosImpl::DoTransaction` with an active executor. -/
def callActive (s : Requests n) (k : Nat) (id : Fin n) (e : Executor) (data : Bytes)
    (save : Int64 → Bool) : Option (Requests n) :=
  let (service, requestId) := (s.services e).pushRequest k
  let s := { s with
    calls := Function.update s.calls k (some { server := id, data := data })
    asked := Function.update s.asked e (Function.update (s.asked e) requestId (some k)) }
  let s := s.setService e service
  match e with
  | .lead i =>
      match s.leads i with
      | none => none
      | some l =>
          let (s, blocks) := s.propose i l l.lead.id (.lead i) requestId data save (some k)
          some (if blocks then s else s.mapCall k Call.finish)
  | .follow c =>
      match s.follows c with
      | none => none
      | some x => some (s.setFollower c { x with up := x.up ++ [.request requestId data] })

/-- `PaxosImpl::DoTransaction`.  A `Follow` that is gone is not to be called. -/
def call (s : Requests n) (k : Nat) (id : Fin n) (data : Bytes) (save : Int64 → Bool) :
    Option (Requests n) :=
  let refused :=
    { s with
      calls := Function.update s.calls k
        (some (Call.finish { server := id, data := data })) }
  if s.calls k ≠ none then none
  else
    match s.executor id with
    | none => some refused
    | some e =>
        if s.running id ≠ some e then none
        else if (s.services e).active then s.callActive k id e data save
        else some refused

/-- The handler of session `c` reads a message. -/
def reply (s : Requests n) (c : Nat) (save : Int64 → Bool) (commit : CommitEnd) :
    Option (Requests n) :=
  match s.follows c with
  | none => none
  | some x =>
      match s.leads x.lead with
      | none => none
      | some l =>
          if x.handler = .processing then
            match x.up with
            | [] => none
            | .request requestId data :: up =>
                let s := s.setFollower c { x with up := up }
                let (s, blocks) :=
                  s.propose x.lead l x.id (.follow c) requestId data save none
                some (if blocks then s.mapFollower c fun x => { x with handler := .blocked }
                  else s)
            | .ackPropose zxId :: up =>
                some ((s.setFollower c { x with up := up }).ackPropose x.lead l c x.id zxId save
                  commit)
          else none

/-- `SyncWithLeader` or `ProcossPropose` reads a message. -/
def notice (s : Requests n) (c : Nat) (saved : Bool) (commit : CommitEnd) :
    Option (Requests n) :=
  match s.follows c with
  | none => none
  | some x =>
      match x.stage, x.down with
      | .syncing, .updated :: down =>
          some (((s.setFollower c { x with down := down, stage := .active }).setService
            (.follow c) { s.services (.follow c) with active := true }).setExecutor x.id
              (some (.follow c)))
      | .syncing, .commit _ _ _ :: down =>
          some (s.setFollower c { x with
            down := down, stage := if commit = .returns then .syncing else .failed })
      | .syncing, _ :: down => some (s.setFollower c { x with down := down })
      | .active, .propose zxId :: down =>
          some (s.setFollower c
            (if saved then { x with down := down, up := x.up ++ [.ackPropose zxId] }
            else { x with down := down, stage := .failed }))
      | .active, .commit zxId fromId requestId :: down =>
          let s := s.setFollower c { x with
            down := down, stage := if commit = .returns then .active else .failed }
          let (s, call) :=
            if fromId = x.id then s.takeCommitted (.follow c) x.lead zxId requestId else (s, none)
          match commit, call with
          | .returns, some k => some (s.mapCall k Call.finish)
          | _, _ => some s
      | .active, .requestFail requestId :: down =>
          some ((s.setFollower c { x with down := down }).takeFailed (.follow c) requestId none)
      | .active, .updated :: down => some (s.setFollower c { x with down := down })
      | _, _ => none

def step (s : Requests n) : RequestAct n → Option (Requests n)
  | .lead id i peerEpoch =>
      if s.running id = none ∧ s.leads i = none then
        some ((s.setLeader i { lead := { id := id, peerEpoch := peerEpoch } }).setRunning id
          (some (.lead i)))
      else none
  | .activate i =>
      match s.leads i with
      | none => none
      | some l =>
          if s.running l.lead.id = some (.lead i) then
            some ((s.setService (.lead i) { s.services (.lead i) with active := true }).setExecutor
              l.lead.id (some (.lead i)))
          else none
  | .deactivate i =>
      match s.leads i with
      | none => none
      | some l =>
          if s.running l.lead.id = some (.lead i) then
            some ((s.setService (.lead i) { s.services (.lead i) with active := false }).setExecutor
              l.lead.id none)
          else none
  | .stepDown i =>
      match s.leads i with
      | none => none
      | some l =>
          -- `ShutdownListen` has waited for the handlers
          if s.running l.lead.id = some (.lead i) ∧ (s.services (.lead i)).active = false ∧
              l.count = 0 then
            some ((s.clearRequest (.lead i)).setRunning l.lead.id none)
          else none
  | .follow id i c =>
      match s.leads i with
      | none => none
      | some l =>
          if s.running id = none ∧ s.running l.lead.id = some (.lead i) ∧ s.follows c = none then
            some (((s.setLeader i { l with count := l.count + 1 }).setFollower c
              { lead := i, id := id }).setRunning id (some (.follow c)))
          else none
  | .register c =>
      match s.follows c with
      | none => none
      | some x =>
          match s.leads x.lead with
          | none => none
          | some l =>
              if x.handler = .start then
                if l.followers x.id = none then
                  some ((s.setLeader x.lead { l with
                    followers := Function.update l.followers x.id (some c) }).setFollower c
                      { x with handler := .registered })
                else some (s.closeHandler c)
              else none
  | .startForwarding c =>
      match s.follows c with
      | none => none
      | some x =>
          match s.leads x.lead with
          | none => none
          | some l =>
              if x.handler = .registered then
                some ((s.setLeader x.lead { l with
                  forwarding := Function.update l.forwarding x.id (some c) }).setFollower c
                    { x with handler := .forwarded })
              else none
  | .updated c =>
      match s.follows c with
      | none => none
      | some x =>
          if x.handler = .forwarded then
            some (s.setFollower c { x with handler := .processing, down := x.down ++ [.updated] })
          else none
  | .close c =>
      match s.follows c with
      | none => none
      | some x => if x.handler.reads then some (s.closeHandler c) else none
  | .leave c =>
      match s.follows c with
      | none => none
      | some x =>
          if s.running x.id = some (.follow c) then
            some (((s.setFollower c { x with stage := .ended }).clearRequest
              (.follow c)).setRunning x.id none)
          else none
  | .call k id data save => s.call k id data save
  | .reply c save commit => s.reply c save commit
  | .notice c saved commit => s.notice c saved commit

end Requests

/-- The runs of leads, follows and calls on `n` servers. -/
def requests (n : Nat) : Transition.System (Requests n) (RequestAct n) :=
  Transition.ofStep (fun s => s = {}) Requests.step

namespace Requests

variable {s : Requests n}

/-! ## What leaves the calls alone -/

@[simp] theorem setLeader_calls (i : Nat) (l : Leader n) : (s.setLeader i l).calls = s.calls := rfl

@[simp] theorem setFollower_calls (c : Nat) (x : Follower n) :
    (s.setFollower c x).calls = s.calls := rfl

@[simp] theorem setService_calls (e : Executor) (service : Service) :
    (s.setService e service).calls = s.calls := rfl

@[simp] theorem setRunning_calls (id : Fin n) (e : Option Executor) :
    (s.setRunning id e).calls = s.calls := rfl

@[simp] theorem setExecutor_calls (id : Fin n) (e : Option Executor) :
    (s.setExecutor id e).calls = s.calls := rfl

@[simp] theorem broadcast_calls (l : Leader n) (notice : Notice n) :
    (s.broadcast l notice).calls = s.calls := rfl

@[simp] theorem sendTo_calls (fd : Option Nat) (notice : Notice n) :
    (s.sendTo fd notice).calls = s.calls := by
  cases fd <;> rfl

@[simp] theorem closeHandler_calls (c : Nat) : (s.closeHandler c).calls = s.calls := by
  rw [closeHandler]
  split
  next => rfl
  next =>
    split
    next => rfl
    next => rfl

@[simp] theorem takeCommitted_calls (e : Executor) (i : Nat) (zxId requestId : Int64) :
    (s.takeCommitted e i zxId requestId).1.calls = s.calls := by
  rw [takeCommitted]
  dsimp only
  split <;> rfl

@[simp] theorem takeOwn_calls (i : Nat) (l : Leader n) (d : Draft n) :
    (s.takeOwn i l d).1.calls = s.calls := by
  rw [takeOwn]
  split
  next => exact takeCommitted_calls _ _ _ _
  next => rfl

/-! ## The flag of a call -/

/-- No flag is set, and no call has returned. -/
def Unset (calls : Nat → Option (Call n)) : Prop :=
  ∀ k call, calls k = some call → call.success = false ∧ call.state ≠ .returned

theorem Unset.of_init (h : (requests n).init s) : Unset s.calls := by
  cases h
  intro k call hcall
  cases hcall

theorem Unset.map {calls : Nat → Option (Call n)} (h : Unset calls) (k : Nat)
    {f : Call n → Call n} (hf : ∀ call, call.success = false → call.state ≠ .returned →
      (f call).success = false ∧ (f call).state ≠ .returned) :
    Unset (Function.update calls k ((calls k).map f)) := by
  intro k' call' hcall
  by_cases hk : k' = k
  · subst hk
    rw [Function.update_self] at hcall
    obtain ⟨call, hold, rfl⟩ := Option.map_eq_some_iff.mp hcall
    exact hf call (h k' call hold).1 (h k' call hold).2
  · rw [Function.update_of_ne hk] at hcall
    exact h k' call' hcall

/-- A call whose flag is not set throws. -/
theorem finish_unset {call : Call n} (h : call.success = false) :
    call.finish.success = false ∧ call.finish.state = .threw := by
  simp [Call.finish, h]

theorem Unset.finish {calls : Nat → Option (Call n)} (h : Unset calls) (k : Nat) :
    Unset (Function.update calls k ((calls k).map Call.finish)) :=
  h.map k fun _ hflag _ => ⟨hflag, by simp [(finish_unset hflag).2]⟩

theorem Unset.new {calls : Nat → Option (Call n)} (h : Unset calls) (k : Nat) {call : Call n}
    (hcall : call.success = false ∧ call.state ≠ .returned) :
    Unset (Function.update calls k (some call)) := by
  intro k' call' hcall'
  by_cases hk : k' = k
  · subst hk
    rw [Function.update_self, Option.some.injEq] at hcall'
    exact hcall' ▸ hcall
  · rw [Function.update_of_ne hk] at hcall'
    exact h k' call' hcall'

theorem Unset.takeFailed (h : Unset s.calls) (e : Executor) (requestId : Int64)
    (current : Option Nat) : Unset (s.takeFailed e requestId current).calls := by
  rw [Requests.takeFailed]
  dsimp only
  split
  next => exact h
  next k _ =>
    refine Unset.map h k fun call _ hstate => ?_
    split
    next => exact ⟨rfl, hstate⟩
    next => exact ⟨rfl, by simp [Call.finish, Call.fail]⟩

theorem Unset.launched (h : Unset s.calls) (i : Nat) (l : Leader n) (launch : Launch n)
    (current : Option Nat) : Unset (s.launched i l launch current).calls := by
  have hanswered : ∀ (ds : List (Draft n)) (s : Requests n), Unset s.calls →
      Unset (ds.foldl (answerFailed i l current) s).calls := by
    intro ds
    induction ds with
    | nil => exact fun _ h => h
    | cons d ds ih =>
        intro s h
        refine ih _ ?_
        rw [answerFailed]
        split
        next => simpa using h
        next => exact h.takeFailed _ _ _
  unfold Requests.launched
  dsimp only
  split
  next =>
    split
    next => exact hanswered _ s h
    next => exact hanswered _ s h
  next => exact hanswered _ s h

theorem Unset.propose (h : Unset s.calls) (i : Nat) (l : Leader n) (id : Fin n) (e : Executor)
    (requestId : Int64) (data : Bytes) (save : Int64 → Bool) (current : Option Nat) :
    Unset (s.propose i l id e requestId data save current).1.calls := by
  rw [Requests.propose]
  dsimp only
  split
  next => exact h
  next =>
    refine Unset.launched ?_ i _ _ current
    exact h

theorem Unset.committed (h : Unset s.calls) (i : Nat) (l : Leader n) (c : Nat) (id : Fin n)
    (d : Draft n) (call : Option Nat) (save : Int64 → Bool) :
    Unset (s.committed i l c id d call save).calls := by
  rw [Requests.committed]
  dsimp only
  split
  next =>
    rw [closeHandler_calls]
    refine Unset.launched ?_ i _ _ none
    exact h
  next =>
    split
    next k => exact Unset.finish h k
    next =>
      rw [sendTo_calls]
      exact h

theorem Unset.ackPropose (h : Unset s.calls) (i : Nat) (l : Leader n) (c : Nat) (id : Fin n)
    (zxId : Int64) (save : Int64 → Bool) (commit : CommitEnd) :
    Unset (s.ackPropose i l c id zxId save commit).calls := by
  rw [Requests.ackPropose]
  split
  next => exact h
  next lead d _ =>
    have hpop : Unset ((s.setLeader i { l with lead := lead }).takeOwn i
        { l with lead := lead } d).1.calls := by
      rw [takeOwn_calls]
      exact h
    cases commit with
    | returns => exact hpop.committed _ _ _ _ _ _ _
    | throwsBefore => simpa using hpop
    | throwsAfter => simpa using hpop

theorem Unset.call (h : Unset s.calls) {k : Nat} {id : Fin n} {data : Bytes}
    {save : Int64 → Bool} {s' : Requests n} (hs : s.call k id data save = some s') :
    Unset s'.calls := by
  have hrefused : Unset (Function.update s.calls k
      (some (Call.finish { server := id, data := data }))) :=
    h.new k ⟨rfl, by simp [Call.finish]⟩
  have hnew : Unset (Function.update s.calls k (some { server := id, data := data })) :=
    h.new k ⟨rfl, by simp⟩
  unfold Requests.call at hs
  dsimp only at hs
  split at hs
  next => cases hs
  next =>
    split at hs
    next =>
      cases hs
      exact hrefused
    next e _ =>
      split at hs
      next => cases hs
      next =>
        split at hs
        next =>
          rw [callActive] at hs
          cases e with
          | lead i =>
              dsimp only at hs
              split at hs
              next => cases hs
              next l _ =>
                cases hs
                split
                next =>
                  refine Unset.propose ?_ i l l.lead.id (.lead i) _ data save (some k)
                  exact hnew
                next =>
                  refine Unset.finish (Unset.propose ?_ i l l.lead.id (.lead i) _ data save
                    (some k)) k
                  exact hnew
          | follow c =>
              dsimp only at hs
              split at hs
              next => cases hs
              next =>
                cases hs
                exact hnew
        next =>
          cases hs
          exact hrefused

theorem Unset.reply (h : Unset s.calls) {c : Nat} {save : Int64 → Bool} {commit : CommitEnd}
    {s' : Requests n} (hs : s.reply c save commit = some s') : Unset s'.calls := by
  rw [Requests.reply] at hs
  split at hs
  next => cases hs
  next x _ =>
    split at hs
    next => cases hs
    next l _ =>
      split at hs
      next =>
        split at hs
        next => cases hs
        next requestId data up _ =>
          cases hs
          have hprop := Unset.propose (s := s.setFollower c { x with up := up }) h x.lead l x.id
            (.follow c) requestId data save none
          dsimp only
          split
          next => exact hprop
          next => exact hprop
        next zxId up _ =>
          cases hs
          exact Unset.ackPropose (s := s.setFollower c { x with up := up }) h _ _ _ _ _ _ _
      next => cases hs

theorem Unset.notice (h : Unset s.calls) {c : Nat} {saved : Bool} {commit : CommitEnd}
    {s' : Requests n} (hs : s.notice c saved commit = some s') : Unset s'.calls := by
  rw [Requests.notice] at hs
  split at hs
  next => cases hs
  next x _ =>
    split at hs
    next => cases hs; exact h
    next => cases hs; exact h
    next => cases hs; exact h
    next => cases hs; exact h
    next zxId fromId requestId down _ _ =>
      dsimp only at hs
      have hpop : Unset (if fromId = x.id then
          (s.setFollower c { x with
            down := down, stage := if commit = .returns then .active else .failed }).takeCommitted
              (.follow c) x.lead zxId requestId
          else (s.setFollower c { x with
            down := down, stage := if commit = .returns then .active else .failed },
              none)).1.calls := by
        split
        next => simpa using h
        next => exact h
      split at hs
      next k _ =>
        cases hs
        exact hpop.finish k
      next =>
        cases hs
        exact hpop
    next => cases hs; exact Unset.takeFailed (s := Requests.setFollower _ _ _) h _ _ _
    next => cases hs; exact h
    next => cases hs

theorem Unset.clearRequest (h : Unset s.calls) (e : Executor) :
    Unset (s.clearRequest e).calls := by
  intro k call hcall
  simp only [Requests.clearRequest] at hcall
  split at hcall
  next =>
    obtain ⟨call, -, rfl⟩ := Option.map_eq_some_iff.mp hcall
    exact ⟨rfl, by simp [Call.finish, Call.fail]⟩
  next => exact h k call hcall

theorem Unset.step (h : Unset s.calls) {a : RequestAct n} {s' : Requests n}
    (hs : s.step a = some s') : Unset s'.calls := by
  cases a with
  | call => exact h.call hs
  | reply => exact h.reply hs
  | notice => exact h.notice hs
  | stepDown i =>
      simp only [Requests.step] at hs
      split at hs
      next => cases hs
      next =>
        split at hs
        next =>
          cases hs
          exact h.clearRequest (.lead i)
        next => cases hs
  | leave c =>
      simp only [Requests.step] at hs
      split at hs
      next => cases hs
      next x _ =>
        split at hs
        next =>
          cases hs
          exact Unset.clearRequest (s := s.setFollower c { x with stage := .ended }) h (.follow c)
        next => cases hs
  | lead | activate | deactivate | follow | register | startForwarding | updated | close =>
      simp only [Requests.step] at hs
      repeat' split at hs
      all_goals cases hs
      all_goals simpa using h

/-! ## The outcome -/

/-- The call a lead gave an id to. -/
def callOf (s : Requests n) (i : Nat) (zxId : Int64) : Option Nat :=
  (s.given i zxId).bind fun a => s.asked a.executor a.requestId

/-- The transaction of a call was committed by a lead. -/
def Committed (s : Requests n) (k : Nat) : Prop := ∃ p ∈ s.commits, s.callOf p.1 p.2 = some k

/-- A call returns where its transaction was committed, and throws elsewhere. -/
def RightOutcome (s : Requests n) (k : Nat) (call : Call n) : Prop :=
  (s.Committed k → call.state = .returned) ∧ (¬ s.Committed k → call.state = .threw)

end Requests

/-- The outcome of a call that is resumed is right exactly where its transaction was
not committed: the call throws in any case. -/
theorem resumed_right_iff {s : Requests n} (h : (requests n).Reachable s) {k : Nat} {call : Call n}
    (hk : s.calls k = some call) (hresumed : call.state ≠ .suspended) :
    s.RightOutcome k call ↔ ¬ s.Committed k := by
  have hunset : Requests.Unset s.calls :=
    Transition.System.Reachable.invariant (I := fun s => Requests.Unset s.calls)
      (fun _ hi => .of_init hi) (fun _ _ _ hi hs => hi.step hs) h
  have hthrew : call.state = .threw := by
    have hreturned := (hunset k call hk).2
    cases hstate : call.state with
    | suspended => exact absurd hstate hresumed
    | returned => exact absurd hstate hreturned
    | threw => rfl
  constructor
  · intro hright hcommitted
    rw [hright.1 hcommitted] at hthrew
    cases hthrew
  · exact fun hdropped => ⟨fun hcommitted => absurd hcommitted hdropped, fun _ => hthrew⟩

/-- Server 2 follows lead 0, which is on server 0. -/
def followLead0 [NeZero n] : List (RequestAct n) :=
  [.lead 0 0 1, .activate 0, .follow 2 0 0, .register 0, .startForwarding 0, .updated 0,
    .notice 0 true .returns]

/-- Call 0 on the server of the lead: its draft is launched, acknowledged and committed. -/
def committedCall [NeZero n] : List (RequestAct n) :=
  followLead0 ++ [.call 0 0 [65] fun _ => true, .notice 0 true .returns,
    .reply 0 (fun _ => true) .returns]

/-- Call 0, whose draft cannot be saved. -/
def droppedCall [NeZero n] : List (RequestAct n) := followLead0 ++ [.call 0 0 [65] fun _ => false]

/-- A call whose transaction was committed throws. -/
theorem committed_call_throws :
    ¬ ∀ s, (requests 3).Reachable s → ∀ k call, s.calls k = some call →
      call.state ≠ .suspended → s.RightOutcome k call := by
  intro h
  have hrun : (Transition.exec Requests.step ({} : Requests 3) committedCall).map
      (fun s => (s.calls 0, s.commits, s.callOf 0 (zxIdOf 1 1))) =
        some (some { server := 0, data := [65], state := .threw }, [(0, zxIdOf 1 1)], some 0) := by
    decide +kernel
  obtain ⟨s, hs, hview⟩ := Option.map_eq_some_iff.mp hrun
  simp only [Prod.mk.injEq] at hview
  obtain ⟨hcall, hcommits, hcallOf⟩ := hview
  have hright := h s (Transition.exec_reachable rfl hs) 0 _ hcall (by decide)
  have hcommitted : s.Committed 0 := ⟨_, by rw [hcommits]; exact .head _, hcallOf⟩
  exact absurd (hright.1 hcommitted) (by decide)

/-- A call whose draft cannot be saved throws, as it should. -/
theorem resumed_right_dropped :
    ∃ s call, Transition.exec Requests.step ({} : Requests 3) droppedCall = some s ∧
      s.calls 0 = some call ∧ (s.RightOutcome 0 call ↔ ¬ s.Committed 0) := by
  have hrun : (Transition.exec Requests.step ({} : Requests 3) droppedCall).map
      (fun s => s.calls 0) = some (some { server := 0, data := [65], state := .threw }) := by
    decide +kernel
  obtain ⟨s, hs, hcall⟩ := Option.map_eq_some_iff.mp hrun
  exact ⟨s, _, hs, hcall, resumed_right_iff (Transition.exec_reachable rfl hs) hcall (by decide)⟩

end Paxos
