import Mathlib.Logic.Function.Basic
import Zookeeper.Majority
import Zookeeper.Transition
import Zookeeper.Paxos.StepDown
import Zookeeper.Paxos.Sync

/-!
# A cluster of data sets

All servers at once: who leads, who follows whom, the connections between them, and
the data set of each.  A connection has a `FollowHandler` on the leader's side and a
`Follow` on the other, frames that are on their way down, and acknowledgements that are
on their way up, each in order.  Either side may end at any time.

Beside its data set, every server keeps the sequence of bills it has applied.  `Commit`
and `Flush` extend it, `Trunc` takes bills back, and `Snap` replaces it by the one of the
sender.

The election is not part of the model: any idle server may begin to lead with any epoch,
and any idle server may follow a server that leads.  Whether a file call succeeds is an
argument.  A change of the leader's data set and the sending of its frame are one step.
-/

namespace Paxos

open Majority

variable {n : Nat} {σ τ : Type}

/-! ## Frames -/

/-- A frame to a follower.  A snapshot carries the sequence of the sender. -/
inductive DownFrame where
  | diff
  | trunc (zxId : Int64)
  | snap (zxId : Int64) (data : Bytes) (applied : List Bill)
  | propose (bill : Bill)
  | commit (zxId : Int64)
  | newLeader
  | updated
deriving DecidableEq

/-- A frame to a leader. -/
inductive UpFrame where
  | ack
  | ackPropose (zxId : Int64)
deriving DecidableEq

namespace DownFrame

/-- The bytes of a frame. -/
def bytes (inPlace : Bool) : DownFrame → Bytes
  | .diff => [Px.diffDataset.code]
  | .trunc zxId => truncFrame zxId
  | .snap zxId data _ => snapFrame zxId data inPlace
  | .propose bill => proposeFrame bill
  | .commit zxId => commitFrame zxId
  | .newLeader => [Px.newLeader.code]
  | .updated => [Px.updated.code]

/-- The openings of `SyncFollower`. -/
def isOpening : DownFrame → Bool
  | .diff | .trunc _ | .snap _ _ _ => true
  | _ => false

end DownFrame

/-- The loop of `SyncFollower` over the log. -/
def diffFrames (snap : DownFrame) (last : Int64) (first : Bool) :
    Int64 → List Bill → List DownFrame
  | _, [] => []
  | prev, bill :: bills =>
      if bill.zxId < last then diffFrames snap last first bill.zxId bills
      else if first then
        if bill.zxId = last then .diff :: diffFrames snap last first prev bills
        else if epochFromZxId bill.zxId ≠ epochFromZxId last then [snap]
        else .trunc prev :: diffFrames snap last first prev bills
      else .propose bill :: .commit bill.zxId :: diffFrames snap last first prev bills

/-- What `SyncFollower` sends before the uncommitted bills. -/
def openingFrames (m : Machine σ τ) (d : DataSet σ) (applied : List Bill) (last : Int64) :
    List DownFrame :=
  let snap := .snap d.zxId (m.getData d.stateData) applied
  if last = d.zxId then [.diff]
  else if d.zxId < last then [.trunc d.zxId]
  else if d.minZxId ≤ last then diffFrames snap last true d.minZxId (d.query d.minZxId d.zxId)
  else [snap]

/-- `FollowHandler::SyncFollower`. -/
def syncFrames (m : Machine σ τ) (d : DataSet σ) (applied : List Bill) (last : Int64) :
    List DownFrame :=
  openingFrames m d applied last ++ d.uncommit.map .propose

theorem diffFrames_bytes (leaderZxId last : Int64) (data : Bytes) (applied : List Bill)
    (inPlace first : Bool) (bills : List Bill) (prev : Int64) :
    (diffFrames (.snap leaderZxId data applied) last first prev bills).flatMap
      (DownFrame.bytes inPlace) = diffLoop leaderZxId data inPlace last first prev bills := by
  induction bills generalizing prev with
  | nil => rfl
  | cons bill bills ih =>
      rw [diffFrames, diffLoop]
      split
      next => exact ih bill.zxId
      next =>
        split
        next =>
          split
          next =>
            rw [List.flatMap_cons, ih]
            rfl
          next =>
            split
            next => exact List.flatMap_singleton ..
            next =>
              rw [List.flatMap_cons, ih]
              rfl
        next =>
          rw [List.flatMap_cons, List.flatMap_cons, ih, ← List.append_assoc]
          rfl

/-- The frames are the bytes that `SyncFollower` sends. -/
theorem syncFrames_bytes (m : Machine σ τ) (d : DataSet σ) (applied : List Bill) (last : Int64)
    (inPlace : Bool) :
    (syncFrames m d applied last).flatMap (DownFrame.bytes inPlace) =
      syncFollower m d last inPlace := by
  have hopening : (openingFrames m d applied last).flatMap (DownFrame.bytes inPlace) =
      syncOpening m d last inPlace := by
    unfold openingFrames syncOpening
    dsimp only
    repeat' split
    · rfl
    · exact List.flatMap_singleton ..
    · exact diffFrames_bytes ..
    · exact List.flatMap_singleton ..
  rw [syncFrames, syncFollower, List.flatMap_append, hopening, List.flatMap_map]
  rfl

/-! ## Servers and connections -/

/-- `Lead`, with the tables of its handlers. -/
structure Leadership (n : Nat) where
  lead : Lead n
  /-- The slots of `_followers` that are set. -/
  followers : Fin n → Bool := fun _ => false
  /-- `_forwarding`, by the number of the connection. -/
  forwarding : Fin n → Option Nat := fun _ => none
  /-- The slots of `_recvNewLeader` that are set. -/
  newLeader : Finset (Fin n) := ∅
  /-- `Process` has returned, and the data set is flushed. -/
  flushed : Bool := false

/-- A server. -/
structure Member (n : Nat) (σ : Type) where
  data : DataSet σ
  /-- What `data` has applied. -/
  applied : List Bill := []
  /-- It is inside `Lead::Leading`. -/
  leading : Option (Leadership n) := none
  /-- It is inside `Follow::Following`, on this connection. -/
  following : Option Nat := none

/-- How far a `FollowHandler` is. -/
inductive HandlerState where
  /-- The follower is registered, and its last id is known. -/
  | connected
  /-- Its copy is sent, and the lock of the data set given back. -/
  | synced
  /-- `StartForwarding` and the frame behind it. -/
  | forwarding
  /-- It waits in `WaitForNewLeader`. -/
  | waiting
  | processing
  | closed
deriving DecidableEq

/-- How far a `Follow` is. -/
inductive ReaderState where
  /-- It waits for the first message of `SyncWithLeader`. -/
  | opening
  | syncing
  | active
  | closed
deriving DecidableEq

/-- A connection. -/
structure Connection (n : Nat) where
  /-- The server that leads. -/
  lead : Fin n
  /-- The server that follows. -/
  id : Fin n
  /-- The last id of the follower, as it was sent with its epoch. -/
  lastZxId : Int64
  handler : HandlerState := .connected
  reader : ReaderState := .opening
  down : List DownFrame := []
  up : List UpFrame := []
  /-- The bills the leader had applied and not yet committed when the last frame was sent.
  No step depends on it. -/
  sent : List Bill × List Bill

structure Cluster (n : Nat) (σ : Type) where
  members : Fin n → Member n σ
  connections : Nat → Option (Connection n) := fun _ => none
  /-- The number of the next connection. -/
  count : Nat := 0

/-- How the calls behind a message end: whether `DataSet::Propose` saves, the files of `Snap`
and `Trunc`, and the transaction and the snapshot of `Commit`. -/
structure ReadIo (τ : Type) where
  save : Bool := true
  files : Option Thrown := none
  transaction : Option τ := none
  snapSaved : Bool := true
  nextCount : Nat := 0

namespace Member

variable (m : Machine σ τ) (x : Member n σ)

/-- The bills it has applied, and those it has not. -/
def copy : List Bill × List Bill := (x.applied, x.data.uncommit)

def propose (bill : Bill) (saved : Bool) : Member n σ × Bool :=
  let (d, ok) := x.data.propose bill.zxId bill.data saved
  ({ x with data := d }, ok)

def commit (zxId : Int64) (transaction : Option τ) (saved : Bool) (nextCount : Nat) :
    Member n σ × Option Thrown :=
  let (d, e) := x.data.commit m zxId transaction saved nextCount
  ({ x with
      data := d
      applied := x.applied ++ (x.data.commits m zxId transaction).toList }, e)

def flush : Member n σ × Option Thrown :=
  let (d, e) := x.data.flush m
  ({ x with
      data := d
      applied := x.applied ++ DataSet.flushes m x.data.uncommit x.data.stateData }, e)

/-- As many bills are taken back as leave the log. -/
def trunc (zxId : Int64) (files : Option Thrown) : Member n σ × Option Thrown :=
  let (d, e) := x.data.trunc m zxId files
  let back := x.data.commitLog.length - d.commitLog.length
  ({ x with data := d, applied := x.applied.take (x.applied.length - back) }, e)

def snap (zxId : Int64) (data : Bytes) (applied : List Bill) (files : Option Thrown) :
    Member n σ × Option Thrown :=
  let (d, e) := x.data.snap m zxId data files
  ({ x with data := d, applied := applied }, e)

/-- What `Follow` does with a frame.  The first frame is taken by the first `switch` of
`SyncWithLeader`, the others by its loop, and then by `ProcossPropose`.  A frame that is
not expected is skipped, which is what happens where none of its bytes is the type of a
message. -/
def read (io : ReadIo τ) : ReaderState → DownFrame → Member n σ × ReaderState × List UpFrame
  | .opening, .trunc zxId =>
      let (x, e) := x.trunc m zxId io.files
      (x, if e.isSome then .closed else .syncing, [])
  | .opening, .snap zxId data applied =>
      let (x, e) := x.snap m zxId data applied io.files
      (x, if e.isSome then .closed else .syncing, [])
  | .opening, _ => (x, .syncing, [])
  | .syncing, .propose bill => ((x.propose bill io.save).1, .syncing, [])
  | .syncing, .commit zxId =>
      let (x, e) := x.commit m zxId none io.snapSaved io.nextCount
      (x, if e.isSome then .closed else .syncing, [])
  | .syncing, .newLeader => (x, .syncing, [.ack])
  | .syncing, .updated => (x, .active, [])
  | .active, .propose bill =>
      let (x, ok) := x.propose bill io.save
      if ok then (x, .active, [.ackPropose bill.zxId]) else (x, .closed, [])
  | .active, .commit zxId =>
      let (x, e) := x.commit m zxId io.transaction io.snapSaved io.nextCount
      (x, if e.isSome then .closed else .active, [])
  | reader, _ => (x, reader, [])

end Member

/-! ## Steps -/

namespace Cluster

variable (m : Machine σ τ) (s : Cluster n σ)

def setMember (i : Fin n) (x : Member n σ) : Cluster n σ :=
  { s with members := Function.update s.members i x }

def setConnection (k : Nat) (c : Connection n) : Cluster n σ :=
  { s with connections := Function.update s.connections k (some c) }

def setLeading (i : Fin n) (l : Option (Leadership n)) : Cluster n σ :=
  s.setMember i { s.members i with leading := l }

/-- `hn_send` to all in the forwarding table of a leader. -/
def broadcast (i : Fin n) (l : Leadership n) (frame : DownFrame) : Cluster n σ :=
  { s with
    connections := fun k => (s.connections k).map fun c =>
      if c.lead = i ∧ l.forwarding c.id = some k then
        { c with down := c.down ++ [frame], sent := (s.members i).copy }
      else c }

/-- `LaunchNextDraft`, behind the queue. -/
def launch (i : Fin n) (l : Leadership n) (launch : Launch n) : Cluster n σ :=
  match launch.saved with
  | none => s
  | some d =>
      let bill : Bill := ⟨d.zxId, d.data⟩
      let s := s.setMember i ((s.members i).propose bill true).1
      if launch.thrown then s else s.broadcast i l (.propose bill)

/-- A handler ends: `Lead::Unregister`. -/
def closeHandler (k : Nat) : Cluster n σ :=
  match s.connections k with
  | none => s
  | some c =>
      let s := s.setConnection k { c with handler := .closed }
      match (s.members c.lead).leading with
      | none => s
      | some l =>
          s.setLeading c.lead (some { l with
            followers := Function.update l.followers c.id false
            forwarding := Function.update l.forwarding c.id none })

/-- `Lead::Propose`, for a request of server `id`. -/
def propose (i : Fin n) (l : Leadership n) (id : Fin n) (requestId : Int64) (data : Bytes)
    (save : Int64 → Bool) : Cluster n σ :=
  let (lead, launch) := l.lead.propose id requestId data save
  let l := { l with lead := lead }
  let s := s.setLeading i (some l)
  match launch with
  | none => s
  | some launch => s.launch i l launch

/-- The rest of `Lead::AckPropose` behind `DataSet::Commit`.  Where another draft is
launched, its lock is released a second time, and the handler ends. -/
def committed (i : Fin n) (l : Leadership n) (k : Nat) (zxId : Int64) (save : Int64 → Bool) :
    Cluster n σ :=
  let s := s.broadcast i l (.commit zxId)
  let (lead, launch) := l.lead.afterCommit zxId save
  let l := { l with lead := lead }
  let s := s.setLeading i (some l)
  match launch with
  | none => s
  | some launch => (s.launch i l launch).closeHandler k

/-- `Lead::AckPropose`, called by the handler of connection `k` for server `id`. -/
def ackPropose (i : Fin n) (l : Leadership n) (k : Nat) (id : Fin n) (zxId : Int64)
    (io : ReadIo τ) (save : Int64 → Bool) : Cluster n σ :=
  match l.lead.vote id zxId with
  | (lead, none) => s.setLeading i (some { l with lead := lead })
  | (lead, some d) =>
      let l := { l with lead := lead }
      let s := s.setLeading i (some l)
      let transaction := if d.id = i then io.transaction else none
      match (s.members i).commit m zxId transaction io.snapSaved io.nextCount with
      | (x, some _) => (s.setMember i x).closeHandler k
      | (x, none) => (s.setMember i x).committed i l k zxId save

end Cluster

inductive ClusterAct (n : Nat) (τ : Type) where
  /-- `Lead::Leading`, with the epoch it gets. -/
  | lead (i : Fin n) (peerEpoch : Int32)
  /-- `Follow::Following`, up to the last id of the follower. -/
  | follow (p i : Fin n)
  /-- The part of `SyncFollower` under the lock of the data set. -/
  | sync (k : Nat)
  /-- `StartForwarding`, and the frame behind it. -/
  | startForwarding (k : Nat)
  /-- The handler gets the acknowledgement of that frame. -/
  | recvAck (k : Nat)
  /-- `WaitForNewLeader` of the handler ends. -/
  | update (k : Nat)
  | propose (i id : Fin n) (requestId : Int64) (data : Bytes) (save : Int64 → Bool)
  /-- The handler takes the next message. -/
  | ack (k : Nat) (io : ReadIo τ) (save : Int64 → Bool)
  /-- The follower takes the next frame. -/
  | recv (p : Fin n) (io : ReadIo τ)
  /-- The handler loses the connection. -/
  | drop (k : Nat)
  /-- The follower loses the connection. -/
  | leave (p : Fin n)
  /-- `Process` of a leader returns. -/
  | flush (i : Fin n)
  /-- `ShutdownListen` of a leader returns. -/
  | stepDown (i : Fin n)

namespace Cluster

variable (m : Machine σ τ) (s : Cluster n σ)

/-- The server neither leads nor follows. -/
def Idle (i : Fin n) : Prop :=
  (s.members i).leading.isNone = true ∧ (s.members i).following.isNone = true

instance (i : Fin n) : Decidable (s.Idle i) := inferInstanceAs (Decidable (_ ∧ _))

/-- A new connection.  `Register` refuses a server that is registered, and ends with
`Unregister`. -/
def connect (p i : Fin n) (l : Leadership n) : Cluster n σ :=
  let x := s.members p
  let refused := l.followers p
  let c : Connection n :=
    { lead := i, id := p, lastZxId := x.data.zxId, sent := x.copy
      handler := if refused then .closed else .connected }
  let l := { l with
    followers := Function.update l.followers p !refused
    forwarding := if refused then Function.update l.forwarding p none else l.forwarding }
  let k := s.count
  let s := { s.setConnection k c with count := k + 1 }
  (s.setMember p { x with following := some k }).setLeading i (some l)

def step : ClusterAct n τ → Option (Cluster n σ)
  | .lead i peerEpoch =>
      if s.Idle i then
        some (s.setLeading i (some {
          lead := { id := i, peerEpoch := peerEpoch }, newLeader := {i} }))
      else none
  | .follow p i =>
      match (s.members i).leading with
      | none => none
      | some l => if s.Idle p then some (s.connect p i l) else none
  | .sync k =>
      match s.connections k with
      | none => none
      | some c =>
          let x := s.members c.lead
          if c.handler = .connected then
            some (s.setConnection k { c with
              handler := .synced
              down := c.down ++ syncFrames m x.data x.applied c.lastZxId
              sent := x.copy })
          else none
  | .startForwarding k =>
      match s.connections k with
      | none => none
      | some c =>
          match (s.members c.lead).leading with
          | none => none
          | some l =>
              if c.handler = .synced then
                some ((s.setConnection k { c with
                  handler := .forwarding, down := c.down ++ [.newLeader] }).setLeading c.lead
                    (some { l with forwarding := Function.update l.forwarding c.id (some k) }))
              else none
  | .recvAck k =>
      match s.connections k with
      | none => none
      | some c =>
          match (s.members c.lead).leading, c.up with
          | some l, .ack :: up =>
              if c.handler = .forwarding then
                some ((s.setConnection k { c with handler := .waiting, up := up }).setLeading c.lead
                  (some { l with newLeader := insert c.id l.newLeader }))
              else none
          | _, _ => none
  | .update k =>
      match s.connections k with
      | none => none
      | some c =>
          match (s.members c.lead).leading with
          | none => none
          | some l =>
              if c.handler = .waiting ∧ IsMajority l.newLeader then
                some (s.setConnection k { c with
                  handler := .processing, down := c.down ++ [.updated] })
              else none
  | .propose i id requestId data save =>
      match (s.members i).leading with
      | none => none
      | some l =>
          if IsMajority l.newLeader then some (s.propose i l id requestId data save) else none
  | .ack k io save =>
      match s.connections k with
      | none => none
      | some c =>
          match (s.members c.lead).leading, c.up with
          | some l, frame :: up =>
              if c.handler = .processing then
                let s := s.setConnection k { c with up := up }
                match frame with
                | .ack => some s
                | .ackPropose zxId => some (s.ackPropose m c.lead l k c.id zxId io save)
              else none
          | _, _ => none
  | .recv p io =>
      match (s.members p).following with
      | none => none
      | some k =>
          match s.connections k with
          | none => none
          | some c =>
              match c.down with
              | [] => none
              | frame :: down =>
                  let (x, reader, up) := (s.members p).read m io c.reader frame
                  let x := { x with following := if reader = .closed then none else some k }
                  some ((s.setMember p x).setConnection k { c with
                    reader := reader, down := down, up := c.up ++ up })
  | .drop k =>
      match s.connections k with
      | none => none
      | some c => if c.handler = .closed then none else some (s.closeHandler k)
  | .leave p =>
      match (s.members p).following with
      | none => none
      | some k =>
          match s.connections k with
          | none => none
          | some c =>
              some ((s.setMember p { s.members p with following := none }).setConnection k
                { c with reader := .closed })
  | .flush i =>
      match (s.members i).leading with
      | none => none
      | some l =>
          if l.flushed = false then
            let (x, _) := (s.members i).flush m
            some (s.setMember i { x with leading := some { l with flushed := true } })
          else none
  | .stepDown i =>
      match (s.members i).leading with
      | none => none
      | some l =>
          if l.flushed = true ∧ ∀ k < s.count, ∀ c ∈ s.connections k,
              c.lead = i → c.handler = .closed then
            some (s.setLeading i none)
          else none

/-- New servers, all in the same state.  `Load` has drawn their `_snaperCount`. -/
def Fresh (s : Cluster n σ) : Prop :=
  ∃ (start : σ) (snaperCount : Fin n → Nat), (∀ i, 100000 ≤ snaperCount i) ∧
    s = { members := fun i => { data := { stateData := start, snaperCount := snaperCount i } } }

end Cluster

/-- The cluster of `n` servers. -/
def clusterSystem (m : Machine σ τ) (n : Nat) : Transition.System (Cluster n σ) (ClusterAct n τ) :=
  Transition.ofStep Cluster.Fresh (Cluster.step m)

end Paxos
