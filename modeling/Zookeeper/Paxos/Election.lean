import Mathlib.Algebra.Ring.Nat
import Mathlib.Data.List.FinRange
import Mathlib.Logic.Function.Basic
import Zookeeper.Transition

/-!
# Looking for a leader

`Election::LookForLeader` exchanges votes with the other servers until a majority
backs one of them (`paxos/election/election.cpp`).  Between two calls the server
only echoes what the last one returned to those who still look.

An `Elector` is the `Election` of one server with the locals of the call, and
`Elector.hear` is one turn of its loop.  `elections` is the system of all servers
and the votes on the way between them, in order on each connection.  How long a
confirm window lasts, and when a vote is sent again, is left to the steps.
-/

namespace Paxos

/-- `Election::LOOKING`, `FOLLOWING` and `LEADING`, and any other byte. -/
inductive ElectionState where
  | looking
  | following
  | leading
  | other
deriving DecidableEq, Repr

/-- `Vote`. -/
structure Vote where
  /-- The server that sends it. -/
  idx : Int32
  state : ElectionState
  electionEpoch : Int32
  voteId : Int32
  voteZxId : Int64
deriving DecidableEq, Repr

/-- `Vote::operator<`. -/
def Vote.lt (v w : Vote) : Bool :=
  if v.electionEpoch = w.electionEpoch then
    if v.voteZxId = w.voteZxId then v.voteId < w.voteId else v.voteZxId < w.voteZxId
  else v.electionEpoch < w.electionEpoch

/-- A map of votes by server. -/
abbrev Votes := List (Int32 × Vote)

/-- Assignment to a map of votes. -/
def Votes.put (votes : Votes) (idx : Int32) (vote : Vote) : Votes :=
  (idx, vote) :: votes.filter fun p => p.1 ≠ idx

/-- The entries of a map that `Election::IsVoteOk` counts. -/
def Votes.backing (votes : Votes) (leader electionEpoch : Int32) : Votes :=
  votes.filter fun p => p.2.electionEpoch = electionEpoch ∧ p.2.voteId = leader

/-- `Election::IsVoteOk`. -/
def isVoteOk (votes : Votes) (leader electionEpoch : Int32) (count : Nat) : Bool :=
  count / 2 + 1 ≤ (votes.backing leader electionEpoch).length

/-- `Election::CheckLeader`, on the server `id`. -/
def checkLeader (id : Int32) (votes : Votes) (leader : Int32) (isEpochEqual : Bool) : Bool :=
  if leader = id then isEpochEqual
  else
    match votes.lookup leader with
    | some vote => vote.state = .leading
    | none => false

/-! ## One server -/

/-- Where a server stands: before its first call of `LookForLeader`, in its main
loop, in the confirm window, or behind a call. -/
inductive ElectionPhase where
  | idle
  | searching
  | confirming
  | echoing
deriving DecidableEq, Repr

/-- `Election`, with the locals of `LookForLeader`. -/
structure Elector where
  id : Int32
  state : ElectionState := .looking
  logicCount : Int32 := 0
  recvCh : List Vote := []
  /-- `_leader`, behind a call. -/
  leader : Option Vote := none
  phase : ElectionPhase := .idle
  votes : Votes := []
  otherVote : Votes := []
  proposal : Vote := ⟨0, .looking, 0, 0, 0⟩
  queue : List Vote := []
deriving DecidableEq

/-- What a turn of the loop leads to. -/
structure Turn where
  elector : Elector
  /-- `BrocastVote(proposal)` was called. -/
  brocast : Bool := false
  returned : Option Vote := none
deriving DecidableEq

namespace Elector

variable (x : Elector)

/-- The first lines of `LookForLeader`. -/
def start (zxId : Int64) : Elector :=
  let logicCount := x.logicCount + 1
  let proposal : Vote := ⟨x.id, .looking, logicCount, x.id, zxId⟩
  { x with
    state := .looking
    logicCount := logicCount
    phase := .searching
    votes := Votes.put [] x.id proposal
    otherVote := []
    proposal := proposal
    queue := [] }

/-- The proposal takes over the leader of a vote. -/
def adopt (vote : Vote) : Elector :=
  let proposal := { x.proposal with voteId := vote.voteId, voteZxId := vote.voteZxId }
  { x with proposal := proposal, votes := x.votes.put x.id proposal }

/-- The lines that return a vote. -/
def finish (vote : Vote) : Elector :=
  { x with
    state := if vote.voteId = x.id then .leading else .following
    leader := some vote
    phase := .echoing }

/-- `case LOOKING` up to the quorum test, and whether the proposal is sent.  A vote
of an earlier epoch is left alone. -/
def hearLooking (vote : Vote) : Option (Elector × Bool) :=
  if x.logicCount < vote.electionEpoch then
    let x := { x with
      logicCount := vote.electionEpoch
      votes := Votes.put [] vote.idx vote
      proposal := { x.proposal with electionEpoch := vote.electionEpoch } }
    some (if x.proposal.lt vote then x.adopt vote else x, true)
  else if vote.electionEpoch < x.logicCount then none
  else
    let x := { x with votes := x.votes.put vote.idx vote }
    some (if x.proposal.lt vote then (x.adopt vote, true) else (x, false))

/-- `case FOLLOWING` and `case LEADING`, and whether the vote is returned. -/
def hearSettled (count : Nat) (vote : Vote) : Elector × Bool :=
  let x :=
    if vote.electionEpoch = x.logicCount then { x with votes := x.votes.put vote.idx vote } else x
  if vote.electionEpoch = x.logicCount ∧ isVoteOk x.votes vote.voteId vote.electionEpoch count ∧
      checkLeader x.id x.otherVote vote.voteId true then (x.finish vote, true)
  else
    let x := { x with
      otherVote := x.otherVote.put vote.idx ⟨vote.idx, vote.state, -1, vote.voteId, -1⟩ }
    if isVoteOk x.otherVote vote.voteId (-1) count ∧
        checkLeader x.id x.otherVote vote.voteId false then (x.finish vote, true)
    else (x, false)

/-- The `switch` of the main loop. -/
def hear (count : Nat) (vote : Vote) : Turn :=
  match vote.state with
  | .looking =>
      match x.hearLooking vote with
      | none => { elector := x }
      | some (x, brocast) =>
          { elector :=
              if isVoteOk x.votes vote.voteId vote.electionEpoch count then
                { x with phase := .confirming }
              else x
            brocast := brocast }
  | .following | .leading =>
      let (x, returned) := x.hearSettled count vote
      { elector := x, returned := if returned then some vote else none }
  | .other => { elector := x }

/-- The next vote of the main loop. -/
def take : Option (Vote × Elector) :=
  match x.queue, x.recvCh with
  | vote :: queue, _ => some (vote, { x with queue := queue })
  | [], vote :: recvCh => some (vote, { x with recvCh := recvCh })
  | [], [] => none

/-- A vote is popped in the confirm window.  What is queued is the variable `n`,
which was never assigned. -/
def confirmPop (n : Vote) : Option Elector :=
  match x.recvCh with
  | [] => none
  | vote :: recvCh =>
      let x := { x with recvCh := recvCh }
      some (if x.proposal.lt vote then { x with queue := x.queue ++ [n], phase := .searching }
        else x)

/-- The confirm window is over. -/
def expire : Turn :=
  if x.queue = [] then { elector := x.finish x.proposal, returned := some x.proposal }
  else { elector := { x with phase := .searching } }

/-- The vote that is sent: `send.state = _state`. -/
def sent (vote : Vote) : Vote := { vote with state := x.state }

end Elector

/-! ### What `case LOOKING` does -/

namespace Elector

/-- The proposal has the epoch of the server. -/
def InEpoch (x : Elector) : Prop := x.proposal.electionEpoch = x.logicCount

/-- The server is in the epoch of a vote, with the vote in its table. -/
def hearing (x : Elector) (vote : Vote) : Elector :=
  if x.logicCount < vote.electionEpoch then
    { x with
      logicCount := vote.electionEpoch
      votes := Votes.put [] vote.idx vote
      proposal := { x.proposal with electionEpoch := vote.electionEpoch } }
  else { x with votes := x.votes.put vote.idx vote }

/-- The server has heard a vote of its epoch or of a later one. -/
def heard (x : Elector) (vote : Vote) : Elector :=
  if (x.hearing vote).proposal.lt vote then (x.hearing vote).adopt vote else x.hearing vote

variable {x : Elector} {vote : Vote} {count : Nat}

theorem start_inEpoch (x : Elector) (zxId : Int64) : (x.start zxId).InEpoch := rfl

theorem hearLooking_none (h : vote.electionEpoch < x.logicCount) : x.hearLooking vote = none := by
  rw [hearLooking, if_neg (Int32.not_lt.mpr (Int32.le_of_lt h)), if_pos h]

/-- A vote that is not of an earlier epoch is put in, and taken over if it is better. -/
theorem hearLooking_eq (h : x.logicCount ≤ vote.electionEpoch) :
    ∃ brocast, x.hearLooking vote = some (x.heard vote, brocast) := by
  rw [hearLooking, heard, hearing]
  split
  next => exact ⟨true, rfl⟩
  next =>
    rw [if_neg (Int32.not_lt.mpr h)]
    refine ⟨x.proposal.lt vote, ?_⟩
    cases hbest : x.proposal.lt vote with
    | true => simp only [hbest, if_true]
    | false => simp only [hbest, Bool.false_eq_true, if_false]

/-- The server is in the epoch of the vote. -/
theorem hearing_inEpoch (hx : x.InEpoch) (h : x.logicCount ≤ vote.electionEpoch) :
    (x.hearing vote).InEpoch ∧ (x.hearing vote).proposal.electionEpoch = vote.electionEpoch ∧
      (x.hearing vote).proposal.voteId = x.proposal.voteId ∧
      (x.hearing vote).proposal.voteZxId = x.proposal.voteZxId := by
  rw [hearing]
  split
  next => exact ⟨rfl, rfl, rfl, rfl⟩
  next hlt =>
    have heq : vote.electionEpoch = x.logicCount := Int32.le_antisymm (Int32.not_lt.mp hlt) h
    exact ⟨hx, hx.trans heq.symm, rfl, rfl⟩

/-- Hearing a vote keeps the queue, the phase and what a proposal names. -/
theorem heard_kept (x : Elector) (vote : Vote) :
    (x.heard vote).queue = x.queue ∧ (x.heard vote).phase = x.phase ∧
      (x.heard vote).id = x.id ∧ (x.heard vote).proposal.idx = x.proposal.idx ∧
      (x.heard vote).leader = x.leader := by
  rw [heard]
  split
  next =>
    rw [adopt, hearing]
    split
    next => exact ⟨rfl, rfl, rfl, rfl, rfl⟩
    next => exact ⟨rfl, rfl, rfl, rfl, rfl⟩
  next =>
    rw [hearing]
    split
    next => exact ⟨rfl, rfl, rfl, rfl, rfl⟩
    next => exact ⟨rfl, rfl, rfl, rfl, rfl⟩

/-- The quorum test of `case LOOKING` is passed, and the confirm window opened. -/
def confirming (x : Elector) : Elector := { x with phase := .confirming }

/-- What a turn does with a vote, by its state. -/
inductive Hears (x : Elector) (count : Nat) (vote : Vote) : Turn → Prop where
  /-- A vote that is left alone. -/
  | ignored : Hears x count vote { elector := x }
  | window {brocast : Bool} : vote.state = .looking → x.logicCount ≤ vote.electionEpoch →
      isVoteOk (x.heard vote).votes vote.voteId vote.electionEpoch count = true →
      Hears x count vote { elector := (x.heard vote).confirming, brocast := brocast }
  | looking {brocast : Bool} : vote.state = .looking → x.logicCount ≤ vote.electionEpoch →
      Hears x count vote { elector := x.heard vote, brocast := brocast }
  | settled {y : Elector} : vote.state = .following ∨ vote.state = .leading →
      x.hearSettled count vote = (y, true) →
      Hears x count vote { elector := y, returned := some vote }
  | unsettled {y : Elector} : vote.state = .following ∨ vote.state = .leading →
      x.hearSettled count vote = (y, false) → Hears x count vote { elector := y }

/-- The turns of the main loop. -/
theorem hear_cases (x : Elector) (count : Nat) (vote : Vote) :
    x.Hears count vote (x.hear count vote) := by
  have hsettled : ∀ {y : Elector} {returned : Bool},
      vote.state = .following ∨ vote.state = .leading → x.hearSettled count vote = (y, returned) →
      x.Hears count vote { elector := y, returned := if returned then some vote else none } := by
    intro y returned hstate h
    cases returned with
    | true => exact .settled hstate h
    | false => exact .unsettled hstate h
  rw [hear]
  cases hstate : vote.state with
  | looking =>
      rcases Int32.lt_or_le vote.electionEpoch x.logicCount with hlt | hle
      · simp only [hearLooking_none hlt]
        exact .ignored
      · obtain ⟨brocast, hsome⟩ := hearLooking_eq hle
        simp only [hsome]
        split
        next hok => exact .window hstate hle hok
        next => exact .looking hstate hle
  | following => exact hsettled (.inl hstate) rfl
  | leading => exact hsettled (.inr hstate) rfl
  | other => exact .ignored

end Elector

/-! ## All servers -/

/-- The servers, and the votes on the way from each to each. -/
structure Elections (n : Nat) where
  server : Fin n → Elector
  net : Fin n → Fin n → List Vote := fun _ _ => []
  /-- What the calls of `LookForLeader` have returned. -/
  returned : List (Fin n × Vote) := []

inductive ElectionAct (n : Nat) where
  /-- `LookForLeader` is called. -/
  | start (i : Fin n) (zxId : Int64)
  /-- The proposal is sent again. -/
  | resend (i : Fin n)
  /-- A turn of the main loop. -/
  | hear (i : Fin n)
  /-- A vote is popped in the confirm window, with what `n` holds. -/
  | confirmPop (i : Fin n) (n : Vote)
  | expire (i : Fin n)
  /-- A turn of the loop in `Echo`. -/
  | echo (i : Fin n)
  /-- A vote reaches the channel of a server. -/
  | deliver (i j : Fin n)
  /-- A connection fails, and only the first votes on it arrive. -/
  | lose (i j : Fin n) (k : Nat)

namespace Elections

variable {n : Nat}

def setServer (s : Elections n) (i : Fin n) (x : Elector) : Elections n :=
  { s with server := Function.update s.server i x }

theorem setServer_self (s : Elections n) (i : Fin n) (x : Elector) :
    (s.setServer i x).server i = x := by
  simp only [setServer, Function.update_self]

theorem setServer_of_ne (s : Elections n) {i j : Fin n} (h : j ≠ i) (x : Elector) :
    (s.setServer i x).server j = s.server j := by
  simp only [setServer, Function.update_of_ne h]

/-- A vote is sent to a server. -/
def send (s : Elections n) (i j : Fin n) (vote : Vote) : Elections n :=
  { s with net := fun a b => if a = i ∧ b = j then s.net a b ++ [vote] else s.net a b }

/-- `Election::BrocastVote`, to every other server. -/
def brocast (s : Elections n) (i : Fin n) (vote : Vote) : Elections n :=
  { s with net := fun a b => if a = i ∧ b ≠ i then s.net a b ++ [vote] else s.net a b }

/-- A call returns. -/
def record (s : Elections n) (i : Fin n) (returned : Option Vote) : Elections n :=
  { s with returned := (returned.map fun vote => (i, vote)).toList ++ s.returned }

/-- The server goes on behind a turn. -/
def apply (s : Elections n) (i : Fin n) (t : Turn) : Elections n :=
  let s := (s.record i t.returned).setServer i t.elector
  if t.brocast then s.brocast i (t.elector.sent t.elector.proposal) else s

/-- The server with an id. -/
def find (s : Elections n) (id : Int32) : Option (Fin n) :=
  (List.finRange n).find? fun i => (s.server i).id = id

def step (s : Elections n) : ElectionAct n → Option (Elections n)
  | .start i zxId =>
      match (s.server i).phase with
      | .idle | .echoing => some (s.setServer i ((s.server i).start zxId))
      | _ => none
  | .resend i =>
      if (s.server i).phase = .searching ∧ (s.server i).queue = [] then
        some (s.brocast i ((s.server i).sent (s.server i).proposal))
      else none
  | .hear i =>
      if (s.server i).phase = .searching then
        (s.server i).take.map fun (vote, x) => s.apply i (x.hear n vote)
      else none
  | .confirmPop i m =>
      if (s.server i).phase = .confirming then
        ((s.server i).confirmPop m).map fun x => s.setServer i x
      else none
  | .expire i =>
      if (s.server i).phase = .confirming then some (s.apply i (s.server i).expire) else none
  | .echo i =>
      match (s.server i).phase, (s.server i).leader, (s.server i).recvCh with
      | .echoing, some leader, vote :: recvCh =>
          let s := s.setServer i { s.server i with recvCh := recvCh }
          match vote.state, s.find vote.idx with
          | .looking, some j => some (s.send i j ((s.server i).sent leader))
          | _, _ => some s
      | _, _, _ => none
  | .deliver i j =>
      match s.net i j with
      | [] => none
      | vote :: votes =>
          some { s with
            net := fun a b => if a = i ∧ b = j then votes else s.net a b
            server := Function.update s.server j
              { s.server j with recvCh := (s.server j).recvCh ++ [vote] } }
  | .lose i j k =>
      some { s with net := fun a b => if a = i ∧ b = j then (s.net a b).take k else s.net a b }

/-- No server has looked for a leader yet. -/
def Fresh (s : Elections n) : Prop :=
  ∃ (id logicCount : Fin n → Int32), Function.Injective id ∧
    s = { server := fun i => { id := id i, logicCount := logicCount i } }

end Elections

/-- The elections of `n` servers. -/
def elections (n : Nat) : Transition.System (Elections n) (ElectionAct n) :=
  Transition.ofStep Elections.Fresh Elections.step

end Paxos
