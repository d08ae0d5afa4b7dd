import Zookeeper.Paxos.Election

/-!
# The role loop of a server

`PaxosImpl::Start` forks a loop that does what `_state` says: look for a leader,
follow one, or lead (`paxos/PaxosImpl.cpp`).  `Elect` sets the state from the vote
that `LookForLeader` returns.  `Leading` and `Following` make a `Lead` or a `Follow`
for one term, and leave the state as it is when the term ends.

How a term ends is an argument: what it did to the epoch, and to the executor that
calls of `DoTransaction` are handed to.

`each_elected_iff` says that every term has an election of its own in no run that
gets to a second term, and `leads_again` is such a run.
-/

namespace Paxos

/-- `Server`. -/
structure Server where
  id : Int32
  ip : String
  electionPort : Int32
  votePort : Int32
deriving DecidableEq, Repr

/-- What a term does to the executor of its server. -/
inductive ExecutorEnd where
  /-- It ends before `SetExecutor`. -/
  | untouched
  /-- It throws behind `SetExecutor(this)`. -/
  | left
  /-- It gets to `SetExecutor(nullptr)`. -/
  | cleared
deriving DecidableEq, Repr

/-- How `Lead::Leading` or `Follow::Following` returns. -/
structure TermEnd where
  peerEpoch : Int32
  executor : ExecutorEnd
deriving DecidableEq, Repr

/-- A call the loop has made. -/
inductive RoleCall where
  /-- `LookForLeader`, with what it returned. -/
  | elect (vote : Vote)
  | leading
  /-- `Following`, of the server in `_leader`. -/
  | following (leader : Server)
deriving DecidableEq, Repr

/-- `PaxosImpl`, less its data set and its transactions. -/
structure RoleLoop where
  id : Int32
  /-- The other servers. -/
  servers : List Server
  state : ElectionState := .looking
  leader : Option Server := none
  peerEpoch : Int32
  /-- The number of the term that `_executor` belongs to. -/
  executor : Option Nat := none
  /-- The calls made so far, the last one first. -/
  calls : List RoleCall := []
deriving DecidableEq

namespace RoleLoop

/-- `PaxosImpl::Elect`, with the vote that `LookForLeader` returns. -/
def elect (l : RoleLoop) (vote : Vote) : RoleLoop :=
  let state : ElectionState := if vote.voteId = l.id then .leading else .following
  { l with
    state := state
    leader :=
      if state = .following then (l.servers.find? fun server => server.id = vote.idx).or l.leader
      else l.leader
    calls := .elect vote :: l.calls }

/-- A term that was entered ends. -/
def finish (l : RoleLoop) (call : RoleCall) (e : TermEnd) : RoleLoop :=
  { l with
    peerEpoch := e.peerEpoch
    executor :=
      match e.executor with
      | .untouched => l.executor
      | .left => some l.calls.length
      | .cleared => none
    calls := call :: l.calls }

end RoleLoop

/-- The turns of the loop. -/
inductive RoleAct where
  | elect (vote : Vote)
  | leading (e : TermEnd)
  | following (e : TermEnd)
deriving DecidableEq, Repr

namespace RoleLoop

/-- One turn of the loop.  Without a leader to follow, the server crashes. -/
def step (l : RoleLoop) : RoleAct → Option RoleLoop
  | .elect vote => if l.state = .looking then some (l.elect vote) else none
  | .leading e => if l.state = .leading then some (l.finish .leading e) else none
  | .following e =>
      if l.state = .following then l.leader.map fun leader => l.finish (.following leader) e
      else none

/-- The loop of a server whose data set has loaded up to `zxId`. -/
def Fresh (l : RoleLoop) : Prop :=
  ∃ id servers peerEpoch, l = { id := id, servers := servers, peerEpoch := peerEpoch }

end RoleLoop

/-- The role loop of one server. -/
def roleLoop : Transition.System RoleLoop RoleAct :=
  Transition.ofStep RoleLoop.Fresh RoleLoop.step

namespace RoleCall

/-- A call of `Leading` or `Following`. -/
def isTerm : RoleCall → Bool
  | .elect _ => false
  | .leading => true
  | .following _ => true

/-- The call is an election that the server `id` enters the term on. -/
def Selects (id : Int32) (term : RoleCall) : RoleCall → Prop
  | .elect vote =>
      match term with
      | .leading => vote.voteId = id
      | .following _ => vote.voteId ≠ id
      | .elect _ => False
  | _ => False

end RoleCall

/-- Between two terms that follow each other lies an election for the second one. -/
def EachElected (l : RoleLoop) : Prop :=
  ∀ later second between first earlier,
    l.calls = later ++ second :: (between ++ first :: earlier) →
    second.isTerm = true → first.isTerm = true → (∀ call ∈ between, call.isTerm = false) →
    ∃ call ∈ between, RoleCall.Selects l.id second call

namespace RoleLoop

variable {l l' : RoleLoop}

/-- The terms entered so far. -/
def terms (l : RoleLoop) : List RoleCall := l.calls.filter RoleCall.isTerm

/-- What every run keeps: once the state has left `LOOKING`, there was an election,
and all calls behind it are terms. -/
def Inv (l : RoleLoop) : Prop :=
  (l.state = .looking ∧ l.calls = []) ∨
    (l.state ≠ .looking ∧ ∃ vote, l.calls = l.terms ++ [.elect vote])

theorem Inv.of_fresh (h : l.Fresh) : l.Inv := by
  obtain ⟨id, servers, peerEpoch, rfl⟩ := h
  exact .inl ⟨rfl, rfl⟩

theorem Inv.finish (h : l.Inv) (hstate : l.state ≠ .looking) {call : RoleCall}
    (hcall : call.isTerm = true) (e : TermEnd) : (l.finish call e).Inv := by
  rcases h with ⟨hlooking, _⟩ | ⟨_, vote, hcalls⟩
  · exact absurd hlooking hstate
  · refine .inr ⟨hstate, vote, ?_⟩
    change call :: l.calls = (call :: l.calls).filter RoleCall.isTerm ++ [.elect vote]
    rw [List.filter_cons_of_pos hcall, List.cons_append]
    exact congrArg (call :: ·) hcalls

theorem Inv.step {a : RoleAct} (h : l.Inv) (hs : l.step a = some l') : l'.Inv := by
  cases a with
  | elect vote =>
      simp only [RoleLoop.step] at hs
      split at hs
      next hlooking =>
        cases hs
        rcases h with ⟨_, hcalls⟩ | ⟨hne, _⟩
        · refine .inr ⟨?_, vote, ?_⟩
          · change (if vote.voteId = l.id then ElectionState.leading else .following) ≠ .looking
            split <;> decide
          · change .elect vote :: l.calls =
              (RoleCall.elect vote :: l.calls).filter RoleCall.isTerm ++ _
            rw [hcalls]
            rfl
        · exact absurd hlooking hne
      next => cases hs
  | leading e =>
      simp only [RoleLoop.step] at hs
      split at hs
      next hleading =>
        cases hs
        exact h.finish (by rw [hleading]; decide) rfl e
      next => cases hs
  | following e =>
      simp only [RoleLoop.step] at hs
      split at hs
      next hfollowing =>
        obtain ⟨leader, _, rfl⟩ := Option.map_eq_some_iff.mp hs
        exact h.finish (by rw [hfollowing]; decide) rfl e
      next => cases hs

theorem Inv.of_reachable (h : roleLoop.Reachable l) : l.Inv :=
  Transition.System.Reachable.invariant (I := Inv) (fun _ hf => Inv.of_fresh hf)
    (fun _ _ _ hi hs => Inv.step hi hs) h

/-- Two terms in a row have no election between them. -/
theorem not_eachElected {first second : RoleCall} {rest earlier : List RoleCall}
    (hcalls : l.calls = second :: first :: earlier ++ rest) (hsecond : second.isTerm = true)
    (hfirst : first.isTerm = true) : ¬ EachElected l := by
  intro h
  obtain ⟨call, hcall, _⟩ := h [] second [] first (earlier ++ rest) (by simpa using hcalls)
    hsecond hfirst (by simp)
  cases hcall

end RoleLoop

/-- Every term has an election of its own if and only if there is at most one. -/
theorem each_elected_iff {l : RoleLoop} (h : roleLoop.Reachable l) :
    EachElected l ↔ l.terms.length ≤ 1 := by
  constructor
  · intro heach
    rcases RoleLoop.Inv.of_reachable h with ⟨_, hcalls⟩ | ⟨_, vote, hcalls⟩
    · simp [RoleLoop.terms, hcalls]
    · by_contra hmany
      obtain ⟨second, first, earlier, hterms⟩ :
          ∃ second first earlier, l.terms = second :: first :: earlier := by
        match hl : l.terms with
        | [] => simp [hl] at hmany
        | [_] => simp [hl] at hmany
        | second :: first :: earlier => exact ⟨second, first, earlier, rfl⟩
      have hmem : ∀ call ∈ second :: first :: earlier, call.isTerm = true := by
        intro call hcall
        exact (List.mem_filter.mp (hterms ▸ hcall)).2
      rw [hterms] at hcalls
      exact RoleLoop.not_eachElected hcalls (hmem second (.head _))
        (hmem first (.tail _ (.head _))) heach
  · intro hone later second between first earlier hcalls hsecond hfirst _
    have htwo : 2 ≤ l.terms.length := by
      simp only [RoleLoop.terms, hcalls, List.filter_append, List.filter_cons_of_pos hsecond,
        List.filter_cons_of_pos hfirst, List.length_append, List.length_cons]
      omega
    omega

/-- Server 1 is elected, leads, and leads again. -/
def secondTerm : List RoleAct :=
  [.elect ⟨1, .looking, 1, 1, 0⟩, .leading ⟨1, .cleared⟩, .leading ⟨2, .cleared⟩]

/-- A server leads a second term on the strength of its first election. -/
theorem leads_again : ¬ ∀ l, roleLoop.Reachable l → EachElected l := by
  intro h
  have hrun : (Transition.exec RoleLoop.step { id := 1, servers := [], peerEpoch := 0 }
      secondTerm).map RoleLoop.calls =
        some [.leading, .leading, .elect ⟨1, .looking, 1, 1, 0⟩] := by
    decide
  obtain ⟨l, hl, hcalls⟩ := Option.map_eq_some_iff.mp hrun
  have htwo : l.calls = .leading :: .leading :: [] ++ [.elect ⟨1, .looking, 1, 1, 0⟩] := hcalls
  exact RoleLoop.not_eachElected htwo rfl rfl
    (h l (Transition.exec_reachable ⟨1, [], 0, rfl⟩ hl))

/-- A server that has led one term had an election for it. -/
theorem each_elected_first :
    EachElected (RoleLoop.finish (RoleLoop.elect { id := 1, servers := [], peerEpoch := 0 }
      ⟨1, .looking, 1, 1, 0⟩) .leading ⟨1, .cleared⟩) :=
  have hrun : Transition.exec RoleLoop.step { id := 1, servers := [], peerEpoch := 0 }
      [.elect ⟨1, .looking, 1, 1, 0⟩, .leading ⟨1, .cleared⟩] =
        some (RoleLoop.finish (RoleLoop.elect { id := 1, servers := [], peerEpoch := 0 }
          ⟨1, .looking, 1, 1, 0⟩) .leading ⟨1, .cleared⟩) := by
    decide
  (each_elected_iff (Transition.exec_reachable ⟨1, [], 0, rfl⟩ hrun)).mpr (by decide)

end Paxos
