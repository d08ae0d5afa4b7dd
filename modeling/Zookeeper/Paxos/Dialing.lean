import Zookeeper.Paxos.Decision
import Zookeeper.Paxos.RoleLoop

/-!
# Dialling the leader

`PaxosImpl::Elect` follows the server that has sent the vote which `LookForLeader`
returns, and not the one that the vote is for (`paxos/PaxosImpl.cpp`).  Behind the
confirm window the vote is the server's own proposal, and no other server has its id.

`dials_leader_iff` says that the elected server is dialled exactly where the call
returns on a vote that this server has sent itself.
-/

namespace Paxos

/-- Behind `Elect`, `Following` connects to the server that was elected. -/
def RoleLoop.Dials (l : RoleLoop) (vote : Vote) : Prop :=
  ∃ leader, (l.elect vote).leader = some leader ∧ leader.id = vote.voteId

/-- The main loop takes up a vote for the server that has sent it. -/
def FromLeader (s : Listener) : ListenerAct → Prop
  | .hear => ∀ p ∈ s.elector.take, p.1.idx = p.1.voteId
  | _ => False

instance (s : Listener) : ∀ a, Decidable (FromLeader s a)
  | .hear => inferInstanceAs (Decidable (∀ p ∈ s.elector.take, _))
  | .start _ => inferInstanceAs (Decidable False)
  | .arrive _ => inferInstanceAs (Decidable False)
  | .confirmPop _ => inferInstanceAs (Decidable False)
  | .expire => inferInstanceAs (Decidable False)
  | .echo => inferInstanceAs (Decidable False)

/-! ## Whose vote a proposal is -/

namespace Elector

/-- The proposal is the server's own vote. -/
def OwnProposal (x : Elector) : Prop := x.phase ≠ .idle → x.proposal.idx = x.id

variable {x y : Elector} {vote : Vote} {count : Nat}

/-- Taking a vote keeps the server and its proposal. -/
theorem take_kept (h : x.take = some (vote, y)) :
    y.id = x.id ∧ y.proposal = x.proposal ∧ y.phase = x.phase := by
  simp only [Elector.take] at h
  split at h
  next => cases h; exact ⟨rfl, rfl, rfl⟩
  next => cases h; exact ⟨rfl, rfl, rfl⟩
  next => cases h

theorem OwnProposal.take (hx : x.OwnProposal) (h : x.take = some (vote, y)) :
    y.OwnProposal := by
  obtain ⟨hid, hproposal, hphase⟩ := take_kept h
  intro hidle
  rw [hid, hproposal]
  exact hx (hphase ▸ hidle)

theorem OwnProposal.heard (hx : x.OwnProposal) (vote : Vote) : (x.heard vote).OwnProposal := by
  obtain ⟨-, hphase, hid, hidx, -⟩ := heard_kept x vote
  intro hidle
  rw [hid, hidx]
  exact hx (hphase ▸ hidle)

/-- A turn of the main loop keeps the proposal the server's own. -/
theorem OwnProposal.hear (hx : x.OwnProposal) (hidle : x.phase ≠ .idle) (count : Nat)
    (vote : Vote) : (x.hear count vote).elector.OwnProposal ∧
      (x.hear count vote).elector.id = x.id ∧
      ∀ v ∈ (x.hear count vote).returned, v = vote := by
  have hsettled : ∀ {y : Elector} {returned : Bool}, x.hearSettled count vote = (y, returned) →
      y.OwnProposal ∧ y.id = x.id := by
    intro y returned h
    rw [hearSettled_eq] at h
    split at h
    next => cases h; exact ⟨fun _ => hx hidle, rfl⟩
    next =>
      split at h
      next => cases h; exact ⟨fun _ => hx hidle, rfl⟩
      next => cases h; exact ⟨fun _ => hx hidle, rfl⟩
  have hheard := hx.heard vote
  obtain ⟨-, hphase, hid, -, -⟩ := heard_kept x vote
  have hturn := x.hear_cases count vote
  generalize x.hear count vote = t at hturn ⊢
  cases hturn with
  | ignored => exact ⟨hx, rfl, fun v hv => by cases hv⟩
  | window => exact ⟨fun _ => hheard (hphase ▸ hidle), hid, fun v hv => by cases hv⟩
  | looking => exact ⟨hheard, hid, fun v hv => by cases hv⟩
  | settled _ h =>
      obtain ⟨hown, hsame⟩ := hsettled h
      exact ⟨hown, hsame, fun v hv => (Option.some.inj hv).symm⟩
  | unsettled _ h =>
      obtain ⟨hown, hsame⟩ := hsettled h
      exact ⟨hown, hsame, fun v hv => by cases hv⟩

end Elector

namespace Listener

variable {s s' : Listener} {a : ListenerAct} {d : Decision} {count : Nat}

/-- What a step returns: nothing, the vote that the main loop takes up, or the proposal. -/
structure Returns (s : Listener) (a : ListenerAct) (s' : Listener) : Prop where
  own : s'.elector.OwnProposal
  id : s'.elector.id = s.elector.id
  decisions : s'.decisions = s.decisions ∨ ∃ d, s'.decisions = d :: s.decisions ∧
    d.id = s.elector.id ∧
    ((a = .hear ∧ ∃ x, s.elector.take = some (d.vote, x)) ∨
      (a = .expire ∧ d.vote.idx = s.elector.id))

theorem Returns.step (h : s.elector.OwnProposal) (hs : s.step count a = some s') :
    s.Returns a s' := by
  cases a with
  | start zxId =>
      simp only [Listener.step] at hs
      split at hs
      next => cases hs; exact ⟨fun _ => rfl, rfl, .inl rfl⟩
      next => cases hs; exact ⟨fun _ => rfl, rfl, .inl rfl⟩
      next => cases hs
  | arrive vote =>
      cases hs
      exact ⟨h, rfl, .inl rfl⟩
  | hear =>
      simp only [Listener.step] at hs
      split at hs
      next hphase =>
        obtain ⟨⟨vote, x⟩, htake, rfl⟩ := Option.map_eq_some_iff.mp hs
        obtain ⟨hid, -, hsame⟩ := Elector.take_kept htake
        have hidle : x.phase ≠ .idle := by
          rw [hsame, hphase]
          decide
        obtain ⟨hown, hkept, hvote⟩ := (h.take htake).hear hidle count vote
        have happly : ∀ (table : Votes) (epoch : Vote → Int32),
            s.Returns .hear (s.apply (x.hear count vote) table epoch) := by
          intro table epoch
          refine ⟨hown, hkept.trans hid, ?_⟩
          rw [Listener.apply]
          cases hreturned : (x.hear count vote).returned with
          | none => exact .inl rfl
          | some v =>
              have hv : v = vote := hvote v hreturned
              exact .inr ⟨_, rfl, hkept.trans hid, .inl ⟨rfl, x, hv ▸ htake⟩⟩
        simp only [Listener.hear]
        split
        next => exact happly _ _
        next => exact happly _ _
      next => cases hs
  | confirmPop n =>
      simp only [Listener.step] at hs
      split at hs
      next hphase =>
        obtain ⟨x, hpop, rfl⟩ := Option.map_eq_some_iff.mp hs
        have hown : s.elector.proposal.idx = s.elector.id := h (by rw [hphase]; decide)
        simp only [Elector.confirmPop] at hpop
        split at hpop
        next => cases hpop
        next =>
          cases hpop
          split
          next => exact ⟨fun _ => hown, rfl, .inl rfl⟩
          next => exact ⟨fun _ => hown, rfl, .inl rfl⟩
      next => cases hs
  | expire =>
      simp only [Listener.step] at hs
      split at hs
      next hphase =>
        cases hs
        have hown : s.elector.proposal.idx = s.elector.id := h (by rw [hphase]; decide)
        rw [Listener.apply, Elector.expire]
        split
        next => exact ⟨fun _ => hown, rfl, .inr ⟨_, rfl, rfl, .inr ⟨rfl, hown⟩⟩⟩
        next => exact ⟨fun _ => hown, rfl, .inl rfl⟩
      next => cases hs
  | echo =>
      simp only [Listener.step] at hs
      split at hs
      next => cases hs; exact ⟨h, rfl, .inl rfl⟩
      next => cases hs

theorem own_of_reachable (h : (listener count).Reachable s) : s.elector.OwnProposal := by
  refine Transition.System.Reachable.invariant (I := fun s => s.elector.OwnProposal) ?_
    (fun _ _ _ hi hs => (Returns.step hi hs).own) h
  rintro s ⟨id, logicCount, rfl⟩
  exact fun hidle => absurd rfl hidle

end Listener

/-! ## Whom the server follows -/

namespace RoleLoop

variable {l : RoleLoop} {vote : Vote}

/-- A server that looks for a leader has none. -/
def Unled (l : RoleLoop) : Prop := l.state = .looking → l.leader = none

theorem Unled.step {a : RoleAct} {l' : RoleLoop} (h : l.Unled) (hs : l.step a = some l') :
    l'.Unled := by
  intro hnew
  cases a with
  | elect vote =>
      rw [RoleLoop.step] at hs
      split at hs
      next =>
        cases hs
        rw [RoleLoop.elect] at hnew
        dsimp only at hnew
        split at hnew
        next => cases hnew
        next => cases hnew
      next => cases hs
  | leading e =>
      rw [RoleLoop.step] at hs
      split at hs
      next => cases hs; exact h hnew
      next => cases hs
  | following e =>
      rw [RoleLoop.step] at hs
      split at hs
      next =>
        obtain ⟨leader, -, rfl⟩ := Option.map_eq_some_iff.mp hs
        exact h hnew
      next => cases hs

theorem unled_of_reachable (h : roleLoop.Reachable l) : l.Unled := by
  refine Transition.System.Reachable.invariant ?_ (fun _ _ _ => Unled.step) h
  rintro l ⟨id, servers, peerEpoch, rfl⟩ _
  rfl

/-- The elected server is dialled if it has sent the vote. -/
theorem dials_iff (hleader : l.leader = none) (hne : vote.voteId ≠ l.id)
    (hconf : ∃ server ∈ l.servers, server.id = vote.voteId) :
    l.Dials vote ↔ vote.idx = vote.voteId := by
  have helect : (l.elect vote).leader = l.servers.find? fun server => server.id = vote.idx := by
    rw [RoleLoop.elect]
    dsimp only
    rw [if_neg hne, if_pos rfl, hleader, Option.or_none]
  rw [Dials, helect]
  constructor
  · rintro ⟨leader, hfind, hid⟩
    have hidx : leader.id = vote.idx := by simpa using List.find?_some hfind
    exact hidx.symm.trans hid
  · intro hidx
    obtain ⟨server, hserver, hid⟩ := hconf
    have hsome : (l.servers.find? fun server => server.id = vote.idx).isSome = true :=
      List.find?_isSome.mpr ⟨server, hserver, by simp [hid, hidx]⟩
    obtain ⟨leader, hfind⟩ := Option.isSome_iff_exists.mp hsome
    have hleaderId : leader.id = vote.idx := by simpa using List.find?_some hfind
    exact ⟨leader, hfind, hleaderId.trans hidx⟩

end RoleLoop

/-- Behind a call of `LookForLeader` that has elected another server, that server is
dialled exactly if the call has returned on a vote that came from there. -/
theorem dials_leader_iff {count : Nat} {s s' : Listener} {a : ListenerAct} {d : Decision}
    (h : (listener count).Reachable s) (hstep : s.step count a = some s')
    (hreturned : s'.decisions = d :: s.decisions) {l : RoleLoop} (hl : roleLoop.Reachable l)
    (hlooking : l.state = .looking) (hid : l.id = s.elector.id) (hne : d.vote.voteId ≠ l.id)
    (hconf : ∃ server ∈ l.servers, server.id = d.vote.voteId) :
    l.Dials d.vote ↔ FromLeader s a := by
  rw [RoleLoop.dials_iff (RoleLoop.unled_of_reachable hl hlooking) hne hconf]
  rcases (Listener.Returns.step (Listener.own_of_reachable h) hstep).decisions with
    hsame | ⟨d', hd, -, ⟨rfl, x, htake⟩ | ⟨rfl, hown⟩⟩
  · rw [hreturned] at hsame
    exact absurd hsame (List.cons_ne_self d s.decisions)
  · rw [hreturned] at hd
    obtain ⟨rfl, -⟩ := List.cons.inj hd
    simp [FromLeader, htake]
  · rw [hreturned] at hd
    obtain ⟨rfl, -⟩ := List.cons.inj hd
    -- the proposal has the server's own id, and that is not the elected one
    refine iff_of_false (fun hidx => hne ?_) id
    rw [← hidx, hown, hid]

/-- A server of three that has not called yet. -/
def diallingListener : Listener := { elector := { id := 1 } }

/-- The role loop of the same server. -/
def firstLoop : RoleLoop :=
  { id := 1, servers := [⟨2, "", 0, 0⟩, ⟨3, "", 0, 0⟩], peerEpoch := 0 }

theorem diallingListener_fresh : diallingListener.Fresh := ⟨1, 0, rfl⟩

theorem firstLoop_reachable : roleLoop.Reachable firstLoop := .start ⟨1, _, 0, rfl⟩

/-- Server 2 follows server 3, which says that it leads. -/
def joinsLeader : List ListenerAct :=
  [.start 0, .arrive ⟨2, .following, 5, 3, 0⟩, .hear, .arrive ⟨3, .leading, 5, 3, 0⟩]

/-- Server 3 is elected, by its own vote and that of the first server. -/
def electsThird : List ListenerAct :=
  [.start 0, .arrive ⟨3, .looking, 1, 3, 0⟩, .hear]

/-- Where the vote of the leader is to be taken up. -/
def joiningListener : Listener :=
  (Transition.exec (Listener.step 3) diallingListener joinsLeader).get (by decide)

/-- Where the confirm window is to run out. -/
def confirmingListener : Listener :=
  (Transition.exec (Listener.step 3) diallingListener electsThird).get (by decide)

theorem joiningListener_reachable : (listener 3).Reachable joiningListener :=
  Transition.exec_reachable diallingListener_fresh (Option.some_get _).symm

theorem confirmingListener_reachable : (listener 3).Reachable confirmingListener :=
  Transition.exec_reachable diallingListener_fresh (Option.some_get _).symm

theorem dials_leader_iff_joinsLeader :
    ∃ s d, joiningListener.step 3 .hear = some s ∧ s.decisions = d :: joiningListener.decisions ∧
      (firstLoop.Dials d.vote ↔ FromLeader joiningListener .hear) :=
  ⟨_, _, rfl, rfl, dials_leader_iff joiningListener_reachable rfl rfl firstLoop_reachable rfl rfl
    (by decide) ⟨⟨3, "", 0, 0⟩, by decide, rfl⟩⟩

/-- Behind an election among servers that look for a leader, there is nobody to dial. -/
theorem own_vote_dialled :
    ¬ ∀ s s' : Listener, (listener 3).Reachable s → ∀ a d, s.step 3 a = some s' →
      s'.decisions = d :: s.decisions → ∀ l : RoleLoop, roleLoop.Reachable l →
      l.state = .looking → l.id = s.elector.id → d.vote.voteId ≠ l.id →
      (∃ server ∈ l.servers, server.id = d.vote.voteId) → l.Dials d.vote := by
  intro h
  obtain ⟨leader, hleader, -⟩ := h _ _ confirmingListener_reachable .expire _ rfl rfl
    firstLoop firstLoop_reachable rfl rfl (by decide) ⟨⟨3, "", 0, 0⟩, by decide, rfl⟩
  have hnone : (firstLoop.elect confirmingListener.elector.proposal).leader = none := by decide
  exact absurd (hnone.symm.trans hleader) (by simp)

end Paxos
