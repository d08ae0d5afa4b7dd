import Mathlib.Data.Finset.Card
import Zookeeper.Paxos.Election

/-!
# What a decision rests on

`LookForLeader` returns at three points.  Behind the confirm window it returns its
proposal, where a majority backs the leader of *the vote it has just heard*, and
`third_vote_decides` is a run in which these are two leaders.  At the other two points
it returns the vote that was tested.

A `Listener` is one server to which any votes may come, with the decisions of its
calls.  `decisions_backed` says that a majority backs every decision, in the table that
was checked, where a vote only opens a confirm window for the leader that the server
proposes.
-/

namespace Paxos

/-! ## Tables of votes -/

/-- A table has one entry for each server. -/
def Votes.Unique (votes : Votes) : Prop := (votes.map Prod.fst).Nodup

theorem Votes.unique_nil : Votes.Unique [] := List.nodup_nil

theorem Votes.Unique.put {votes : Votes} (h : votes.Unique) (idx : Int32) (vote : Vote) :
    (votes.put idx vote).Unique := by
  rw [Unique, Votes.put, List.map_cons, List.nodup_cons]
  refine ⟨?_, h.sublist (List.filter_sublist.map _)⟩
  intro hmem
  obtain ⟨p, hp, hidx⟩ := List.mem_map.mp hmem
  have hne : p.1 ≠ idx := by simpa using (List.mem_filter.mp hp).2
  exact hne hidx

/-- At least `count / 2 + 1` servers have a vote for the leader in the table. -/
def Votes.Backs (votes : Votes) (leader electionEpoch : Int32) (count : Nat) : Prop :=
  ∃ ids : Finset Int32, count / 2 + 1 ≤ ids.card ∧
    ∀ i ∈ ids, ∃ w, (i, w) ∈ votes ∧ w.voteId = leader ∧ w.electionEpoch = electionEpoch

theorem Votes.Unique.backs {votes : Votes} (h : votes.Unique) {leader e : Int32} {count : Nat}
    (hok : isVoteOk votes leader e count = true) : votes.Backs leader e count := by
  have hnodup : ((votes.backing leader e).map Prod.fst).Nodup :=
    h.sublist (List.filter_sublist.map _)
  refine ⟨((votes.backing leader e).map Prod.fst).toFinset, ?_, ?_⟩
  · rw [List.toFinset_card_of_nodup hnodup, List.length_map]
    simpa [isVoteOk] using hok
  · intro i hi
    obtain ⟨p, hp, rfl⟩ := List.mem_map.mp (List.mem_toFinset.mp hi)
    obtain ⟨hmem, hvote⟩ := List.mem_filter.mp hp
    have hboth : p.2.electionEpoch = e ∧ p.2.voteId = leader := by simpa using hvote
    exact ⟨p.2, hmem, hboth.2, hboth.1⟩

/-! ## The tests of a turn -/

namespace Elector

/-- The table `votes` behind the first lines of `case LEADING`. -/
def votesWith (x : Elector) (vote : Vote) : Votes :=
  if vote.electionEpoch = x.logicCount then x.votes.put vote.idx vote else x.votes

/-- The table `otherVote` with a vote put in. -/
def otherVoteWith (x : Elector) (vote : Vote) : Votes :=
  x.otherVote.put vote.idx ⟨vote.idx, vote.state, -1, vote.voteId, -1⟩

/-- The test of the second return point. -/
def SettledHere (x : Elector) (count : Nat) (vote : Vote) : Prop :=
  vote.electionEpoch = x.logicCount ∧
    isVoteOk (x.votesWith vote) vote.voteId vote.electionEpoch count = true ∧
    checkLeader x.id x.otherVote vote.voteId true = true

/-- The test of the third return point. -/
def SettledElsewhere (x : Elector) (count : Nat) (vote : Vote) : Prop :=
  isVoteOk (x.otherVoteWith vote) vote.voteId (-1) count = true ∧
    checkLeader x.id (x.otherVoteWith vote) vote.voteId false = true

instance (x : Elector) (count : Nat) (vote : Vote) : Decidable (x.SettledHere count vote) :=
  inferInstanceAs (Decidable (_ ∧ _ ∧ _))

instance (x : Elector) (count : Nat) (vote : Vote) : Decidable (x.SettledElsewhere count vote) :=
  inferInstanceAs (Decidable (_ ∧ _))

/-- `case LEADING` where it does not return at its first test. -/
def settling (x : Elector) (vote : Vote) : Elector :=
  { x with votes := x.votesWith vote, otherVote := x.otherVoteWith vote }

/-- The two return points of `case LEADING`. -/
theorem hearSettled_eq (x : Elector) (count : Nat) (vote : Vote) :
    x.hearSettled count vote =
      if x.SettledHere count vote then
        (({ x with votes := x.votesWith vote } : Elector).finish vote, true)
      else if x.SettledElsewhere count vote then ((x.settling vote).finish vote, true)
      else (x.settling vote, false) := by
  have hfirst : (if vote.electionEpoch = x.logicCount then
      { x with votes := x.votes.put vote.idx vote } else x) =
        ({ x with votes := x.votesWith vote } : Elector) := by
    rw [votesWith]
    split
    next => rfl
    next => rfl
  simp only [hearSettled, hfirst]
  rfl

end Elector

/-! ## One server and its decisions -/

/-- What a call of `LookForLeader` has returned. -/
structure Decision where
  /-- The server that called. -/
  id : Int32
  vote : Vote
  /-- `_state` behind the call. -/
  state : ElectionState
  /-- The table that was checked, and the epoch it was checked for. -/
  table : Votes
  epoch : Int32
deriving DecidableEq

/-- One server, and what its calls have returned. -/
structure Listener where
  elector : Elector
  decisions : List Decision := []

inductive ListenerAct where
  | start (zxId : Int64)
  /-- A vote comes. -/
  | arrive (vote : Vote)
  /-- A turn of the main loop. -/
  | hear
  /-- A vote is popped in the confirm window, with what `n` holds. -/
  | confirmPop (n : Vote)
  | expire
  /-- A turn of the loop in `Echo`. -/
  | echo

namespace Listener

/-- The server goes on behind a turn in which a table was checked. -/
def apply (s : Listener) (t : Turn) (table : Votes) (epoch : Vote → Int32) : Listener where
  elector := t.elector
  decisions :=
    (t.returned.map fun vote =>
      ⟨t.elector.id, vote, t.elector.state, table, epoch vote⟩).toList ++ s.decisions

/-- The server goes on behind a turn of its main loop. -/
def hear (s : Listener) (count : Nat) (vote : Vote) (x : Elector) : Listener :=
  let t := x.hear count vote
  if x.SettledHere count vote then s.apply t t.elector.votes Vote.electionEpoch
  else s.apply t t.elector.otherVote fun _ => -1

def step (count : Nat) (s : Listener) : ListenerAct → Option Listener
  | .start zxId =>
      match s.elector.phase with
      | .idle | .echoing => some { s with elector := s.elector.start zxId }
      | _ => none
  | .arrive vote =>
      some { s with elector := { s.elector with recvCh := s.elector.recvCh ++ [vote] } }
  | .hear =>
      if s.elector.phase = .searching then
        s.elector.take.map fun (vote, x) => s.hear count vote x
      else none
  | .confirmPop n =>
      if s.elector.phase = .confirming then
        (s.elector.confirmPop n).map fun x => { s with elector := x }
      else none
  | .expire =>
      if s.elector.phase = .confirming then
        let t := s.elector.expire
        some (s.apply t t.elector.votes Vote.electionEpoch)
      else none
  | .echo =>
      match s.elector.phase, s.elector.recvCh with
      | .echoing, _ :: recvCh => some { s with elector := { s.elector with recvCh := recvCh } }
      | _, _ => none

/-- The server has not looked for a leader yet. -/
def Fresh (s : Listener) : Prop :=
  ∃ id logicCount : Int32, s = { elector := { id := id, logicCount := logicCount } }

end Listener

/-- One server of a cluster of `count` servers, to which any votes may come. -/
def listener (count : Nat) : Transition.System Listener ListenerAct :=
  Transition.ofStep Listener.Fresh (Listener.step count)

/-! ## The invariant -/

/-- A vote that completes a majority for its leader beats the proposal, or is for the
leader that the server proposes.  Where more than `count` servers have voted, that
leader may have its own majority. -/
def Elector.BacksProposal (x : Elector) (count : Nat) (vote : Vote) : Prop :=
  vote.state = .looking → x.logicCount ≤ vote.electionEpoch →
    isVoteOk (x.hearing vote).votes vote.voteId vote.electionEpoch count = true →
    (x.hearing vote).proposal.lt vote = true ∨ vote.voteId = x.proposal.voteId ∨
      isVoteOk (x.hearing vote).votes x.proposal.voteId vote.electionEpoch count = true

instance (x : Elector) (count : Nat) (vote : Vote) : Decidable (x.BacksProposal count vote) :=
  inferInstanceAs (Decidable (_ → _ → _ → _))

/-- Every vote that the main loop takes up backs the proposal, where it opens a window. -/
def OpensForProposal (count : Nat) (s : Listener) : ListenerAct → Prop
  | .hear => ∀ p ∈ s.elector.take, p.2.BacksProposal count p.1
  | _ => True

instance (count : Nat) (s : Listener) : ∀ a, Decidable (OpensForProposal count s a)
  | .hear => inferInstanceAs (Decidable (∀ p ∈ s.elector.take, _))
  | .start _ => inferInstanceAs (Decidable True)
  | .arrive _ => inferInstanceAs (Decidable True)
  | .confirmPop _ => inferInstanceAs (Decidable True)
  | .expire => inferInstanceAs (Decidable True)
  | .echo => inferInstanceAs (Decidable True)

/-- A majority backs the decision in the table that was checked, and the server leads
exactly if it was elected itself. -/
def Decision.Sound (d : Decision) (count : Nat) : Prop :=
  d.table.Backs d.vote.voteId d.epoch count ∧
    d.state = if d.vote.voteId = d.id then .leading else .following

namespace Elector

variable {x y : Elector} {vote : Vote} {count : Nat}

/-- The tables have one entry for each server, and in the confirm window a majority
backs the proposal. -/
structure Sound (x : Elector) (count : Nat) : Prop where
  inEpoch : x.phase ≠ .idle → x.InEpoch
  votes : x.votes.Unique
  otherVote : x.otherVote.Unique
  window : x.phase = .confirming →
    isVoteOk x.votes x.proposal.voteId x.proposal.electionEpoch count = true

theorem Sound.start (x : Elector) (zxId : Int64) (count : Nat) : (x.start zxId).Sound count where
  inEpoch _ := start_inEpoch x zxId
  votes := Votes.unique_nil.put x.id _
  otherVote := Votes.unique_nil
  window h := by cases h

theorem Sound.take (hx : x.Sound count) (h : x.take = some (vote, y)) : y.Sound count := by
  simp only [Elector.take] at h
  split at h
  next =>
    cases h
    exact ⟨hx.inEpoch, hx.votes, hx.otherVote, hx.window⟩
  next =>
    cases h
    exact ⟨hx.inEpoch, hx.votes, hx.otherVote, hx.window⟩
  next => cases h

/-- Taking a vote changes nothing but the queue and the channel. -/
theorem take_phase (h : x.take = some (vote, y)) : y.phase = x.phase := by
  simp only [Elector.take] at h
  split at h
  next => cases h; rfl
  next => cases h; rfl
  next => cases h

theorem Sound.hearing (hx : x.Sound count) (hphase : x.phase = .searching)
    (hle : x.logicCount ≤ vote.electionEpoch) : (x.hearing vote).Sound count := by
  have hepoch : x.InEpoch := hx.inEpoch (by rw [hphase]; decide)
  have hy := (hearing_inEpoch hepoch hle).1
  rw [Elector.hearing] at hy ⊢
  split at hy
  next hlt =>
    rw [if_pos hlt]
    exact ⟨fun _ => hy, Votes.unique_nil.put _ _, hx.otherVote, fun h =>
      absurd (hphase.symm.trans h) (by simp)⟩
  next hlt =>
    rw [if_neg hlt]
    exact ⟨fun _ => hy, hx.votes.put _ _, hx.otherVote, fun h => by rw [hphase] at h; cases h⟩

/-- `case LOOKING` up to the quorum test. -/
theorem Sound.heard (hx : x.Sound count) (hphase : x.phase = .searching)
    (hle : x.logicCount ≤ vote.electionEpoch) : (x.heard vote).Sound count := by
  have hy := hx.hearing hphase hle
  have hno : (x.heard vote).phase ≠ .confirming := by
    rw [(heard_kept x vote).2.1, hphase]
    decide
  rw [Elector.heard] at hno ⊢
  split at hno
  next hlt =>
    rw [if_pos hlt]
    exact ⟨hy.inEpoch, hy.votes.put _ _, hy.otherVote, fun h => absurd h hno⟩
  next hlt =>
    rw [if_neg hlt]
    exact hy

/-- A window is opened where a majority backs the proposal. -/
theorem BacksProposal.window (h : x.BacksProposal count vote) (hx : x.InEpoch)
    (hlooking : vote.state = .looking) (hle : x.logicCount ≤ vote.electionEpoch)
    (hok : isVoteOk (x.heard vote).votes vote.voteId vote.electionEpoch count = true) :
    isVoteOk (x.heard vote).votes (x.heard vote).proposal.voteId
      (x.heard vote).proposal.electionEpoch count = true := by
  obtain ⟨_, hepoch, hid, _⟩ := hearing_inEpoch hx hle
  rw [Elector.heard] at hok ⊢
  split at hok
  next hlt =>
    rw [if_pos hlt]
    rw [← hepoch] at hok
    exact hok
  next hlt =>
    rw [if_neg hlt, hid, hepoch]
    rcases h hlooking hle hok with hbeaten | hsame | hown
    · exact absurd hbeaten hlt
    · rw [← hsame]
      exact hok
    · exact hown

theorem Sound.confirming (hx : x.Sound count) (hne : x.phase ≠ .idle)
    (hok : isVoteOk x.votes x.proposal.voteId x.proposal.electionEpoch count = true) :
    x.confirming.Sound count where
  inEpoch _ := hx.inEpoch hne
  votes := hx.votes
  otherVote := hx.otherVote
  window _ := hok

theorem Sound.settling (hx : x.Sound count) (hphase : x.phase = .searching) (vote : Vote) :
    (x.settling vote).Sound count where
  inEpoch := hx.inEpoch
  votes := by
    rw [Elector.settling, votesWith]
    split
    next => exact hx.votes.put _ _
    next => exact hx.votes
  otherVote := hx.otherVote.put _ _
  window h := by
    rw [show (x.settling vote).phase = x.phase from rfl, hphase] at h
    cases h

theorem Sound.finish (hx : x.Sound count) (hphase : x.phase ≠ .idle) (vote : Vote) :
    (x.finish vote).Sound count where
  inEpoch _ := hx.inEpoch hphase
  votes := hx.votes
  otherVote := hx.otherVote
  window h := by cases h

/-- A vote popped in the confirm window changes neither the tables nor the proposal. -/
theorem Sound.confirmPop {n : Vote} (hx : x.Sound count) (hphase : x.phase = .confirming)
    (h : x.confirmPop n = some y) : y.Sound count := by
  have hepoch : x.InEpoch := hx.inEpoch (by rw [hphase]; decide)
  simp only [Elector.confirmPop] at h
  split at h
  next => cases h
  next vote recvCh _ =>
    cases h
    split
    next => exact ⟨fun _ => hepoch, hx.votes, hx.otherVote, fun h => by cases h⟩
    next => exact ⟨fun _ => hepoch, hx.votes, hx.otherVote, hx.window⟩

/-- What is returned behind the confirm window is the proposal. -/
theorem Sound.expire (hx : x.Sound count) (hphase : x.phase = .confirming) :
    x.expire.elector.Sound count ∧ ∀ v ∈ x.expire.returned,
      x.expire.elector.votes.Backs v.voteId v.electionEpoch count ∧
      x.expire.elector.state = if v.voteId = x.expire.elector.id then .leading else .following := by
  have hne : x.phase ≠ .idle := by
    rw [hphase]
    decide
  rw [Elector.expire]
  split
  next =>
    refine ⟨hx.finish hne _, fun v hv => ?_⟩
    cases hv
    exact ⟨hx.votes.backs (hx.window hphase), rfl⟩
  next =>
    refine ⟨?_, fun v hv => by cases hv⟩
    exact ⟨fun _ => hx.inEpoch hne, hx.votes, hx.otherVote, fun h => by cases h⟩

/-- The two tests of `case LEADING`. -/
theorem Sound.hearSettled {returned : Bool} (hx : x.Sound count) (hphase : x.phase = .searching)
    (h : x.hearSettled count vote = (y, returned)) :
    y.Sound count ∧ (returned = true →
      (if x.SettledHere count vote then y.votes.Backs vote.voteId vote.electionEpoch count
        else y.otherVote.Backs vote.voteId (-1) count) ∧
      y.state = if vote.voteId = y.id then .leading else .following) := by
  have hne : x.phase ≠ .idle := by
    rw [hphase]
    decide
  have hz := hx.settling hphase vote
  rw [hearSettled_eq] at h
  split at h
  next hhere =>
    cases h
    have hw : ({ x with votes := x.votesWith vote } : Elector).Sound count :=
      ⟨hx.inEpoch, hz.votes, hx.otherVote, fun h => by rw [hphase] at h; cases h⟩
    refine ⟨hw.finish hne vote, fun _ => ?_⟩
    rw [if_pos hhere]
    exact ⟨hw.votes.backs hhere.2.1, rfl⟩
  next hhere =>
    split at h
    next helse =>
      cases h
      refine ⟨hz.finish hne vote, fun _ => ?_⟩
      rw [if_neg hhere]
      exact ⟨hz.otherVote.backs helse.1, rfl⟩
    next =>
      cases h
      exact ⟨hz, fun h => by cases h⟩

end Elector

namespace Listener

variable {s s' : Listener} {count : Nat}

/-- The server is sound, and so are its decisions. -/
structure Inv (s : Listener) (count : Nat) : Prop where
  elector : s.elector.Sound count
  decisions : ∀ d ∈ s.decisions, d.Sound count

theorem Inv.of_fresh (h : s.Fresh) : s.Inv count := by
  obtain ⟨id, logicCount, rfl⟩ := h
  exact
    { elector := ⟨fun h => absurd rfl h, Votes.unique_nil, Votes.unique_nil, fun h => by cases h⟩
      decisions := fun d hd => by cases hd }

/-- A turn that returns what was tested. -/
theorem Inv.apply (h : s.Inv count) {t : Turn} {table : Votes} {epoch : Vote → Int32}
    (ht : t.elector.Sound count)
    (hreturned : ∀ v ∈ t.returned, table.Backs v.voteId (epoch v) count ∧
      t.elector.state = if v.voteId = t.elector.id then .leading else .following) :
    (s.apply t table epoch).Inv count where
  elector := ht
  decisions d hd := by
    rcases List.mem_append.mp hd with hd | hd
    · obtain ⟨v, hv, rfl⟩ := Option.map_eq_some_iff.mp (Option.mem_toList.mp hd)
      exact hreturned v hv
    · exact h.decisions d hd

/-- A turn of the main loop. -/
theorem Inv.hear (h : s.Inv count) {vote : Vote} {x : Elector}
    (htake : s.elector.take = some (vote, x)) (hphase : x.phase = .searching)
    (hback : x.BacksProposal count vote) : (s.hear count vote x).Inv count := by
  have hx := h.elector.take htake
  have hne : x.phase ≠ .idle := by
    rw [hphase]
    decide
  have hnone : ∀ {t : Turn} {table : Votes} {epoch : Vote → Int32}, t.elector.Sound count →
      t.returned = none → (s.apply t table epoch).Inv count := fun ht hreturned =>
    h.apply ht fun v hv => by rw [hreturned] at hv; cases hv
  have hturn := Elector.hear_cases x count vote
  simp only [Listener.hear]
  generalize x.hear count vote = t at hturn ⊢
  cases hturn with
  | ignored => split <;> exact hnone hx rfl
  | window hlooking hle hok =>
      have hwindow := hback.window (hx.inEpoch hne) hlooking hle hok
      have hkept : (x.heard vote).phase ≠ .idle := by
        rw [(Elector.heard_kept x vote).2.1]
        exact hne
      split <;> exact hnone ((hx.heard hphase hle).confirming hkept hwindow) rfl
  | looking _ hle => split <;> exact hnone (hx.heard hphase hle) rfl
  | settled _ hsettled =>
      obtain ⟨hsound, hbacked⟩ := hx.hearSettled hphase hsettled
      have hbacked := hbacked rfl
      split
      next hhere =>
        rw [if_pos hhere] at hbacked
        exact h.apply hsound fun v hv => by cases hv; exact hbacked
      next hhere =>
        rw [if_neg hhere] at hbacked
        exact h.apply hsound fun v hv => by cases hv; exact hbacked
  | unsettled _ hsettled =>
      have hsound := (hx.hearSettled hphase hsettled).1
      split <;> exact hnone hsound rfl

theorem Inv.step {a : ListenerAct} (h : s.Inv count) (hback : OpensForProposal count s a)
    (hs : s.step count a = some s') : s'.Inv count := by
  have hx := h.elector
  cases a with
  | start zxId =>
      simp only [Listener.step] at hs
      split at hs
      next => cases hs; exact ⟨Elector.Sound.start _ zxId count, h.decisions⟩
      next => cases hs; exact ⟨Elector.Sound.start _ zxId count, h.decisions⟩
      next => cases hs
  | arrive vote =>
      cases hs
      exact ⟨⟨hx.inEpoch, hx.votes, hx.otherVote, hx.window⟩, h.decisions⟩
  | hear =>
      simp only [Listener.step] at hs
      split at hs
      next hphase =>
        obtain ⟨⟨vote, x⟩, htake, rfl⟩ := Option.map_eq_some_iff.mp hs
        refine h.hear htake ?_ (hback _ htake)
        exact (Elector.take_phase htake).trans hphase
      next => cases hs
  | confirmPop n =>
      simp only [Listener.step] at hs
      split at hs
      next hphase =>
        obtain ⟨x, hpop, rfl⟩ := Option.map_eq_some_iff.mp hs
        exact ⟨hx.confirmPop hphase hpop, h.decisions⟩
      next => cases hs
  | expire =>
      simp only [Listener.step] at hs
      split at hs
      next hphase =>
        cases hs
        obtain ⟨hsound, hbacked⟩ := hx.expire hphase
        exact h.apply hsound hbacked
      next => cases hs
  | echo =>
      simp only [Listener.step] at hs
      split at hs
      next =>
        cases hs
        exact ⟨⟨hx.inEpoch, hx.votes, hx.otherVote, hx.window⟩, h.decisions⟩
      next => cases hs

end Listener

/-- In every run in which a vote only opens a confirm window for the leader that the
server proposes, a majority backs every decision in the table that was checked. -/
theorem decisions_backed {count : Nat} {s : Listener}
    (h : (listener count).Run (OpensForProposal count) s) : ∀ d ∈ s.decisions, d.Sound count := by
  have hinv : s.Inv count := Transition.System.Run.invariant (I := fun s => s.Inv count)
    (fun _ hf => Listener.Inv.of_fresh hf) (fun _ _ _ hi hback hs => hi.step hback hs) h
  exact hinv.decisions

/-! ## Server 3 of three -/

/-- Server 3, before its first election. -/
def thirdListener : Listener := { elector := { id := 3 } }

theorem thirdListener_fresh : thirdListener.Fresh := ⟨3, 0, rfl⟩

/-- Servers 1 and 2 both vote for server 2. -/
def othersAgree : List ListenerAct :=
  [.start 0, .arrive ⟨1, .looking, 1, 2, 0⟩, .arrive ⟨2, .looking, 1, 2, 0⟩, .hear, .hear, .expire]

/-- Server 1 votes for server 3, and server 2 reports that server 3 leads. -/
def otherJoins : List ListenerAct :=
  [.start 0, .arrive ⟨1, .looking, 1, 3, 0⟩, .hear, .expire, .start 0,
   .arrive ⟨2, .following, 2, 3, 0⟩, .hear]

/-- The votes for server 2 make server 3 decide for itself. -/
theorem third_vote_decides :
    ¬ ∀ (count : Nat) (s : Listener), count % 2 = 1 → (listener count).Reachable s →
      ∀ d ∈ s.decisions, d.Sound count := by
  intro h
  have hrun : (Transition.exec (Listener.step 3) thirdListener othersAgree).map
      Listener.decisions =
        some [⟨3, ⟨3, .looking, 1, 3, 0⟩, .leading,
          [(2, ⟨2, .looking, 1, 2, 0⟩), (1, ⟨1, .looking, 1, 2, 0⟩), (3, ⟨3, .looking, 1, 3, 0⟩)],
          1⟩] := by
    decide +kernel
  obtain ⟨s, hs, hdecisions⟩ := Option.map_eq_some_iff.mp hrun
  have hsound := h 3 s rfl (Transition.exec_reachable thirdListener_fresh hs)
  rw [hdecisions] at hsound
  obtain ⟨ids, hcard, hvotes⟩ := (hsound _ List.mem_cons_self).1
  have hsub : ids ⊆ {3} := by
    intro i hi
    obtain ⟨w, hmem, hvote, _⟩ := hvotes i hi
    simp only [List.mem_cons, List.not_mem_nil, or_false] at hmem
    rcases hmem with hmem | hmem | hmem <;> cases hmem
    · exact absurd hvote (by decide)
    · exact absurd hvote (by decide)
    · exact Finset.mem_singleton_self 3
  have hone := Finset.card_le_card hsub
  rw [Finset.card_singleton] at hone
  exact absurd hcard (by omega)

/-- Two decisions of server 3, at the first and at the second return point. -/
theorem decisions_backed_otherJoins :
    ∃ s, Transition.exec (Listener.step 3) thirdListener otherJoins = some s ∧
      s.decisions.length = 2 ∧ ∀ d ∈ s.decisions, d.Sound 3 := by
  have hrun : (Transition.exec (Listener.step 3) thirdListener otherJoins).map
      (fun s => s.decisions.length) = some 2 := by
    decide +kernel
  obtain ⟨s, hs, hlength⟩ := Option.map_eq_some_iff.mp hrun
  have hguard : Transition.Guarded (Listener.step 3) (OpensForProposal 3) thirdListener
      otherJoins := by
    decide +kernel
  exact ⟨s, hs, hlength,
    decisions_backed (Transition.exec_run (.start thirdListener_fresh) hguard hs)⟩

end Paxos
