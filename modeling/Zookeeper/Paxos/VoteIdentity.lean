import Zookeeper.Paxos.Decision
import Zookeeper.Paxos.Elected

/-!
# Whose vote is sent

A vote says in `idx` which server it comes from, and a receiver puts it into its tables
under that number.  `BrocastVote` sends the proposal, which carries the server's own id.
`Echo` sends `_leader` with the server's own state.  At two of the return points of
`LookForLeader` that is the vote of another server, so its `idx` is that of another
server too, as `echo_names_another` shows.

`votes_attributed` is the other side: as long as no call returns with the vote of
another server, every vote on the wire has the `idx` of the server that sent it.
-/

namespace Paxos

variable {n : Nat}

/-- Every vote on the way from a server has its `idx`, and every entry of a table is a
vote of the server it stands for. -/
structure Attributed (s : Elections n) : Prop where
  net : ∀ i j, ∀ vote ∈ s.net i j, vote.idx = (s.server i).id
  tables : ∀ i, ∀ p ∈ (s.server i).votes ++ (s.server i).otherVote, p.2.idx = p.1

/-- `case LEADING` returns at one of its two tests. -/
def Elector.Settles (x : Elector) (count : Nat) (vote : Vote) : Prop :=
  (vote.state = .following ∨ vote.state = .leading) ∧
    (x.SettledHere count vote ∨ x.SettledElsewhere count vote)

instance (x : Elector) (count : Nat) (vote : Vote) : Decidable (x.Settles count vote) :=
  inferInstanceAs (Decidable (_ ∧ _))

/-- No call returns with the vote of another server. -/
def ReturnsOwn (s : Elections n) : ElectionAct n → Prop
  | .hear i => ∀ p ∈ (s.server i).take, p.2.Settles n p.1 → p.1.idx = (s.server i).id
  | _ => True

instance (s : Elections n) : ∀ a, Decidable (ReturnsOwn s a)
  | .hear i => inferInstanceAs (Decidable (∀ p ∈ (s.server i).take, _ → _))
  | .start _ _ => inferInstanceAs (Decidable True)
  | .resend _ => inferInstanceAs (Decidable True)
  | .confirmPop _ _ => inferInstanceAs (Decidable True)
  | .expire _ => inferInstanceAs (Decidable True)
  | .echo _ => inferInstanceAs (Decidable True)
  | .deliver _ _ => inferInstanceAs (Decidable True)
  | .lose _ _ _ => inferInstanceAs (Decidable True)

/-! ## One server -/

/-- Every entry of a table is a vote of the server it stands for. -/
def Votes.Keyed (votes : Votes) : Prop := ∀ p ∈ votes, p.2.idx = p.1

theorem Votes.keyed_nil : Votes.Keyed [] := fun p hp => by cases hp

theorem Votes.Keyed.put {votes : Votes} (h : votes.Keyed) {idx : Int32} {vote : Vote}
    (hidx : vote.idx = idx) : (votes.put idx vote).Keyed := by
  intro p hp
  rcases List.mem_cons.mp hp with rfl | hp
  · exact hidx
  · exact h p (List.mem_filter.mp hp).1

namespace Elector

variable {x y : Elector} {vote : Vote} {count : Nat}

/-- What the server may send is its own, and so are the entries of its tables. -/
structure Own (x : Elector) : Prop where
  proposal : x.phase ≠ .idle → x.proposal.idx = x.id
  leader : ∀ v ∈ x.leader, v.idx = x.id
  votes : x.votes.Keyed
  otherVote : x.otherVote.Keyed

theorem Own.start (hx : x.Own) (zxId : Int64) : (x.start zxId).Own where
  proposal _ := rfl
  leader := hx.leader
  votes := Votes.keyed_nil.put rfl
  otherVote := Votes.keyed_nil

theorem Own.take (hx : x.Own) (h : x.take = some (vote, y)) : y.Own ∧ y.id = x.id := by
  simp only [Elector.take] at h
  split at h
  next => cases h; exact ⟨⟨hx.proposal, hx.leader, hx.votes, hx.otherVote⟩, rfl⟩
  next => cases h; exact ⟨⟨hx.proposal, hx.leader, hx.votes, hx.otherVote⟩, rfl⟩
  next => cases h

theorem Own.hearing (hx : x.Own) (hne : x.phase ≠ .idle) (vote : Vote) :
    (x.hearing vote).Own ∧ (x.hearing vote).phase ≠ .idle := by
  rw [Elector.hearing]
  split
  next =>
    exact ⟨⟨fun _ => hx.proposal hne, hx.leader, Votes.keyed_nil.put rfl, hx.otherVote⟩, hne⟩
  next => exact ⟨⟨hx.proposal, hx.leader, hx.votes.put rfl, hx.otherVote⟩, hne⟩

theorem Own.heard (hx : x.Own) (hne : x.phase ≠ .idle) (vote : Vote) : (x.heard vote).Own := by
  obtain ⟨hy, hney⟩ := hx.hearing hne vote
  have hidx := hy.proposal hney
  rw [Elector.heard]
  split
  next => exact ⟨fun _ => hidx, hy.leader, hy.votes.put hidx, hy.otherVote⟩
  next => exact hy

theorem Own.confirming (hx : x.Own) (hne : x.phase ≠ .idle) : x.confirming.Own where
  proposal _ := hx.proposal hne
  leader := hx.leader
  votes := hx.votes
  otherVote := hx.otherVote

theorem Own.finish (hx : x.Own) (hne : x.phase ≠ .idle) (hvote : vote.idx = x.id) :
    (x.finish vote).Own where
  proposal _ := hx.proposal hne
  leader v hv := by
    cases hv
    exact hvote
  votes := hx.votes
  otherVote := hx.otherVote

theorem Own.settling (hx : x.Own) (vote : Vote) : (x.settling vote).Own where
  proposal := hx.proposal
  leader := hx.leader
  votes := by
    rw [Elector.settling, votesWith]
    split
    next => exact hx.votes.put rfl
    next => exact hx.votes
  otherVote := hx.otherVote.put rfl

/-- `case LEADING` keeps what is the server's own, if it does not return the vote of
another server. -/
theorem Own.hearSettled {returned : Bool} (hx : x.Own) (hne : x.phase ≠ .idle)
    (hidx : x.SettledHere count vote ∨ x.SettledElsewhere count vote → vote.idx = x.id)
    (h : x.hearSettled count vote = (y, returned)) : y.Own ∧ y.id = x.id := by
  have hz := hx.settling vote
  rw [hearSettled_eq] at h
  split at h
  next hhere =>
    cases h
    have hw : ({ x with votes := x.votesWith vote } : Elector).Own :=
      ⟨hx.proposal, hx.leader, hz.votes, hx.otherVote⟩
    exact ⟨hw.finish hne (hidx (.inl hhere)), rfl⟩
  next =>
    split at h
    next helse =>
      cases h
      exact ⟨hz.finish hne (hidx (.inr helse)), rfl⟩
    next =>
      cases h
      exact ⟨hz, rfl⟩

/-- A turn of the main loop. -/
theorem Own.hear (hx : x.Own) (hne : x.phase ≠ .idle)
    (hidx : x.Settles count vote → vote.idx = x.id) :
    (x.hear count vote).elector.Own ∧ (x.hear count vote).elector.id = x.id ∧
      ((x.hear count vote).brocast = true → (x.hear count vote).elector.phase ≠ .idle) := by
  have hturn := hear_cases x count vote
  have hkept := heard_kept x vote
  have hy := hx.heard hne vote
  have hnev : (x.heard vote).phase ≠ .idle := by
    rw [hkept.2.1]
    exact hne
  generalize x.hear count vote = t at hturn ⊢
  cases hturn with
  | ignored => exact ⟨hx, rfl, fun _ => hne⟩
  | window =>
      refine ⟨hy.confirming hnev, hkept.2.2.1, ?_⟩
      intro _ h
      cases h
  | looking => exact ⟨hy, hkept.2.2.1, fun _ => hnev⟩
  | settled hstate h =>
      obtain ⟨hown, hid⟩ := hx.hearSettled hne (fun hsettles => hidx ⟨hstate, hsettles⟩) h
      exact ⟨hown, hid, fun h => by cases h⟩
  | unsettled hstate h =>
      obtain ⟨hown, hid⟩ := hx.hearSettled hne (fun hsettles => hidx ⟨hstate, hsettles⟩) h
      exact ⟨hown, hid, fun h => by cases h⟩

theorem Own.confirmPop {m : Vote} (hx : x.Own) (hne : x.phase ≠ .idle)
    (h : x.confirmPop m = some y) : y.Own ∧ y.id = x.id := by
  simp only [Elector.confirmPop] at h
  split at h
  next => cases h
  next =>
    cases h
    split
    next => exact ⟨⟨fun _ => hx.proposal hne, hx.leader, hx.votes, hx.otherVote⟩, rfl⟩
    next => exact ⟨⟨hx.proposal, hx.leader, hx.votes, hx.otherVote⟩, rfl⟩

/-- What is returned behind the confirm window is the server's own proposal. -/
theorem Own.expire (hx : x.Own) (hne : x.phase ≠ .idle) :
    x.expire.elector.Own ∧ x.expire.elector.id = x.id ∧ x.expire.brocast = false := by
  rw [Elector.expire]
  split
  next => exact ⟨hx.finish hne (hx.proposal hne), rfl, rfl⟩
  next => exact ⟨⟨fun _ => hx.proposal hne, hx.leader, hx.votes, hx.otherVote⟩, rfl, rfl⟩

end Elector

/-! ## All servers -/

namespace Elections

variable {s s' : Elections n}

/-- What every server may send is its own, and so is what is on the way. -/
structure Owned (s : Elections n) : Prop where
  server : ∀ i, (s.server i).Own
  net : ∀ i j, ∀ vote ∈ s.net i j, vote.idx = (s.server i).id

theorem Owned.of_fresh (h : s.Fresh) : s.Owned := by
  obtain ⟨id, logicCount, _, rfl⟩ := h
  exact
    { server := fun i =>
        ⟨fun h => absurd rfl h, fun v hv => (by cases hv), Votes.keyed_nil, Votes.keyed_nil⟩
      net := fun i j vote hvote => by cases hvote }

theorem Owned.setServer (h : s.Owned) {i : Fin n} {x : Elector} (hx : x.Own)
    (hid : x.id = (s.server i).id) : (s.setServer i x).Owned := by
  refine ⟨fun j => ?_, fun j k vote hvote => ?_⟩
  · rcases eq_or_ne j i with rfl | hj
    · rw [setServer_self]
      exact hx
    · rw [setServer_of_ne s hj]
      exact h.server j
  · have hidx := h.net j k vote hvote
    rcases eq_or_ne j i with rfl | hj
    · rw [setServer_self, hid]
      exact hidx
    · rw [setServer_of_ne s hj]
      exact hidx

/-- A vote of the server's own may be put on the way. -/
theorem Owned.setNet (h : s.Owned) {net : Fin n → Fin n → List Vote}
    (hnet : ∀ i j, ∀ vote ∈ net i j, vote ∈ s.net i j ∨ vote.idx = (s.server i).id) :
    Owned { s with net := net } := by
  refine ⟨h.server, fun i j vote hvote => ?_⟩
  rcases hnet i j vote hvote with hold | hnew
  · exact h.net i j vote hold
  · exact hnew

theorem Owned.brocast (h : s.Owned) {i : Fin n} {vote : Vote}
    (hvote : vote.idx = (s.server i).id) : (s.brocast i vote).Owned := by
  refine h.setNet fun a b v hv => ?_
  split at hv
  next hab =>
    rcases List.mem_append.mp hv with hv | hv
    · exact .inl hv
    · rw [List.mem_singleton.mp hv, hab.1]
      exact .inr hvote
  next => exact .inl hv

theorem Owned.send (h : s.Owned) {i : Fin n} (j : Fin n) {vote : Vote}
    (hvote : vote.idx = (s.server i).id) : (s.send i j vote).Owned := by
  refine h.setNet fun a b v hv => ?_
  split at hv
  next hab =>
    rcases List.mem_append.mp hv with hv | hv
    · exact .inl hv
    · rw [List.mem_singleton.mp hv, hab.1]
      exact .inr hvote
  next => exact .inl hv

/-- A server goes on behind a turn of its loop. -/
theorem Owned.apply (h : s.Owned) {i : Fin n} {t : Turn} (ht : t.elector.Own)
    (hid : t.elector.id = (s.server i).id)
    (hbrocast : t.brocast = true → t.elector.phase ≠ .idle) : (s.apply i t).Owned := by
  have hrecord : (s.record i t.returned).Owned := ⟨h.server, h.net⟩
  have hset := hrecord.setServer ht hid
  simp only [Elections.apply]
  split
  next hb =>
    refine hset.brocast ?_
    rw [setServer_self]
    exact ht.proposal (hbrocast hb)
  next => exact hset

theorem Owned.step {a : ElectionAct n} (h : s.Owned) (ha : ReturnsOwn s a)
    (hs : s.step a = some s') : s'.Owned := by
  cases a with
  | start i zxId =>
      have hstart := h.setServer (i := i) ((h.server i).start zxId) rfl
      simp only [Elections.step] at hs
      split at hs
      next => cases hs; exact hstart
      next => cases hs; exact hstart
      next => cases hs
  | resend i =>
      simp only [Elections.step] at hs
      split at hs
      next hcond =>
        cases hs
        refine h.brocast ((h.server i).proposal ?_)
        rw [hcond.1]
        decide
      next => cases hs
  | hear i =>
      simp only [Elections.step] at hs
      split at hs
      next hphase =>
        obtain ⟨⟨vote, x⟩, htake, rfl⟩ := Option.map_eq_some_iff.mp hs
        obtain ⟨hx, hid⟩ := (h.server i).take htake
        have hne : x.phase ≠ .idle := by
          rw [Elector.take_phase htake, hphase]
          decide
        have hidx : x.Settles n vote → vote.idx = x.id := fun hsettles =>
          (ha _ htake hsettles).trans hid.symm
        obtain ⟨hown, hkept, hbrocast⟩ := hx.hear hne hidx
        exact h.apply hown (hkept.trans hid) hbrocast
      next => cases hs
  | confirmPop i m =>
      simp only [Elections.step] at hs
      split at hs
      next hphase =>
        obtain ⟨x, hpop, rfl⟩ := Option.map_eq_some_iff.mp hs
        obtain ⟨hown, hid⟩ := (h.server i).confirmPop (by rw [hphase]; decide) hpop
        exact h.setServer hown hid
      next => cases hs
  | expire i =>
      simp only [Elections.step] at hs
      split at hs
      next hphase =>
        cases hs
        obtain ⟨hown, hid, hbrocast⟩ := (h.server i).expire (by rw [hphase]; decide)
        exact h.apply hown hid fun hb => by rw [hbrocast] at hb; cases hb
      next => cases hs
  | echo i =>
      simp only [Elections.step] at hs
      split at hs
      next leader vote recvCh _ hleader _ =>
        have hx := h.server i
        have hset := h.setServer (i := i) (x := { s.server i with recvCh := recvCh })
          ⟨hx.proposal, hx.leader, hx.votes, hx.otherVote⟩ rfl
        split at hs
        next =>
          cases hs
          refine hset.send _ ?_
          rw [setServer_self]
          exact hx.leader leader hleader
        next => cases hs; exact hset
      next => cases hs
  | deliver i j =>
      simp only [Elections.step] at hs
      split at hs
      next => cases hs
      next vote votes hnet =>
        cases hs
        have hshrunk : Owned { s with
            net := fun a b => if a = i ∧ b = j then votes else s.net a b } := by
          refine h.setNet fun a b w hw => ?_
          split at hw
          next hab =>
            rw [hab.1, hab.2, hnet]
            exact .inl (List.mem_cons_of_mem vote hw)
          next => exact .inl hw
        have hx := hshrunk.server j
        exact hshrunk.setServer (i := j) ⟨hx.proposal, hx.leader, hx.votes, hx.otherVote⟩ rfl
  | lose i j k =>
      cases hs
      refine h.setNet fun a b w hw => ?_
      split at hw
      next => exact .inl (List.mem_of_mem_take hw)
      next => exact .inl hw

end Elections

/-- In every run in which no call returns with the vote of another server, every vote
on the wire has the `idx` of its sender, and so has every entry of a table. -/
theorem votes_attributed {s : Elections n} (h : (elections n).Run ReturnsOwn s) :
    Attributed s := by
  have hinv : s.Owned := Transition.System.Run.invariant (I := Elections.Owned)
    (fun _ hf => Elections.Owned.of_fresh hf) (fun _ _ _ hi ha hs => hi.step ha hs) h
  refine ⟨hinv.net, fun i p hp => ?_⟩
  rcases List.mem_append.mp hp with hp | hp
  · exact (hinv.server i).votes p hp
  · exact (hinv.server i).otherVote p hp

/-! ## Runs of three servers -/

/-- Servers 1 and 2 elect server 2 while server 3 is away. -/
def twoElect [NeZero n] : List (ElectionAct n) :=
  [.start 0 0, .start 1 0, .resend 0, .resend 1, .deliver 1 0, .hear 0, .expire 0,
   .deliver 0 1, .hear 1, .deliver 0 1, .hear 1, .expire 1, .lose 0 2 0, .lose 1 2 0]

/-- Server 3 asks, and server 1 answers. -/
def firstAnswers [NeZero n] : List (ElectionAct n) :=
  twoElect ++ [.start 2 0, .resend 2, .deliver 2 0, .echo 0]

/-- Server 2 answers as well, and server 3 returns with its vote.  Then server 1 looks
for a leader again, and server 3 answers. -/
def thirdAnswers [NeZero n] : List (ElectionAct n) :=
  firstAnswers ++ [.deliver 2 1, .echo 1, .deliver 0 2, .hear 2, .deliver 1 2, .hear 2,
    .start 0 0, .resend 0, .deliver 0 2, .echo 2]

/-- Server 3 answers as server 2. -/
theorem echo_names_another : ¬ ∀ s, (elections 3).Reachable s → Attributed s := by
  intro h
  have hrun : (Transition.exec Elections.step threeElectors thirdAnswers).map
      (fun s => (s.net 2 0, (s.server 2).id)) = some ([⟨2, .following, 1, 2, 0⟩], 3) := by
    decide +kernel
  obtain ⟨s, hs, heq⟩ := Option.map_eq_some_iff.mp hrun
  obtain ⟨hnet, hid⟩ := Prod.mk.inj heq
  have hown := (h s (Transition.exec_reachable threeElectors_fresh hs)).net 2 0
    ⟨2, .following, 1, 2, 0⟩ (by rw [hnet]; exact List.mem_cons_self)
  rw [hid] at hown
  exact absurd hown (by decide)

/-- Server 1 answers as itself. -/
theorem votes_attributed_firstAnswers :
    ∃ s, Transition.exec Elections.step threeElectors firstAnswers = some s ∧
      s.net 0 2 = [⟨1, .following, 1, 2, 0⟩] ∧ Attributed s := by
  have hrun : (Transition.exec Elections.step threeElectors firstAnswers).map
      (fun s => s.net 0 2) = some [⟨1, .following, 1, 2, 0⟩] := by
    decide +kernel
  obtain ⟨s, hs, hnet⟩ := Option.map_eq_some_iff.mp hrun
  have hguard : Transition.Guarded Elections.step ReturnsOwn threeElectors firstAnswers := by
    decide +kernel
  exact ⟨s, hs, hnet,
    votes_attributed (Transition.exec_run (.start threeElectors_fresh) hguard hs)⟩

end Paxos
