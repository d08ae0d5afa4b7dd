import Zookeeper.Majority
import Zookeeper.Paxos.Election

/-!
# Whom an election agrees on

`LookForLeader` tests whether a majority backs the vote it has just heard, and
returns its own proposal.  A server may change its vote within an epoch, and a vote
that was counted may be out of date by then.  `late_vote_elects_another` is a run
in which two servers return different leaders for one epoch.

`election_agrees` is the other side: where a server returns a proposal that its
votes back and whose backers still propose it, and none of them changes its vote in
that epoch afterwards, all calls that return with one epoch return one leader.
-/

namespace Paxos

open Majority

variable {n : Nat}

/-- The calls that returned with one epoch returned one leader. -/
def ElectionAgrees (s : Elections n) : Prop :=
  ∀ p ∈ s.returned, ∀ q ∈ s.returned, p.2.electionEpoch = q.2.electionEpoch →
    p.2.voteId = q.2.voteId

namespace Elections

/-- The server proposes a leader in an epoch. -/
def Proposes (s : Elections n) (j : Fin n) (electionEpoch voteId : Int32) : Prop :=
  (s.server j).logicCount = electionEpoch ∧ (s.server j).proposal.voteId = voteId

instance (s : Elections n) (j : Fin n) (e v : Int32) : Decidable (s.Proposes j e v) :=
  inferInstanceAs (Decidable (_ ∧ _))

/-- A majority backs the proposal of a server, as far as it knows, and those it
counts still propose the same. -/
def Backed (s : Elections n) (i : Fin n) : Prop :=
  let x := s.server i
  isVoteOk x.votes x.proposal.voteId x.logicCount n = true ∧
    ∀ p ∈ x.votes.backing x.proposal.voteId x.logicCount, ∀ j, (s.server j).id = p.1 →
      s.Proposes j x.logicCount x.proposal.voteId

instance (s : Elections n) (i : Fin n) : Decidable (s.Backed i) :=
  inferInstanceAs (Decidable (_ ∧ ∀ p ∈ _, ∀ _, _ → _))

/-- No call has returned the leader that a vote makes a server give up. -/
def KeepsVote (s : Elections n) (x : Elector) (vote : Vote) : Prop :=
  vote.state = .looking → vote.electionEpoch = x.logicCount → x.proposal.lt vote = true →
    vote.voteId ≠ x.proposal.voteId →
    ∀ p ∈ s.returned, p.2.electionEpoch = x.logicCount → p.2.voteId ≠ x.proposal.voteId

instance (s : Elections n) (x : Elector) (vote : Vote) : Decidable (s.KeepsVote x vote) :=
  inferInstanceAs (Decidable (_ → _ → _ → _ → ∀ p ∈ _, _ → _))

end Elections

/-- A proposal is returned only where its backers still propose it, no server
changes a vote that was returned, the confirm window puts back what it took, and the
counter does not overflow. -/
def Steady (s : Elections n) : ElectionAct n → Prop
  | .start i _ => (s.server i).logicCount ≠ Int32.maxValue
  | .hear i => ∀ p ∈ (s.server i).take, s.KeepsVote (s.server i) p.1
  | .confirmPop i m => ∀ vote ∈ (s.server i).recvCh.head?,
      (s.server i).proposal.lt vote = true → m = vote
  | .expire i => (s.server i).queue = [] → s.Backed i
  | _ => True

instance (s : Elections n) : ∀ a, Decidable (Steady s a)
  | .start i _ => inferInstanceAs (Decidable ((s.server i).logicCount ≠ Int32.maxValue))
  | .hear i => inferInstanceAs (Decidable (∀ p ∈ (s.server i).take, _))
  | .confirmPop i _ => inferInstanceAs (Decidable (∀ vote ∈ (s.server i).recvCh.head?, _ → _))
  | .expire i => inferInstanceAs (Decidable ((s.server i).queue = [] → _))
  | .resend _ => inferInstanceAs (Decidable True)
  | .echo _ => inferInstanceAs (Decidable True)
  | .deliver _ _ => inferInstanceAs (Decidable True)
  | .lose _ _ _ => inferInstanceAs (Decidable True)

/-! ## Votes by server -/

/-- A table of votes has one entry for each server it names. -/
def Votes.Named (votes : Votes) (id : Fin n → Int32) : Prop :=
  (votes.map Prod.fst).Nodup ∧ ∀ p ∈ votes, ∃ j, id j = p.1

theorem Votes.Named.put {votes : Votes} {id : Fin n → Int32} (h : votes.Named id) {idx : Int32}
    (hidx : ∃ j, id j = idx) (vote : Vote) : (votes.put idx vote).Named id := by
  obtain ⟨hnodup, hserver⟩ := h
  refine ⟨?_, ?_⟩
  · rw [Votes.put, List.map_cons, List.nodup_cons]
    refine ⟨?_, hnodup.sublist (List.filter_sublist.map _)⟩
    intro hmem
    obtain ⟨p, hp, hid⟩ := List.mem_map.mp hmem
    have hne : p.1 ≠ idx := by simpa using (List.mem_filter.mp hp).2
    exact hne hid
  · intro p hp
    rcases List.mem_cons.mp hp with rfl | hp
    · exact hidx
    · exact hserver p (List.mem_filter.mp hp).1

theorem Votes.Named.single {id : Fin n → Int32} {idx : Int32} (hidx : ∃ j, id j = idx)
    (vote : Vote) : (Votes.put [] idx vote).Named id :=
  have hnil : Votes.Named [] id := ⟨by simp, by simp⟩
  hnil.put hidx vote

/-- The servers whose votes are counted make a majority. -/
theorem isVoteOk_majority {votes : Votes} {id : Fin n → Int32} (h : votes.Named id)
    {leader e : Int32} (hok : isVoteOk votes leader e n = true) :
    IsMajority (Finset.univ.filter fun j => ∃ p ∈ votes.backing leader e, id j = p.1) := by
  have hnodup : ((votes.backing leader e).map Prod.fst).Nodup :=
    h.1.sublist (List.filter_sublist.map _)
  have hsub : ((votes.backing leader e).map Prod.fst).toFinset ⊆
      (Finset.univ.filter fun j => ∃ p ∈ votes.backing leader e, id j = p.1).image id := by
    intro idx hidx
    obtain ⟨p, hp, rfl⟩ := List.mem_map.mp (List.mem_toFinset.mp hidx)
    obtain ⟨j, hj⟩ := h.2 p (List.mem_filter.mp hp).1
    exact Finset.mem_image.mpr ⟨j, Finset.mem_filter.mpr ⟨Finset.mem_univ j, p, hp, hj⟩, hj⟩
  have hcard := (Finset.card_le_card hsub).trans Finset.card_image_le
  rw [List.toFinset_card_of_nodup hnodup, List.length_map] at hcard
  have hlen : n / 2 + 1 ≤ (votes.backing leader e).length := by simpa [isVoteOk] using hok
  rw [IsMajority]
  rw [Fintype.card_fin]
  exact hlen.trans hcard

/-! ## The invariant -/

/-- The server has gone past an epoch, or proposes the leader in it. -/
def Elector.Past (x : Elector) (electionEpoch voteId : Int32) : Prop :=
  electionEpoch < x.logicCount ∨ (x.logicCount = electionEpoch ∧ x.proposal.voteId = voteId)

namespace Elections

variable {s : Elections n}

/-- The id is that of a server. -/
def IsServer (s : Elections n) (idx : Int32) : Prop := ∃ j, (s.server j).id = idx

/-- A call has returned this leader for this epoch. -/
def Returned (s : Elections n) (electionEpoch voteId : Int32) : Prop :=
  ∃ p ∈ s.returned, p.2.electionEpoch = electionEpoch ∧ p.2.voteId = voteId

/-- A vote that may be on the way: it names a server, and an echo says what a call
has returned. -/
structure Known (s : Elections n) (vote : Vote) : Prop where
  idx : s.IsServer vote.idx
  returned : vote.state = .following ∨ vote.state = .leading →
    s.Returned vote.electionEpoch vote.voteId

/-- A majority has gone past an epoch or proposes the leader in it. -/
def Held (s : Elections n) (e v : Int32) : Prop :=
  ∃ Q : Finset (Fin n), IsMajority Q ∧ ∀ j ∈ Q, (s.server j).Past e v

/-- What holds for one server. -/
structure Sound (s : Elections n) (x : Elector) : Prop where
  id : s.IsServer x.id
  recvCh : ∀ vote ∈ x.recvCh, s.Known vote
  queue : ∀ vote ∈ x.queue, s.Known vote
  votes : x.votes.Named fun j => (s.server j).id
  looking : x.phase = .searching ∨ x.phase = .confirming → x.state = .looking
  epoch : x.phase ≠ .idle → x.proposal.electionEpoch = x.logicCount
  idx : x.phase ≠ .idle → x.proposal.idx = x.id
  leader : ∀ vote ∈ x.leader, s.IsServer vote.idx ∧ s.Returned vote.electionEpoch vote.voteId

structure Inv (s : Elections n) : Prop where
  ids : Function.Injective fun i => (s.server i).id
  net : ∀ i j, ∀ vote ∈ s.net i j, s.Known vote
  sound : ∀ i, s.Sound (s.server i)
  held : ∀ p ∈ s.returned, s.Held p.2.electionEpoch p.2.voteId
  agrees : ElectionAgrees s

/-- The ids stay, and what was returned stays returned. -/
structure Keeps (s s' : Elections n) : Prop where
  ids : ∀ j, (s'.server j).id = (s.server j).id
  returned : s.returned ⊆ s'.returned

namespace Keeps

variable {s' : Elections n}

theorem isServer (h : Keeps s s') {idx : Int32} (hidx : s.IsServer idx) : s'.IsServer idx := by
  obtain ⟨j, hj⟩ := hidx
  exact ⟨j, (h.ids j).trans hj⟩

theorem returned' (h : Keeps s s') {e v : Int32} (hret : s.Returned e v) : s'.Returned e v := by
  obtain ⟨p, hp, hpe⟩ := hret
  exact ⟨p, h.returned hp, hpe⟩

theorem known (h : Keeps s s') {vote : Vote} (hvote : s.Known vote) : s'.Known vote :=
  ⟨h.isServer hvote.idx, fun hstate => h.returned' (hvote.returned hstate)⟩

theorem sound (h : Keeps s s') {x : Elector} (hx : s.Sound x) : s'.Sound x where
  id := h.isServer hx.id
  recvCh vote hvote := h.known (hx.recvCh vote hvote)
  queue vote hvote := h.known (hx.queue vote hvote)
  votes := by
    refine ⟨hx.votes.1, fun p hp => ?_⟩
    obtain ⟨j, hj⟩ := hx.votes.2 p hp
    exact ⟨j, (h.ids j).trans hj⟩
  looking := hx.looking
  epoch := hx.epoch
  idx := hx.idx
  leader vote hvote := ⟨h.isServer (hx.leader vote hvote).1, h.returned' (hx.leader vote hvote).2⟩

end Keeps

namespace Inv

theorem of_fresh (h : s.Fresh) : s.Inv := by
  obtain ⟨id, logicCount, hinj, rfl⟩ := h
  refine ⟨hinj, by simp, fun i => ?_, by simp, ?_⟩
  · refine ⟨⟨i, rfl⟩, by simp, by simp, ⟨List.nodup_nil, by simp⟩, ?_, ?_, ?_, by simp⟩
    · rintro (h | h) <;> cases h
    · exact fun h => absurd rfl h
    · exact fun h => absurd rfl h
  · intro p hp
    cases hp

/-- One server changes, and stays past what was returned. -/
theorem setServer (h : s.Inv) {i : Fin n} {x : Elector} (hid : x.id = (s.server i).id)
    (hx : s.Sound x)
    (hpast : ∀ e v, s.Returned e v → (s.server i).Past e v → x.Past e v) :
    (s.setServer i x).Inv := by
  have hids : ∀ j, ((s.setServer i x).server j).id = (s.server j).id := by
    intro j
    by_cases hj : j = i
    · subst hj
      simpa [Elections.setServer] using hid
    · simp [Elections.setServer, Function.update_of_ne hj]
  have hkeeps : Keeps s (s.setServer i x) := ⟨hids, fun _ hp => hp⟩
  refine ⟨?_, fun a b vote hvote => hkeeps.known (h.net a b vote hvote), fun j => ?_,
    fun p hp => ?_, h.agrees⟩
  · intro a b hab
    exact h.ids ((hids a).symm.trans (hab.trans (hids b)))
  · by_cases hj : j = i
    · subst hj
      simpa [Elections.setServer] using hkeeps.sound hx
    · simpa [Elections.setServer, Function.update_of_ne hj] using hkeeps.sound (h.sound j)
  · obtain ⟨Q, hQ, hold⟩ := h.held p hp
    refine ⟨Q, hQ, fun j hj => ?_⟩
    by_cases hji : j = i
    · subst hji
      simpa [Elections.setServer] using hpast _ _ ⟨p, hp, rfl, rfl⟩ (hold j hj)
    · simpa [Elections.setServer, Function.update_of_ne hji] using hold j hj

/-- Votes on the way are known ones. -/
theorem setNet (h : s.Inv) {net : Fin n → Fin n → List Vote}
    (hnet : ∀ i j, ∀ vote ∈ net i j, s.Known vote) : Inv { s with net := net } := by
  have hkeeps : Keeps s { s with net := net } := ⟨fun _ => rfl, fun _ hp => hp⟩
  exact ⟨h.ids, fun i j vote hvote => hkeeps.known (hnet i j vote hvote),
    fun i => hkeeps.sound (h.sound i), h.held, h.agrees⟩

theorem brocast (h : s.Inv) (i : Fin n) {vote : Vote} (hvote : s.Known vote) :
    (s.brocast i vote).Inv := by
  refine h.setNet fun a b v hv => ?_
  split at hv
  next =>
    rcases List.mem_append.mp hv with hv | hv
    · exact h.net a b v hv
    · exact List.mem_singleton.mp hv ▸ hvote
  next => exact h.net a b v hv

theorem send (h : s.Inv) (i j : Fin n) {vote : Vote} (hvote : s.Known vote) :
    (s.send i j vote).Inv := by
  refine h.setNet fun a b v hv => ?_
  split at hv
  next =>
    rcases List.mem_append.mp hv with hv | hv
    · exact h.net a b v hv
    · exact List.mem_singleton.mp hv ▸ hvote
  next => exact h.net a b v hv

/-- A call returns a leader that a majority holds on to, and that no other call
contradicts. -/
theorem record (h : s.Inv) (i : Fin n) {vote : Vote}
    (hheld : s.Held vote.electionEpoch vote.voteId)
    (hagrees : ∀ p ∈ s.returned, p.2.electionEpoch = vote.electionEpoch →
      p.2.voteId = vote.voteId) : (s.record i (some vote)).Inv := by
  have hkeeps : Keeps s (s.record i (some vote)) := ⟨fun _ => rfl, fun _ hp => .tail _ hp⟩
  refine ⟨h.ids, fun a b v hv => hkeeps.known (h.net a b v hv),
    fun j => hkeeps.sound (h.sound j), ?_, ?_⟩
  · intro p hp
    rcases List.mem_cons.mp hp with rfl | hp
    · exact hheld
    · exact h.held p hp
  · intro p hp q hq he
    rcases List.mem_cons.mp hp with rfl | hp
    · rcases List.mem_cons.mp hq with rfl | hq
      · rfl
      · exact (hagrees q hq he.symm).symm
    · rcases List.mem_cons.mp hq with rfl | hq
      · exact hagrees p hp he
      · exact h.agrees p hp q hq he

/-- An echo is returned: it repeats what a call has returned before. -/
theorem record_echo (h : s.Inv) (i : Fin n) {vote : Vote}
    (hvote : s.Returned vote.electionEpoch vote.voteId) : (s.record i (some vote)).Inv := by
  obtain ⟨p, hp, he, hv⟩ := hvote
  refine h.record i (he ▸ hv ▸ h.held p hp) fun q hq hqe => ?_
  rw [← hv]
  exact h.agrees q hq p hp (hqe.trans he.symm)

/-- A backed proposal is returned. -/
theorem record_backed (h : s.Inv) {i : Fin n} (hphase : (s.server i).phase ≠ .idle)
    (hbacked : s.Backed i) : (s.record i (some (s.server i).proposal)).Inv := by
  obtain ⟨hok, hcurrent⟩ := hbacked
  have hmajority := isVoteOk_majority (h.sound i).votes hok
  have hepoch := (h.sound i).epoch hphase
  have hproposes : ∀ j ∈ Finset.univ.filter fun j => ∃ p ∈ (s.server i).votes.backing
      (s.server i).proposal.voteId (s.server i).logicCount, (s.server j).id = p.1,
      s.Proposes j (s.server i).logicCount (s.server i).proposal.voteId := by
    intro j hj
    obtain ⟨p, hp, hid⟩ := (Finset.mem_filter.mp hj).2
    exact hcurrent p hp j hid
  refine h.record i ⟨_, hmajority, fun j hj => .inr ?_⟩ fun p hp he => ?_
  · rw [hepoch]
    exact hproposes j hj
  · -- a server that backs both proposes both
    obtain ⟨Q, hQ, hold⟩ := h.held p hp
    obtain ⟨j, hjQ, hj⟩ := hQ.inter hmajority
    obtain ⟨hcount, hvote⟩ := hproposes j hj
    rcases hold j hjQ with hlt | ⟨-, hv⟩
    · rw [hcount, he, hepoch] at hlt
      exact absurd hlt (Std.lt_irrefl)
    · exact hv.symm.trans hvote

/-- A server goes on behind a turn of its loop. -/
theorem apply {i : Fin n} {t : Turn} (h : (s.record i t.returned).Inv)
    (hid : t.elector.id = (s.server i).id) (hx : (s.record i t.returned).Sound t.elector)
    (hpast : ∀ e v, (s.record i t.returned).Returned e v → (s.server i).Past e v →
      t.elector.Past e v)
    (hbrocast : t.brocast = true → t.elector.phase ≠ .idle ∧ t.elector.state = .looking) :
    (s.apply i t).Inv := by
  have hset : ((s.record i t.returned).setServer i t.elector).Inv := h.setServer hid hx hpast
  unfold Elections.apply
  dsimp only
  split
  next hb =>
    obtain ⟨hphase, hstate⟩ := hbrocast hb
    refine hset.brocast i ⟨⟨i, ?_⟩, ?_⟩
    · simp [Elections.setServer, Elector.sent, hx.idx hphase]
    · simp [Elector.sent, hstate]
  next => exact hset

/-- A turn that returns nothing. -/
theorem apply_none {i : Fin n} {t : Turn} (h : s.Inv) (hnone : t.returned = none)
    (hid : t.elector.id = (s.server i).id) (hx : s.Sound t.elector)
    (hpast : ∀ e v, s.Returned e v → (s.server i).Past e v → t.elector.Past e v)
    (hbrocast : t.brocast = true → t.elector.phase ≠ .idle ∧ t.elector.state = .looking) :
    (s.apply i t).Inv := by
  have hsame : s.record i t.returned = s := by rw [hnone]; rfl
  exact Inv.apply (hsame.symm ▸ h) hid (hsame.symm ▸ hx) (hsame.symm ▸ hpast) hbrocast

end Inv

/-! ## One server's turns -/

namespace Sound

variable {x x' : Elector} {vote : Vote}

theorem start (hx : s.Sound x) (zxId : Int64) : s.Sound (x.start zxId) where
  id := hx.id
  recvCh := hx.recvCh
  queue := by simp [Elector.start]
  votes := Votes.Named.single hx.id _
  looking _ := rfl
  epoch _ := rfl
  idx _ := rfl
  leader := hx.leader

theorem adopt (hx : s.Sound x) (vote : Vote) : s.Sound (x.adopt vote) where
  id := hx.id
  recvCh := hx.recvCh
  queue := hx.queue
  votes := hx.votes.put hx.id _
  looking := hx.looking
  epoch := hx.epoch
  idx := hx.idx
  leader := hx.leader

theorem putVote (hx : s.Sound x) (hvote : s.IsServer vote.idx) :
    s.Sound { x with votes := x.votes.put vote.idx vote } where
  id := hx.id
  recvCh := hx.recvCh
  queue := hx.queue
  votes := hx.votes.put hvote _
  looking := hx.looking
  epoch := hx.epoch
  idx := hx.idx
  leader := hx.leader

theorem finish (hx : s.Sound x) (hidx : s.IsServer vote.idx)
    (hvote : s.Returned vote.electionEpoch vote.voteId) (hphase : x.phase ≠ .idle) :
    s.Sound (x.finish vote) where
  id := hx.id
  recvCh := hx.recvCh
  queue := hx.queue
  votes := hx.votes
  looking := by
    rintro (h | h) <;> cases h
  epoch _ := hx.epoch hphase
  idx _ := hx.idx hphase
  leader v hv := by
    cases hv
    exact ⟨hidx, hvote⟩

/-- The next vote of the main loop is a known one. -/
theorem take (hx : s.Sound x) (h : x.take = some (vote, x')) :
    s.Known vote ∧ s.Sound x' ∧ x'.id = x.id ∧ x'.phase = x.phase ∧
      x'.logicCount = x.logicCount ∧ x'.proposal = x.proposal := by
  rw [Elector.take] at h
  cases hq : x.queue with
  | cons v queue =>
      rw [hq] at h
      cases h
      have hmem : ∀ w ∈ vote :: queue, s.Known w := hq ▸ hx.queue
      exact ⟨hmem vote (.head _), { hx with queue := fun w hw => hmem w (.tail _ hw) },
        rfl, rfl, rfl, rfl⟩
  | nil =>
      cases hr : x.recvCh with
      | nil =>
          rw [hq, hr] at h
          cases h
      | cons v recvCh =>
          rw [hq, hr] at h
          cases h
          have hmem : ∀ w ∈ vote :: recvCh, s.Known w := hr ▸ hx.recvCh
          have hrest : s.Sound { x with recvCh := recvCh } :=
            { hx with recvCh := fun w hw => hmem w (.tail _ hw) }
          exact ⟨hmem vote (.head _), hq ▸ hrest, rfl, rfl, rfl, rfl⟩

theorem hearLooking {brocast : Bool} (hx : s.Sound x) (hvote : s.Known vote)
    (h : x.hearLooking vote = some (x', brocast)) :
    s.Sound x' ∧ x'.id = x.id ∧ x'.phase = x.phase ∧ x'.state = x.state := by
  rw [Elector.hearLooking] at h
  split at h
  next =>
    have hlater : s.Sound { x with
        logicCount := vote.electionEpoch
        votes := Votes.put [] vote.idx vote
        proposal := { x.proposal with electionEpoch := vote.electionEpoch } } :=
      { hx with votes := Votes.Named.single hvote.idx _, epoch := fun _ => rfl }
    cases h
    split
    next => exact ⟨hlater.adopt vote, rfl, rfl, rfl⟩
    next => exact ⟨hlater, rfl, rfl, rfl⟩
  next =>
    split at h
    next => cases h
    next =>
      dsimp only at h
      split at h
      next =>
        cases h
        exact ⟨(hx.putVote hvote.idx).adopt vote, rfl, rfl, rfl⟩
      next =>
        cases h
        exact ⟨hx.putVote hvote.idx, rfl, rfl, rfl⟩

theorem hearSettled (hx : s.Sound x) (hvote : s.Known vote) (hphase : x.phase ≠ .idle)
    (hret : s.Returned vote.electionEpoch vote.voteId) (count : Nat) :
    s.Sound (x.hearSettled count vote).1 ∧ (x.hearSettled count vote).1.id = x.id ∧
      (x.hearSettled count vote).1.logicCount = x.logicCount ∧
      (x.hearSettled count vote).1.proposal = x.proposal := by
  have hput : s.Sound (if vote.electionEpoch = x.logicCount then
      { x with votes := x.votes.put vote.idx vote } else x) := by
    split
    next => exact hx.putVote hvote.idx
    next => exact hx
  have hsame : ∀ y : Elector, y = (if vote.electionEpoch = x.logicCount then
      { x with votes := x.votes.put vote.idx vote } else x) →
      y.id = x.id ∧ y.logicCount = x.logicCount ∧ y.proposal = x.proposal ∧ y.phase = x.phase := by
    rintro y rfl
    split <;> exact ⟨rfl, rfl, rfl, rfl⟩
  rw [Elector.hearSettled]
  generalize hy : (if vote.electionEpoch = x.logicCount then
    { x with votes := x.votes.put vote.idx vote } else x) = y at hput
  obtain ⟨hid, hcount, hproposal, hy'⟩ := hsame y hy.symm
  have hother : s.Sound { y with
      otherVote := y.otherVote.put vote.idx ⟨vote.idx, vote.state, -1, vote.voteId, -1⟩ } :=
    { hput with }
  simp only
  split
  next => exact ⟨hput.finish hvote.idx hret (hy' ▸ hphase), hid, hcount, hproposal⟩
  next =>
    split
    next => exact ⟨hother.finish hvote.idx hret (hy' ▸ hphase), hid, hcount, hproposal⟩
    next => exact ⟨hother, hid, hcount, hproposal⟩

end Sound

/-- A vote that is heard moves the server past an epoch, or leaves it there with a
leader that was returned. -/
theorem hearLooking_past {x x' : Elector} {vote : Vote} {brocast : Bool} {e v : Int32}
    (hstate : vote.state = .looking) (hkeeps : s.KeepsVote x vote)
    (h : x.hearLooking vote = some (x', brocast)) (hret : s.Returned e v)
    (hpast : x.Past e v) : x'.Past e v := by
  rw [Elector.hearLooking] at h
  split at h
  next hlt =>
    have hlater : e < vote.electionEpoch := by
      rcases hpast with hpast | ⟨rfl, _⟩
      · exact Std.lt_trans hpast hlt
      · exact hlt
    cases h
    split
    next => exact .inl hlater
    next => exact .inl hlater
  next hle =>
    split at h
    next => cases h
    next hge =>
      have hepoch : vote.electionEpoch = x.logicCount :=
        Std.le_antisymm (Std.not_lt.mp hle) (Std.not_lt.mp hge)
      dsimp only at h
      split at h
      next hlt =>
        cases h
        rcases hpast with hpast | ⟨rfl, rfl⟩
        · exact .inl hpast
        · by_cases hid : vote.voteId = x.proposal.voteId
          · exact .inr ⟨rfl, hid⟩
          · obtain ⟨p, hp, hpe, hpv⟩ := hret
            exact absurd hpv (hkeeps hstate hepoch hlt hid p hp hpe)
      next =>
        cases h
        exact hpast

namespace Inv

theorem start (h : s.Inv) {i : Fin n} (zxId : Int64)
    (hmax : (s.server i).logicCount ≠ Int32.maxValue) :
    (s.setServer i ((s.server i).start zxId)).Inv := by
  refine h.setServer rfl ((h.sound i).start zxId) fun e v _ hpast => .inl ?_
  have hle : e ≤ (s.server i).logicCount := by
    rcases hpast with hlt | ⟨rfl, _⟩
    · exact Std.le_of_lt hlt
    · exact Std.le_refl _
  change e < (s.server i).logicCount + 1
  grind

theorem hear (h : s.Inv) {i : Fin n} {vote : Vote} {x : Elector}
    (hphase : (s.server i).phase = .searching) (htake : (s.server i).take = some (vote, x))
    (hkeeps : s.KeepsVote (s.server i) vote) : (s.apply i (x.hear n vote)).Inv := by
  obtain ⟨hvote, hx, hid, hphase', hcount, hproposal⟩ := (h.sound i).take htake
  have hsearching : x.phase = .searching := hphase'.trans hphase
  have hpast : ∀ e v, (s.server i).Past e v → x.Past e v := by
    intro e v
    unfold Elector.Past
    rw [hcount, hproposal]
    exact id
  have hkeeps' : s.KeepsVote x vote := by
    rw [KeepsVote]
    rw [hcount, hproposal]
    exact hkeeps
  cases hstate : vote.state with
  | looking =>
      cases hlook : x.hearLooking vote with
      | none =>
          simp only [Elector.hear, hstate, hlook]
          exact h.apply_none rfl hid hx (fun e v _ => hpast e v) fun hb => by cases hb
      | some r =>
          obtain ⟨x', brocast⟩ := r
          obtain ⟨hx', hid', hphase'', hstate'⟩ := hx.hearLooking hvote hlook
          have hlooking : x'.state = .looking := hstate'.trans (hx.looking (.inl hsearching))
          have hpast' : ∀ e v, s.Returned e v → (s.server i).Past e v → x'.Past e v :=
            fun e v hret hp => hearLooking_past hstate hkeeps' hlook hret (hpast e v hp)
          have hidle : x'.phase ≠ .idle := by simp [hphase'', hsearching]
          simp only [Elector.hear, hstate, hlook]
          split
          next =>
            have hconfirm : s.Sound { x' with phase := .confirming } :=
              { hx' with
                looking := fun _ => hlooking
                epoch := fun _ => hx'.epoch hidle
                idx := fun _ => hx'.idx hidle }
            exact h.apply_none rfl (hid'.trans hid) hconfirm hpast' fun _ => ⟨by simp, hlooking⟩
          next =>
            exact h.apply_none rfl (hid'.trans hid) hx' hpast' fun _ => ⟨hidle, hlooking⟩
  | following | leading =>
      have hret := hvote.returned (by simp [hstate])
      obtain ⟨hx', hid', hcount', hproposal'⟩ :=
        hx.hearSettled hvote (by simp [hsearching]) hret n
      have hpast' : ∀ e v, (s.server i).Past e v → (x.hearSettled n vote).1.Past e v := by
        intro e v hp
        rw [Elector.Past]
        rw [hcount', hproposal']
        exact hpast e v hp
      simp only [Elector.hear, hstate]
      cases hdone : (x.hearSettled n vote).2 with
      | false =>
          exact h.apply_none rfl (hid'.trans hid) hx' (fun e v _ => hpast' e v)
            fun hb => by cases hb
      | true =>
          have hkeep : Keeps s (s.record i (some vote)) := ⟨fun _ => rfl, fun _ hp => .tail _ hp⟩
          exact Inv.apply (h.record_echo i hret) (hid'.trans hid) (hkeep.sound hx')
            (fun e v _ => hpast' e v) fun hb => by cases hb
  | other =>
      simp only [Elector.hear, hstate]
      exact h.apply_none rfl hid hx (fun e v _ => hpast e v) fun hb => by cases hb

theorem confirmPop (h : s.Inv) {i : Fin n} {m : Vote} {x : Elector}
    (hphase : (s.server i).phase = .confirming) (hpop : (s.server i).confirmPop m = some x)
    (hm : ∀ vote ∈ (s.server i).recvCh.head?, (s.server i).proposal.lt vote = true → m = vote) :
    (s.setServer i x).Inv := by
  have hsound := h.sound i
  rw [Elector.confirmPop] at hpop
  cases hr : (s.server i).recvCh with
  | nil =>
      rw [hr] at hpop
      cases hpop
  | cons vote recvCh =>
      rw [hr] at hpop hm
      have hmem : ∀ w ∈ vote :: recvCh, s.Known w := hr ▸ hsound.recvCh
      have hrest : s.Sound { s.server i with recvCh := recvCh } :=
        { hsound with recvCh := fun w hw => hmem w (.tail _ hw) }
      cases hpop
      split
      next hlt =>
        refine h.setServer rfl ?_ fun e v _ hpast => hpast
        refine { hrest with
          queue := fun w hw => ?_
          looking := fun _ => hsound.looking (.inr hphase)
          epoch := fun _ => hsound.epoch (by simp [hphase])
          idx := fun _ => hsound.idx (by simp [hphase]) }
        rcases List.mem_append.mp hw with hw | hw
        · exact hsound.queue w hw
        · rw [List.mem_singleton.mp hw, hm vote (by simp) hlt]
          exact hmem vote (.head _)
      next => exact h.setServer rfl hrest fun e v _ hpast => hpast

theorem expire (h : s.Inv) {i : Fin n} (hphase : (s.server i).phase = .confirming)
    (hbacked : (s.server i).queue = [] → s.Backed i) :
    (s.apply i (s.server i).expire).Inv := by
  have hidle : (s.server i).phase ≠ .idle := by simp [hphase]
  have hsound := h.sound i
  rw [Elector.expire]
  split
  next hq =>
    have hrecord := h.record_backed hidle (hbacked hq)
    have hkeep : Keeps s (s.record i (some (s.server i).proposal)) :=
      ⟨fun _ => rfl, fun _ hp => .tail _ hp⟩
    refine Inv.apply hrecord rfl ((hkeep.sound hsound).finish ⟨i, ?_⟩ ⟨_, .head _, rfl, rfl⟩ hidle)
      (fun e v _ hp => hp) fun hb => by cases hb
    exact (hsound.idx hidle).symm
  next =>
    have hback : s.Sound { s.server i with phase := .searching } :=
      { hsound with
        looking := fun _ => hsound.looking (.inr hphase)
        epoch := fun _ => hsound.epoch hidle
        idx := fun _ => hsound.idx hidle }
    exact h.apply_none rfl rfl hback (fun e v _ hp => hp) fun hb => by cases hb

/-- A steady step keeps the invariant. -/
theorem step {s' : Elections n} {a : ElectionAct n} (h : s.Inv) (ha : Steady s a)
    (hs : s.step a = some s') : s'.Inv := by
  cases a with
  | start i zxId =>
      simp only [Elections.step] at hs
      split at hs
      next =>
        cases hs
        exact h.start zxId ha
      next =>
        cases hs
        exact h.start zxId ha
      next => cases hs
  | resend i =>
      simp only [Elections.step] at hs
      split at hs
      next hcond =>
        cases hs
        have hsound := h.sound i
        refine h.brocast i ⟨⟨i, ?_⟩, ?_⟩
        · exact (hsound.idx (by simp [hcond.1])).symm
        · simp [Elector.sent, hsound.looking (.inl hcond.1)]
      next => cases hs
  | hear i =>
      simp only [Elections.step] at hs
      split at hs
      next hphase =>
        obtain ⟨⟨vote, x⟩, htake, rfl⟩ := Option.map_eq_some_iff.mp hs
        exact h.hear hphase htake (ha _ htake)
      next => cases hs
  | confirmPop i m =>
      simp only [Elections.step] at hs
      split at hs
      next hphase =>
        obtain ⟨x, hpop, rfl⟩ := Option.map_eq_some_iff.mp hs
        exact h.confirmPop hphase hpop ha
      next => cases hs
  | expire i =>
      simp only [Elections.step] at hs
      split at hs
      next hphase =>
        cases hs
        exact h.expire hphase ha
      next => cases hs
  | echo i =>
      simp only [Elections.step] at hs
      split at hs
      next leader vote recvCh _ hleader hr =>
        have hsound := h.sound i
        have hmem : ∀ w ∈ vote :: recvCh, s.Known w := hr ▸ hsound.recvCh
        have hset : (s.setServer i { s.server i with recvCh := recvCh }).Inv :=
          h.setServer rfl { hsound with recvCh := fun w hw => hmem w (.tail _ hw) }
            fun e v _ hp => hp
        split at hs
        next =>
          cases hs
          refine hset.send i _ ?_
          have hkept := hset.sound i
          simp only [Elections.setServer, Function.update_self] at hkept
          obtain ⟨hidx, hret⟩ := hkept.leader leader hleader
          exact ⟨hidx, fun _ => hret⟩
        next =>
          cases hs
          exact hset
      next => cases hs
  | deliver i j =>
      simp only [Elections.step] at hs
      split at hs
      next => cases hs
      next vote votes hnet =>
        cases hs
        have hmem : ∀ w ∈ vote :: votes, s.Known w := hnet ▸ h.net i j
        have hshrunk : Inv { s with
            net := fun a b => if a = i ∧ b = j then votes else s.net a b } := by
          refine h.setNet fun a b w hw => ?_
          split at hw
          next => exact hmem w (.tail _ hw)
          next => exact h.net a b w hw
        have hsound := hshrunk.sound j
        refine hshrunk.setServer rfl { hsound with recvCh := fun w hw => ?_ } fun e v _ hp => hp
        rcases List.mem_append.mp hw with hw | hw
        · exact hsound.recvCh w hw
        · have hknown := hmem vote (.head _)
          rw [List.mem_singleton.mp hw]
          exact ⟨hknown.idx, hknown.returned⟩
  | lose i j k =>
      cases hs
      refine h.setNet fun a b w hw => ?_
      split at hw
      next => exact h.net a b w (List.mem_of_mem_take hw)
      next => exact h.net a b w hw

end Inv

end Elections

/-- In every steady run, all calls of `LookForLeader` that return with one epoch
return one leader. -/
theorem election_agrees {s : Elections n} (h : (elections n).Run Steady s) : ElectionAgrees s := by
  have hinv : s.Inv := Transition.System.Run.invariant (I := Elections.Inv)
    (fun _ hf => Elections.Inv.of_fresh hf) (fun _ _ _ hi ha hs => hi.step ha hs) h
  exact hinv.agrees

/-! ## Runs of three servers -/

/-- Servers 1, 2 and 3 before their first election. -/
def threeElectors : Elections 3 := { server := fun i => { id := Int32.ofNat (i.val + 1) } }

theorem threeElectors_fresh : threeElectors.Fresh :=
  ⟨fun i => Int32.ofNat (i.val + 1), fun _ => 0, by decide, rfl⟩

/-- Servers 1 and 2 elect server 2 before they hear of server 3.  Server 3 then
counts their votes for server 2. -/
def lateVote [NeZero n] : List (ElectionAct n) :=
  [.start 0 0, .start 1 0, .start 2 0, .resend 0, .resend 1,
   .deliver 1 0, .hear 0, .expire 0,
   .deliver 0 2, .hear 2, .deliver 1 2, .hear 2, .deliver 0 2, .hear 2, .expire 2]

/-- Server 3's vote is heard in time. -/
def votesInTime [NeZero n] : List (ElectionAct n) :=
  [.start 0 0, .start 1 0, .start 2 0, .resend 2,
   .deliver 2 0, .hear 0, .deliver 2 1, .hear 1, .expire 0, .expire 1,
   .deliver 0 2, .hear 2, .expire 2]

/-- What the calls have returned: the server, the epoch and the leader. -/
def Elections.verdicts (s : Elections n) : List (Fin n × Int32 × Int32) :=
  s.returned.map fun p => (p.1, p.2.electionEpoch, p.2.voteId)

/-- Server 1 returns server 2, and server 3 returns itself, in one epoch. -/
theorem late_vote_elects_another :
    ¬ ∀ s, (elections 3).Reachable s → ElectionAgrees s := by
  intro h
  have hrun : (Transition.exec Elections.step threeElectors lateVote).map Elections.verdicts =
      some [((2 : Fin 3), 1, 3), (0, 1, 2)] := by
    decide +kernel
  obtain ⟨s, hs, hverdicts⟩ := Option.map_eq_some_iff.mp hrun
  have hagrees := h s (Transition.exec_reachable threeElectors_fresh hs)
  have hmem : ∀ i e v, (i, e, v) ∈ s.verdicts →
      ∃ p ∈ s.returned, p.2.electionEpoch = e ∧ p.2.voteId = v := by
    intro i e v hmem
    obtain ⟨p, hp, heq⟩ := List.mem_map.mp hmem
    cases heq
    exact ⟨p, hp, rfl, rfl⟩
  rw [hverdicts] at hmem
  obtain ⟨p, hp, hpe, hpv⟩ := hmem 2 1 3 (by simp)
  obtain ⟨q, hq, hqe, hqv⟩ := hmem 0 1 2 (by simp)
  have := hagrees p hp q hq (hpe.trans hqe.symm)
  rw [hpv, hqv] at this
  exact absurd this (by decide)

/-- All three servers return server 3. -/
theorem election_agrees_in_time :
    ∃ s, Transition.exec Elections.step threeElectors votesInTime = some s ∧
      s.verdicts = [((2 : Fin 3), 1, 3), (1, 1, 3), (0, 1, 3)] ∧ ElectionAgrees s := by
  have hrun : (Transition.exec Elections.step threeElectors votesInTime).map Elections.verdicts =
      some [((2 : Fin 3), 1, 3), (1, 1, 3), (0, 1, 3)] := by
    decide +kernel
  obtain ⟨s, hs, hverdicts⟩ := Option.map_eq_some_iff.mp hrun
  have hguard : Transition.Guarded Elections.step Steady threeElectors votesInTime := by
    decide +kernel
  exact ⟨s, hs, hverdicts,
    election_agrees (Transition.exec_run (.start threeElectors_fresh) hguard hs)⟩

end Paxos
