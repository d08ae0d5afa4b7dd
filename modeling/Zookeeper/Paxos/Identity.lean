import Zookeeper.Paxos.Requests

/-!
# Whose call a commit resumes

A commit names the server that asked for it and a request id.  Request ids belong
to one `Lead` or `Follow`, and a server that connects again has a new `Follow`, which
counts from one, while its drafts wait on in the queue of the lead.  A commit for
such a draft takes a call of the new `Follow` (`commit_takes_other_call`).

`commit_takes_its_call` is the other side: where every draft is committed while the
connection it came from is the one in the forwarding table, or none is, a commit
takes the call it was asked for.
-/

namespace Paxos

open Requests

variable {n : Nat}

namespace Requests

/-- A request id is that of a call with this data. -/
def Holds (s : Requests n) (a : Asked) (k : Nat) : Prop :=
  s.asked a.executor a.requestId = some k ∧ ∃ call, s.calls k = some call ∧ call.data = a.data

/-- The calls taken for a commit are those the lead gave its id to. -/
def Identity (s : Requests n) : Prop :=
  ∀ p ∈ s.popped, ∃ a, s.given p.1 p.2.1 = some a ∧ s.Holds a p.2.2

/-- The draft that an acknowledgement commits came over the connection that is in
the forwarding table for its server. -/
def FromForwarded (s : Requests n) (i : Nat) (l : Leader n) (id : Fin n) (zxId : Int64) : Prop :=
  ∀ d ∈ (l.lead.vote id zxId).2, d.id ≠ l.lead.id →
    ∀ c ∈ l.forwarding d.id, ∀ a ∈ s.given i d.zxId, a.executor = .follow c

/-- The condition on the message a handler reads. -/
def KeptReply (s : Requests n) (x : Follower n) (l : Leader n) (commit : CommitEnd) :
    Option Reply → Prop
  | some (.request _ _) => l.lead.nextId < 0x100000000
  | some (.ackPropose zxId) => commit = .returns → s.FromForwarded x.lead l x.id zxId
  | none => True

/-- The condition on the executor of a call. -/
def KeptCall (s : Requests n) : Executor → Prop
  | .lead i => ∀ l ∈ s.leads i, l.lead.nextId < 0x100000000
  | .follow _ => True

end Requests

/-- Drafts are committed on the connection they came from, and the counters do not
overflow. -/
def Kept (s : Requests n) : RequestAct n → Prop
  | .call _ id _ _ =>
      ∀ e ∈ s.executor id, (s.services e).nextRequestId ≠ Int64.maxValue ∧ s.KeptCall e
  | .reply c _ commit =>
      ∀ x ∈ s.follows c, ∀ l ∈ s.leads x.lead, s.KeptReply x l commit x.up.head?
  | _ => True

namespace Requests

/-! ## The invariant -/

/-- What a follow says: it is not on the server of its lead, its requests are those
of its calls, and the commits for its server are for them. -/
structure FollowerSound (s : Requests n) (c : Nat) (x : Follower n) : Prop where
  lead : ∃ l, s.leads x.lead = some l ∧ l.lead.id ≠ x.id
  up : ∀ requestId data, .request requestId data ∈ x.up →
    ∃ k, s.Holds ⟨.follow c, requestId, data⟩ k
  down : ∀ zxId requestId, .commit zxId x.id requestId ∈ x.down →
    ∃ data, s.given x.lead zxId = some ⟨.follow c, requestId, data⟩

/-- What a lead says: its queue holds what it gave ids to. -/
structure LeaderSound (s : Requests n) (i : Nat) (l : Leader n) : Prop where
  positive : 0 < l.lead.nextId.toInt
  bounded : l.lead.nextId.toInt ≤ 2 ^ 32
  queued : ∀ d ∈ l.lead.uncommit, ∃ e, s.given i d.zxId = some ⟨e, d.requestId, d.data⟩ ∧
    (d.id = l.lead.id → e = .lead i)
  forwarding : ∀ id c, l.forwarding id = some c → ∃ x, s.follows c = some x ∧ x.lead = i

structure Inv (s : Requests n) : Prop where
  callbacks : ∀ e p, p ∈ (s.services e).callbacks → s.asked e p.1 = some p.2
  asked : ∀ e r k, s.asked e r = some k → r < (s.services e).nextRequestId
  follows : ∀ c x, s.follows c = some x → s.FollowerSound c x
  leads : ∀ i l, s.leads i = some l → s.LeaderSound i l
  given : ∀ i zxId a, s.given i zxId = some a → (∃ k, s.Holds a k) ∧
    ∃ l, s.leads i = some l ∧ l.lead.Given zxId
  popped : s.Identity

/-- What was recorded stays. -/
structure Keeps (s s' : Requests n) : Prop where
  asked : ∀ e r k, s.asked e r = some k → s'.asked e r = some k
  given : ∀ i z a, s.given i z = some a → s'.given i z = some a
  calls : ∀ k call, s.calls k = some call →
    ∃ call', s'.calls k = some call' ∧ call'.data = call.data

theorem Keeps.holds {s s' : Requests n} (h : Keeps s s') {a : Asked} {k : Nat}
    (ha : s.Holds a k) : s'.Holds a k := by
  obtain ⟨hasked, call, hcall, hdata⟩ := ha
  obtain ⟨call', hcall', hdata'⟩ := h.calls k call hcall
  exact ⟨h.asked _ _ _ hasked, call', hcall', hdata'.trans hdata⟩

theorem Keeps.identity {s s' : Requests n} (h : Keeps s s') (hi : s.Identity)
    (hpopped : s'.popped = s.popped) : s'.Identity := by
  intro p hp
  obtain ⟨a, ha, hk⟩ := hi p (hpopped ▸ hp)
  exact ⟨a, h.given _ _ _ ha, h.holds hk⟩

theorem Keeps.follower {s s' : Requests n} (h : Keeps s s') {c : Nat} {x : Follower n}
    (hx : s.FollowerSound c x)
    (hlead : ∀ l, s.leads x.lead = some l → ∃ l', s'.leads x.lead = some l' ∧
      l'.lead.id = l.lead.id) : s'.FollowerSound c x where
  lead := by
    obtain ⟨l, hl, hne⟩ := hx.lead
    obtain ⟨l', hl', hid⟩ := hlead l hl
    exact ⟨l', hl', hid ▸ hne⟩
  up r data hr := by
    obtain ⟨k, hk⟩ := hx.up r data hr
    exact ⟨k, h.holds hk⟩
  down z r hz := by
    obtain ⟨data, hdata⟩ := hx.down z r hz
    exact ⟨data, h.given _ _ _ hdata⟩

/-- A follow may be sent any notice but a commit of its server that is for another. -/
theorem FollowerSound.send {s : Requests n} {c : Nat} {x : Follower n} (h : s.FollowerSound c x)
    (notice : Notice n) (hnotice : ∀ z r, notice = .commit z x.id r →
      ∃ data, s.given x.lead z = some ⟨.follow c, r, data⟩) :
    s.FollowerSound c { x with down := x.down ++ [notice] } where
  lead := h.lead
  up := h.up
  down z r hz := by
    rcases List.mem_append.mp hz with hz | hz
    · exact h.down z r hz
    · exact hnotice z r (List.mem_singleton.mp hz).symm

/-- A follow goes on, and what is on the way to it and to its lead shrinks. -/
theorem FollowerSound.shrink {s : Requests n} {c : Nat} {x x' : Follower n}
    (h : s.FollowerSound c x) (hlead : x'.lead = x.lead) (hid : x'.id = x.id)
    (hup : ∀ r data, .request r data ∈ x'.up → .request r data ∈ x.up)
    (hdown : x'.down ⊆ x.down) : s.FollowerSound c x' where
  lead := by
    obtain ⟨l, hl, hne⟩ := h.lead
    exact ⟨l, hlead ▸ hl, hid ▸ hne⟩
  up r data hr := h.up r data (hup r data hr)
  down z r hz := by
    rw [hlead]
    exact h.down z r (hid ▸ hdown hz)

/-- A draft leaves the queue, or the tables change, but the forwarding table
gets no new entry. -/
theorem LeaderSound.shrink {s : Requests n} {i : Nat} {l t : Leader n} (h : s.LeaderSound i l)
    (hid : t.lead.id = l.lead.id) (hnext : t.lead.nextId = l.lead.nextId)
    (hqueue : t.lead.uncommit ⊆ l.lead.uncommit)
    (hforw : ∀ id c, t.forwarding id = some c → l.forwarding id = some c) :
    s.LeaderSound i t where
  positive := hnext ▸ h.positive
  bounded := hnext ▸ h.bounded
  queued d hd := hid ▸ h.queued d (hqueue hd)
  forwarding id c hc := h.forwarding id c (hforw id c hc)

namespace Inv

variable {s : Requests n}

theorem of_init (h : (requests n).init s) : s.Inv := by
  cases h
  refine ⟨?_, ?_, ?_, ?_, ?_, ?_⟩
  · intro e p hp
    cases hp
  · intro e r k hk
    cases hk
  · intro c x hx
    cases hx
  · intro i l hl
    cases hl
  · intro i z a ha
    cases ha
  · intro p hp
    cases hp

/-! ## Small changes -/

/-- A change of the calls that leaves their data. -/
theorem setCalls (h : s.Inv) {calls : Nat → Option (Call n)}
    (hcalls : ∀ k call, s.calls k = some call →
      ∃ call', calls k = some call' ∧ call'.data = call.data) :
    Inv { s with calls := calls } := by
  have hkeeps : Keeps s { s with calls := calls } :=
    ⟨fun _ _ _ hk => hk, fun _ _ _ ha => ha, hcalls⟩
  refine ⟨h.callbacks, h.asked, ?_, ?_, ?_, hkeeps.identity h.popped rfl⟩
  · exact fun c x hx => hkeeps.follower (h.follows c x hx) fun l hl => ⟨l, hl, rfl⟩
  · intro i l hl
    have hs := h.leads i l hl
    exact ⟨hs.positive, hs.bounded, hs.queued, hs.forwarding⟩
  · intro i z a ha
    obtain ⟨⟨k, hk⟩, hl⟩ := h.given i z a ha
    exact ⟨⟨k, hkeeps.holds hk⟩, hl⟩

theorem mapCall (h : s.Inv) (k : Nat) {f : Call n → Call n}
    (hf : ∀ call, (f call).data = call.data) :
    (s.mapCall k f).Inv := by
  refine h.setCalls fun k' call hcall => ?_
  by_cases hk : k' = k
  · subst hk
    exact ⟨f call, by simp [hcall], hf call⟩
  · exact ⟨call, by simpa [Function.update_of_ne hk] using hcall, rfl⟩

/-- Callbacks are taken away. -/
theorem setService (h : s.Inv) {e : Executor} {service : Service}
    (hsub : service.callbacks ⊆ (s.services e).callbacks)
    (hnext : service.nextRequestId = (s.services e).nextRequestId) :
    (s.setService e service).Inv := by
  refine ⟨?_, ?_, ?_, ?_, h.given, h.popped⟩
  · intro e' p hp
    by_cases he : e' = e
    · subst he
      simp only [Requests.setService, Function.update_self] at hp
      exact h.callbacks e' p (hsub hp)
    · simp only [Requests.setService, Function.update_of_ne he] at hp
      exact h.callbacks e' p hp
  · intro e' r k hk
    by_cases he : e' = e
    · subst he
      simpa [Requests.setService, hnext] using h.asked e' r k hk
    · simpa [Requests.setService, Function.update_of_ne he] using h.asked e' r k hk
  · intro c x hx
    have hs := h.follows c x hx
    exact ⟨hs.lead, hs.up, hs.down⟩
  · intro i l hl
    have hs := h.leads i l hl
    exact ⟨hs.positive, hs.bounded, hs.queued, hs.forwarding⟩

theorem setActive (h : s.Inv) (e : Executor) (active : Bool) :
    (s.setService e { s.services e with active := active }).Inv :=
  h.setService (fun _ hp => hp) rfl

theorem clearRequest (h : s.Inv) (e : Executor) : (s.clearRequest e).Inv := by
  have hservice : (s.setService e (s.services e).clearRequest).Inv :=
    h.setService (by simp [Service.clearRequest]) rfl
  refine hservice.setCalls fun k call hcall => ?_
  split
  next => exact ⟨call.fail.finish, by simp [show s.calls k = some call from hcall], rfl⟩
  next => exact ⟨call, hcall, rfl⟩

theorem setFollower (h : s.Inv) {c : Nat} {x y : Follower n} (hold : s.follows c = some y)
    (hlead : x.lead = y.lead) (hx : s.FollowerSound c x) : (s.setFollower c x).Inv := by
  refine ⟨h.callbacks, h.asked, ?_, ?_, h.given, h.popped⟩
  · intro c' x' hx'
    by_cases hc : c' = c
    · subst hc
      simp only [Requests.setFollower, Function.update_self, Option.some.injEq] at hx'
      subst hx'
      exact ⟨hx.lead, hx.up, hx.down⟩
    · simp only [Requests.setFollower, Function.update_of_ne hc] at hx'
      have hs := h.follows c' x' hx'
      exact ⟨hs.lead, hs.up, hs.down⟩
  · intro i l hl
    have hs := h.leads i l hl
    refine ⟨hs.positive, hs.bounded, hs.queued, fun id c' hc' => ?_⟩
    obtain ⟨x', hx', hi⟩ := hs.forwarding id c' hc'
    by_cases hc : c' = c
    · subst hc
      rw [hold] at hx'
      cases hx'
      exact ⟨x, by simp [Requests.setFollower], hlead.trans hi⟩
    · exact ⟨x', by simpa [Requests.setFollower, Function.update_of_ne hc] using hx', hi⟩

/-- The tables and the queue of a lead change. -/
theorem setLeader (h : s.Inv) {i : Nat} {l t : Leader n} (hl : s.leads i = some l)
    (hid : t.lead.id = l.lead.id) (hgiven : ∀ z, l.lead.Given z → t.lead.Given z)
    (hs : s.LeaderSound i t) : (s.setLeader i t).Inv := by
  have hkeeps : Keeps s (s.setLeader i t) :=
    ⟨fun _ _ _ hk => hk, fun _ _ _ ha => ha, fun _ call hcall => ⟨call, hcall, rfl⟩⟩
  refine ⟨h.callbacks, h.asked, ?_, ?_, ?_, h.popped⟩
  · intro c x hx
    refine hkeeps.follower (h.follows c x hx) fun m hm => ?_
    by_cases hi : x.lead = i
    · subst hi
      rw [hl] at hm
      cases hm
      exact ⟨t, by simp [Requests.setLeader], hid⟩
    · exact ⟨m, by simpa [Requests.setLeader, Function.update_of_ne hi] using hm, rfl⟩
  · intro j m hm
    by_cases hj : j = i
    · subst hj
      simp only [Requests.setLeader, Function.update_self, Option.some.injEq] at hm
      subst hm
      exact ⟨hs.positive, hs.bounded, hs.queued, hs.forwarding⟩
    · simp only [Requests.setLeader, Function.update_of_ne hj] at hm
      have hs := h.leads j m hm
      exact ⟨hs.positive, hs.bounded, hs.queued, hs.forwarding⟩
  · intro j z a ha
    obtain ⟨hk, m, hm, hz⟩ := h.given j z a ha
    refine ⟨hk, ?_⟩
    by_cases hj : j = i
    · subst hj
      rw [hl] at hm
      cases hm
      exact ⟨t, by simp [Requests.setLeader], hgiven z hz⟩
    · exact ⟨m, by simpa [Requests.setLeader, Function.update_of_ne hj] using hm, hz⟩

theorem mapFollower (h : s.Inv) {c : Nat} {f : Follower n → Follower n}
    (hf : ∀ x, s.follows c = some x → (f x).lead = x.lead ∧ s.FollowerSound c (f x)) :
    (s.mapFollower c f).Inv := by
  cases hx : s.follows c with
  | none =>
      have hnone : Function.update s.follows c none = s.follows := by
        rw [← hx, Function.update_eq_self]
      have heq : s.mapFollower c f = s := by
        simp only [Requests.mapFollower, hx, Option.map_none, hnone]
      rw [heq]
      exact h
  | some x =>
      have heq : s.mapFollower c f = s.setFollower c (f x) := by
        simp [Requests.mapFollower, Requests.setFollower, hx]
      rw [heq]
      exact h.setFollower hx (hf x hx).1 (hf x hx).2

/-! ## Messages -/

theorem sendTo (h : s.Inv) (fd : Option Nat) {notice : Notice n}
    (hnotice : ∀ z id r, notice ≠ .commit z id r) : (s.sendTo fd notice).Inv := by
  cases fd with
  | none => exact h
  | some c =>
      refine h.mapFollower fun x hx => ⟨rfl, ?_⟩
      exact (h.follows c x hx).send notice fun z r heq => absurd heq (hnotice z x.id r)

/-- A notice goes to all in a forwarding table, for whom it is right. -/
theorem broadcast (h : s.Inv) {l : Leader n} {notice : Notice n}
    (hnotice : ∀ c x, s.follows c = some x → l.forwarding x.id = some c →
      ∀ z r, notice = .commit z x.id r →
        ∃ data, s.given x.lead z = some ⟨.follow c, r, data⟩) : (s.broadcast l notice).Inv := by
  refine ⟨h.callbacks, h.asked, ?_, ?_, h.given, h.popped⟩
  · intro c x hx
    obtain ⟨y, hy, rfl⟩ := Option.map_eq_some_iff.mp hx
    have hs := h.follows c y hy
    split
    next hforw =>
      have hsend := hs.send notice (hnotice c y hy hforw)
      exact ⟨hsend.lead, hsend.up, hsend.down⟩
    next => exact ⟨hs.lead, hs.up, hs.down⟩
  · intro i m hm
    have hs := h.leads i m hm
    refine ⟨hs.positive, hs.bounded, hs.queued, fun id c hc => ?_⟩
    obtain ⟨x, hx, hi⟩ := hs.forwarding id c hc
    refine ⟨if l.forwarding x.id = some c then { x with down := x.down ++ [notice] } else x,
      by simp only [Requests.broadcast, hx, Option.map_some], ?_⟩
    split
    next => exact hi
    next => exact hi

theorem broadcast_other (h : s.Inv) (l : Leader n) {notice : Notice n}
    (hnotice : ∀ z id r, notice ≠ .commit z id r) : (s.broadcast l notice).Inv :=
  h.broadcast fun _ x _ _ z r heq => absurd heq (hnotice z x.id r)

/-! ## Callbacks -/

theorem takeFailed (h : s.Inv) (e : Executor) (requestId : Int64) (current : Option Nat) :
    (s.takeFailed e requestId current).Inv := by
  have hservice : (s.setService e ((s.services e).popRequest requestId).1).Inv :=
    h.setService (Service.popRequest_subset _ _) rfl
  rw [Requests.takeFailed]
  dsimp only
  split
  next => exact hservice
  next k _ =>
    refine hservice.mapCall k fun call => ?_
    split <;> rfl

/-- A commit takes the call that the lead gave its id to. -/
theorem takeCommitted (h : s.Inv) {e : Executor} {i : Nat} {zxId requestId : Int64} {data : Bytes}
    (hgiven : s.given i zxId = some ⟨e, requestId, data⟩) :
    (s.takeCommitted e i zxId requestId).1.Inv := by
  have hservice : (s.setService e ((s.services e).popRequest requestId).1).Inv :=
    h.setService (Service.popRequest_subset _ _) rfl
  rw [Requests.takeCommitted]
  dsimp only
  split
  next => exact hservice
  next k hpop =>
    refine ⟨hservice.callbacks, hservice.asked, ?_, ?_, hservice.given, ?_⟩
    · intro c x hx
      have hs := hservice.follows c x hx
      exact ⟨hs.lead, hs.up, hs.down⟩
    · intro j l hl
      have hs := hservice.leads j l hl
      exact ⟨hs.positive, hs.bounded, hs.queued, hs.forwarding⟩
    · intro p hp
      rcases List.mem_cons.mp hp with rfl | hp
      · have hasked := h.callbacks e _ (Service.popRequest_mem hpop)
        obtain ⟨⟨k', hasked', hdata⟩, -⟩ := h.given i zxId _ hgiven
        rw [hasked] at hasked'
        cases hasked'
        exact ⟨_, hgiven, hasked, hdata⟩
      · exact h.popped p hp

/-- A call is pushed under a request id that is new. -/
theorem pushRequest (h : s.Inv) {k : Nat} (call : Call n) {e : Executor} (hk : s.calls k = none)
    (hmax : (s.services e).nextRequestId ≠ Int64.maxValue) :
    let s' := Requests.setService { s with
      calls := Function.update s.calls k (some call)
      asked := Function.update s.asked e
        (Function.update (s.asked e) (s.services e).nextRequestId (some k)) } e
      ((s.services e).pushRequest k).1
    s'.Inv ∧ s'.Holds ⟨e, (s.services e).nextRequestId, call.data⟩ k := by
  intro s'
  have hasked : ∀ e' r k', s.asked e' r = some k' → s'.asked e' r = some k' := by
    intro e' r k' hr
    have hlt := h.asked e' r k' hr
    by_cases he : e' = e
    · subst he
      have hne : r ≠ (s.services e').nextRequestId := by grind
      simpa [s', Requests.setService, Function.update_of_ne hne] using hr
    · simpa [s', Requests.setService, Function.update_of_ne he] using hr
  have hkeeps : Keeps s s' := by
    refine ⟨hasked, fun _ _ _ ha => ha, fun k' call' hcall' => ⟨call', ?_, rfl⟩⟩
    have hne : k' ≠ k := fun heq => by simp [heq, hk] at hcall'
    simpa [s', Requests.setService, Function.update_of_ne hne] using hcall'
  have hnew : s'.asked e (s.services e).nextRequestId = some k := by
    simp [s', Requests.setService]
  refine ⟨⟨?_, ?_, ?_, ?_, ?_, hkeeps.identity h.popped rfl⟩, hnew, call, ?_, rfl⟩
  · intro e' p hp
    by_cases he : e' = e
    · subst he
      simp only [s', Requests.setService, Function.update_self] at hp
      rcases Service.pushRequest_mem hp with rfl | hp
      · exact hnew
      · exact hasked e' p.1 p.2 (h.callbacks e' p hp)
    · simp only [s', Requests.setService, Function.update_of_ne he] at hp
      exact hasked e' p.1 p.2 (h.callbacks e' p hp)
  · intro e' r k' hr
    by_cases he : e' = e
    · subst he
      simp only [s', Requests.setService, Function.update_self] at hr ⊢
      have hnext : ((s.services e').pushRequest k).1.nextRequestId =
          (s.services e').nextRequestId + 1 := rfl
      rw [hnext]
      by_cases hreq : r = (s.services e').nextRequestId
      · grind
      · rw [Function.update_of_ne hreq] at hr
        have := h.asked e' r k' hr
        grind
    · simp only [s', Requests.setService, Function.update_of_ne he] at hr ⊢
      exact h.asked e' r k' hr
  · exact fun c x hx => hkeeps.follower (h.follows c x hx) fun l hl => ⟨l, hl, rfl⟩
  · intro i l hl
    have hs := h.leads i l hl
    exact ⟨hs.positive, hs.bounded, hs.queued, hs.forwarding⟩
  · intro i z a ha
    obtain ⟨⟨k', hk'⟩, hl⟩ := h.given i z a ha
    exact ⟨⟨k', hkeeps.holds hk'⟩, hl⟩
  · simp [s', Requests.setService]

/-! ## Handlers and drafts -/

theorem closeHandler (h : s.Inv) (c : Nat) : (s.closeHandler c).Inv := by
  rw [Requests.closeHandler]
  split
  next => exact h
  next x hx =>
    split
    next => exact h
    next l hl =>
      have hsound := (h.leads _ _ hl).shrink (t := { l with
        count := l.count - 1
        followers := Function.update l.followers x.id none
        forwarding := Function.update l.forwarding x.id none }) rfl rfl (fun _ hd => hd) ?_
      · have hlead := h.setLeader (t := { l with
          count := l.count - 1
          followers := Function.update l.followers x.id none
          forwarding := Function.update l.forwarding x.id none }) hl rfl (fun _ hz => hz) hsound
        exact hlead.setFollower (x := { x with handler := .closed }) hx rfl
          ((hlead.follows c x hx).shrink rfl rfl (fun _ _ hr => hr) fun _ hz => hz)
      · intro id c' hc'
        by_cases hid : id = x.id
        · simp [hid] at hc'
        · simpa [Function.update_of_ne hid] using hc'

theorem launched (h : s.Inv) (i : Nat) (l : Leader n) (launch : Launch n) (current : Option Nat) :
    (s.launched i l launch current).Inv := by
  have hanswered : ∀ (ds : List (Draft n)) (s : Requests n), s.Inv →
      (ds.foldl (answerFailed i l current) s).Inv := by
    intro ds
    induction ds with
    | nil => exact fun _ h => h
    | cons d ds ih =>
        intro s h
        refine ih _ ?_
        rw [answerFailed]
        split
        next => exact h.sendTo _ (by simp)
        next => exact h.takeFailed _ _ _
  unfold Requests.launched
  dsimp only
  split
  next =>
    split
    next => exact hanswered _ s h
    next => exact (hanswered _ s h).broadcast_other l (by simp)
  next => exact hanswered _ s h

/-- The counter of a lead goes on. -/
theorem nextId (h : s.Inv) {i : Nat} {l : Leader n} (hl : s.leads i = some l)
    (hdraft : IsDraftId l.lead.nextId) :
    (s.setLeader i { l with lead := { l.lead with nextId := l.lead.nextId + 1 } }).Inv := by
  have hs := h.leads i l hl
  have hsucc := hdraft.toInt_add_one
  refine h.setLeader hl rfl ?_ ⟨?_, ?_, hs.queued, hs.forwarding⟩
  · rintro z ⟨m, hm, hlt, rfl⟩
    exact ⟨m, hm, Std.lt_trans hlt hdraft.lt_add_one, rfl⟩
  · have := hs.positive
    show 0 < (l.lead.nextId + 1).toInt
    omega
  · have := hdraft.2
    show (l.lead.nextId + 1).toInt ≤ 2 ^ 32
    omega

/-- The next id was given to none. -/
theorem next_fresh (h : s.Inv) {i : Nat} {l : Leader n} (hl : s.leads i = some l)
    (hdraft : IsDraftId l.lead.nextId) :
    s.given i (zxIdOf l.lead.peerEpoch l.lead.nextId) = none := by
  cases hold : s.given i (zxIdOf l.lead.peerEpoch l.lead.nextId) with
  | none => rfl
  | some b =>
      obtain ⟨-, l', hl', hz⟩ := h.given i _ b hold
      rw [hl] at hl'
      cases hl'
      exact absurd (hz.lt hdraft) (Std.lt_irrefl)

/-- A lead gives one of its ids, which it has given to none. -/
theorem give (h : s.Inv) {i : Nat} {l : Leader n} (hl : s.leads i = some l) (zxId : Int64)
    (hz : l.lead.Given zxId) (hfresh : s.given i zxId = none) {a : Asked} {k : Nat}
    (ha : s.Holds a k) :
    Inv { s with
      given := Function.update s.given i (Function.update (s.given i) zxId (some a)) } := by
  have hgiven : ∀ j z b, s.given j z = some b →
      Function.update s.given i (Function.update (s.given i) zxId (some a)) j z = some b := by
    intro j z b hb
    by_cases hj : j = i
    · subst hj
      have hne : z ≠ zxId := fun heq => by simp [heq, hfresh] at hb
      simpa [Function.update_of_ne hne] using hb
    · simpa [Function.update_of_ne hj] using hb
  have hkeeps : Keeps s { s with
      given := Function.update s.given i (Function.update (s.given i) zxId (some a)) } :=
    ⟨fun _ _ _ hk => hk, hgiven, fun _ call hcall => ⟨call, hcall, rfl⟩⟩
  refine ⟨h.callbacks, h.asked, ?_, ?_, ?_, hkeeps.identity h.popped rfl⟩
  · exact fun c x hx => hkeeps.follower (h.follows c x hx) fun m hm => ⟨m, hm, rfl⟩
  · intro j m hm
    have hs := h.leads j m hm
    refine ⟨hs.positive, hs.bounded, fun d hd => ?_, hs.forwarding⟩
    obtain ⟨e, he, hown⟩ := hs.queued d hd
    exact ⟨e, hgiven _ _ _ he, hown⟩
  · intro j z b hb
    by_cases hj : j = i
    · subst hj
      by_cases hzz : z = zxId
      · subst hzz
        simp only [Function.update_self, Option.some.injEq] at hb
        subst hb
        exact ⟨⟨k, hkeeps.holds ha⟩, l, hl, hz⟩
      · simp only [Function.update_self, Function.update_of_ne hzz] at hb
        obtain ⟨⟨k', hk'⟩, hm⟩ := h.given j z b hb
        exact ⟨⟨k', hkeeps.holds hk'⟩, hm⟩
    · simp only [Function.update_of_ne hj] at hb
      obtain ⟨⟨k', hk'⟩, hm⟩ := h.given j z b hb
      exact ⟨⟨k', hkeeps.holds hk'⟩, hm⟩

theorem propose (h : s.Inv) {i : Nat} {l : Leader n} (hl : s.leads i = some l) (id : Fin n)
    {e : Executor} {requestId : Int64} {data : Bytes} {k : Nat}
    (ha : s.Holds ⟨e, requestId, data⟩ k) (hnext : l.lead.nextId < 0x100000000)
    (hown : id = l.lead.id → e = .lead i) (save : Int64 → Bool) (current : Option Nat) :
    (s.propose i l id e requestId data save current).1.Inv := by
  have hs := h.leads i l hl
  have hdraft : IsDraftId l.lead.nextId :=
    ⟨Int.le_of_lt hs.positive, Int64.lt_iff_toInt_lt.mp hnext⟩
  let counted : Leader n := { l with lead := { l.lead with nextId := l.lead.nextId + 1 } }
  have hcounted : (s.setLeader i counted).leads i = some counted := by simp [Requests.setLeader]
  -- the next id is given, and then the draft is queued
  have hgive := (h.nextId hl hdraft).give (l := counted) hcounted
    (zxIdOf l.lead.peerEpoch l.lead.nextId) ⟨l.lead.nextId, hdraft, hdraft.lt_add_one, rfl⟩
    (h.next_fresh hl hdraft) ha
  have hqueue := hgive.leads i counted hcounted
  obtain ⟨ds, hds, heq⟩ := l.lead.propose_eq id requestId data save
  rcases hp : l.lead.propose id requestId data save with ⟨lead, launch⟩
  rw [hp] at heq
  dsimp only at heq
  have hlead := hgive.setLeader (i := i) (t := { l with lead := lead }) hcounted
    (by rw [heq]; rfl) (fun z hz => by rw [heq]; exact hz) ⟨?_, ?_, ?_, hqueue.forwarding⟩
  · simp only [Requests.setLeader, Function.update_idem] at hlead
    simp only [Requests.propose, hp]
    cases launch with
    | none => exact hlead
    | some launch => exact hlead.launched i _ launch current
  · rw [heq]
    exact hqueue.positive
  · rw [heq]
    exact hqueue.bounded
  · intro d hd
    rw [heq] at hd ⊢
    rcases mem_insertDraft (hds.subset hd) with rfl | hd
    · exact ⟨e, by simp, hown⟩
    · exact hqueue.queued d hd

/-- A change that only concerns the roles and what was committed. -/
theorem of_same (h : s.Inv) {s' : Requests n} (hleads : s'.leads = s.leads)
    (hfollows : s'.follows = s.follows) (hservices : s'.services = s.services)
    (hcalls : s'.calls = s.calls) (hasked : s'.asked = s.asked) (hgiven : s'.given = s.given)
    (hpopped : s'.popped = s.popped) : s'.Inv := by
  obtain ⟨leads, follows, services, calls, running, executor, asked, given, commits, popped⟩ := s'
  cases hleads
  cases hfollows
  cases hservices
  cases hcalls
  cases hasked
  cases hgiven
  cases hpopped
  refine ⟨h.callbacks, h.asked, ?_, ?_, h.given, h.popped⟩
  · intro c x hx
    have hs := h.follows c x hx
    exact ⟨hs.lead, hs.up, hs.down⟩
  · intro i l hl
    have hs := h.leads i l hl
    exact ⟨hs.positive, hs.bounded, hs.queued, hs.forwarding⟩

/-- A draft is committed that came over the connection in the forwarding table. -/
theorem committed (h : s.Inv) {i : Nat} {l : Leader n} (hl : s.leads i = some l) {d : Draft n}
    {e : Executor} (hgiven : s.given i d.zxId = some ⟨e, d.requestId, d.data⟩)
    (hfrom : d.id ≠ l.lead.id → ∀ c ∈ l.forwarding d.id, e = .follow c) (c : Nat) (id : Fin n)
    (call : Option Nat) (save : Int64 → Bool) : (s.committed i l c id d call save).Inv := by
  have hcommits : Inv { s with commits := (i, d.zxId) :: s.commits } :=
    h.of_same rfl rfl rfl rfl rfl rfl rfl
  have hsent : (Requests.broadcast { s with commits := (i, d.zxId) :: s.commits } l
      (.commit d.zxId d.id d.requestId)).Inv := by
    refine hcommits.broadcast fun c' x hx hforw z r heq => ?_
    obtain ⟨hz, hid, hr⟩ := Notice.commit.inj heq
    subst hz
    subst hr
    obtain ⟨x', hx', hlead⟩ := (h.leads i l hl).forwarding x.id c' hforw
    rw [show s.follows c' = some x from hx] at hx'
    cases hx'
    -- the server of a follow is not that of its lead
    obtain ⟨l', hl', hne⟩ := (h.follows c' x hx).lead
    rw [hlead, hl] at hl'
    cases hl'
    have hfollow := hfrom (fun heq => hne (heq.symm.trans hid)) c' (hid ▸ hforw)
    subst hfollow
    exact ⟨d.data, by rw [hlead]; exact hgiven⟩
  obtain ⟨ds, hds, heq⟩ := l.lead.afterCommit_eq d.zxId save
  rcases hp : l.lead.afterCommit d.zxId save with ⟨lead, launch⟩
  rw [hp] at heq
  dsimp only at heq
  have hlead := hsent.setLeader (i := i) (t := { l with lead := lead }) hl (by rw [heq])
    (fun z hz => by rw [heq]; exact hz) ((hsent.leads i l hl).shrink (by rw [heq]) (by rw [heq])
      (by rw [heq]; exact fun _ hd => (List.mem_filter.mp (hds.subset hd)).1) fun _ _ hc => hc)
  simp only [Requests.committed, hp]
  cases launch with
  | some launch => exact (hlead.launched i _ launch none).closeHandler c
  | none =>
      cases call with
      | some k => exact hlead.mapCall k fun _ => rfl
      | none => exact hlead.sendTo _ (by simp)

/-- A vote changes the vote of the first draft. -/
theorem vote (h : s.Inv) {i : Nat} {l : Leader n} (hl : s.leads i = some l) (id : Fin n)
    (zxId : Int64) : (s.setLeader i { l with lead := (l.lead.vote id zxId).1 }).Inv := by
  have hs := h.leads i l hl
  rcases l.lead.vote_cases id zxId with hvote | ⟨d, ds, hq, -, hvote⟩
  · rw [hvote]
    exact h.setLeader hl rfl (fun _ hz => hz) hs
  · rw [hvote]
    refine h.setLeader hl rfl (fun _ hz => hz) ⟨hs.positive, hs.bounded, ?_, hs.forwarding⟩
    intro d' hd'
    rcases List.mem_cons.mp hd' with rfl | hd'
    · exact hs.queued d (by rw [hq]; exact .head _)
    · exact hs.queued d' (by rw [hq]; exact .tail _ hd')

/-- A draft of the lead's own server takes the call it was given for. -/
theorem takeOwn (h : s.Inv) {i : Nat} {l : Leader n} {d : Draft n} {e : Executor}
    (hl : s.leads i = some l)
    (hgiven : s.given i d.zxId = some ⟨e, d.requestId, d.data⟩)
    (hown : d.id = l.lead.id → e = .lead i) :
    (s.takeOwn i l d).1.Inv ∧ (s.takeOwn i l d).1.leads i = some l ∧
      (s.takeOwn i l d).1.given = s.given := by
  rw [Requests.takeOwn]
  split
  next hid =>
    have hexec := hown hid
    subst hexec
    refine ⟨h.takeCommitted hgiven, ?_, ?_⟩
    all_goals
      rw [Requests.takeCommitted]
      dsimp only
      split
    · exact hl
    · exact hl
    · rfl
    · rfl
  next => exact ⟨h, hl, rfl⟩

theorem ackPropose (h : s.Inv) {i : Nat} {l : Leader n} (hl : s.leads i = some l) {id : Fin n}
    {zxId : Int64} {commit : CommitEnd}
    (hfrom : commit = .returns → s.FromForwarded i l id zxId) (c : Nat) (save : Int64 → Bool) :
    (s.ackPropose i l c id zxId save commit).Inv := by
  have hvoted := h.vote hl id zxId
  have hid := l.lead.vote_id id zxId
  rw [Requests.FromForwarded] at hfrom
  rw [Requests.ackPropose]
  rcases hv : l.lead.vote id zxId with ⟨lead, d⟩
  rw [hv] at hvoted hfrom hid
  cases d with
  | none => exact hvoted
  | some d =>
      have hsome : (l.lead.vote id zxId).2 = some d := by rw [hv]
      obtain ⟨-, -, ds, hds⟩ := Lead.vote_some hsome
      rw [hv] at hds
      have hleads : (s.setLeader i { l with lead := lead }).leads i =
          some { l with lead := lead } := by
        simp [Requests.setLeader]
      obtain ⟨e, hgiven, hown⟩ := (hvoted.leads i _ hleads).queued d (by
        show d ∈ lead.uncommit
        rw [show lead = _ from hds]
        exact .head _)
      obtain ⟨hinv, hleads', hsame⟩ := hvoted.takeOwn hleads hgiven hown
      dsimp only
      cases commit with
      | returns =>
          refine hinv.committed hleads' (by rw [hsame]; exact hgiven) (fun hne c' hc' => ?_) c id _
            save
          exact hfrom rfl d rfl (by rw [← hid]; exact hne) c' hc' _ hgiven
      | throwsBefore => exact hinv.closeHandler c
      | throwsAfter =>
          refine Inv.closeHandler ?_ c
          exact hinv.of_same rfl rfl rfl rfl rfl rfl rfl

/-! ## Steps -/

theorem call (h : s.Inv) {k : Nat} {id : Fin n} {data : Bytes} {save : Int64 → Bool}
    {s' : Requests n} (ha : Kept s (.call k id data save))
    (hs : s.call k id data save = some s') : s'.Inv := by
  have hrefused : s.calls k = none → Inv { s with
      calls := Function.update s.calls k (some (Call.finish { server := id, data := data })) } := by
    intro hk
    refine h.setCalls fun k' call hcall => ⟨call, ?_, rfl⟩
    have hne : k' ≠ k := fun heq => by simp [heq, hk] at hcall
    simpa [Function.update_of_ne hne] using hcall
  unfold Requests.call at hs
  dsimp only at hs
  split at hs
  next => cases hs
  next hk =>
    have hk : s.calls k = none := by simpa using hk
    split at hs
    next =>
      cases hs
      exact hrefused hk
    next e he =>
      obtain ⟨hmax, hnext⟩ := ha e he
      split at hs
      next => cases hs
      next =>
        split at hs
        next =>
          obtain ⟨hpush, hholds⟩ :=
            h.pushRequest { server := id, data := data } hk hmax
          rw [callActive] at hs
          cases e with
          | lead i =>
              dsimp only at hs
              split at hs
              next => cases hs
              next l hl =>
                cases hs
                have hprop := hpush.propose hl l.lead.id hholds (hnext l hl) (fun _ => rfl) save
                  (some k)
                split
                next => exact hprop
                next => exact hprop.mapCall k fun _ => rfl
          | follow c =>
              dsimp only at hs
              split at hs
              next => cases hs
              next x hx =>
                cases hs
                have hsound := hpush.follows c x hx
                refine hpush.setFollower (y := x) hx rfl ⟨hsound.lead, ?_, hsound.down⟩
                intro r data' hr
                rcases List.mem_append.mp hr with hr | hr
                · exact hsound.up r data' hr
                · obtain ⟨rfl, rfl⟩ := Reply.request.inj (List.mem_singleton.mp hr)
                  exact ⟨k, hholds⟩
        next =>
          cases hs
          exact hrefused hk

theorem reply (h : s.Inv) {c : Nat} {save : Int64 → Bool} {commit : CommitEnd}
    {s' : Requests n} (ha : Kept s (.reply c save commit))
    (hs : s.reply c save commit = some s') : s'.Inv := by
  rw [Requests.reply] at hs
  split at hs
  next => cases hs
  next x hx =>
    split at hs
    next => cases hs
    next l hl =>
      have ha := ha x hx l hl
      split at hs
      next =>
        have hsound := h.follows c x hx
        have hread : ∀ up, up ⊆ x.up → (s.setFollower c { x with up := up }).Inv := fun up hup =>
          h.setFollower hx rfl (hsound.shrink rfl rfl (fun _ _ hr => hup hr) fun _ hz => hz)
        split at hs
        next => cases hs
        next requestId data up hup =>
          cases hs
          simp only [KeptReply, hup, List.head?_cons] at ha
          obtain ⟨k, hk⟩ := hsound.up requestId data (by rw [hup]; exact .head _)
          have hown : x.id = l.lead.id → Executor.follow c = .lead x.lead := by
            intro heq
            obtain ⟨l', hl', hne⟩ := hsound.lead
            rw [hl] at hl'
            cases hl'
            exact absurd heq.symm hne
          have hprop := (hread up (by rw [hup]; exact fun _ hm => .tail _ hm)).propose
            (l := l) hl x.id hk ha hown save none
          dsimp only
          split
          next =>
            refine hprop.mapFollower fun y hy => ⟨rfl, ?_⟩
            exact (hprop.follows c y hy).shrink rfl rfl (fun _ _ hr => hr) fun _ hz => hz
          next => exact hprop
        next zxId up hup =>
          cases hs
          simp only [KeptReply, hup, List.head?_cons] at ha
          exact (hread up (by rw [hup]; exact fun _ hm => .tail _ hm)).ackPropose hl ha c save
      next => cases hs

theorem notice (h : s.Inv) {c : Nat} {saved : Bool} {commit : CommitEnd} {s' : Requests n}
    (hs : s.notice c saved commit = some s') : s'.Inv := by
  rw [Requests.notice] at hs
  split at hs
  next => cases hs
  next x hx =>
    have hsound := h.follows c x hx
    have hread : ∀ x' : Follower n, x'.lead = x.lead → x'.id = x.id → x'.down ⊆ x.down →
        (∀ r data, .request r data ∈ x'.up → .request r data ∈ x.up) →
        (s.setFollower c x').Inv := fun x' hlead hid hdown hup =>
      h.setFollower hx hlead (hsound.shrink hlead hid hup hdown)
    split at hs
    next down _ hdown =>
      cases hs
      have htail : down ⊆ x.down := by rw [hdown]; exact fun _ hm => .tail _ hm
      have hservice := (hread { x with down := down, stage := .active } rfl rfl htail
        fun _ _ hr => hr).setActive (.follow c) true
      exact hservice.of_same rfl rfl rfl rfl rfl rfl rfl
    next down _ hdown =>
      cases hs
      exact hread _ rfl rfl (by rw [hdown]; exact fun _ hm => .tail _ hm) fun _ _ hr => hr
    next down _ hdown =>
      cases hs
      exact hread _ rfl rfl (by rw [hdown]; exact fun _ hm => .tail _ hm) fun _ _ hr => hr
    next zxId down _ hdown =>
      cases hs
      have htail : down ⊆ x.down := by rw [hdown]; exact fun _ hm => .tail _ hm
      split
      next => exact hread _ rfl rfl htail fun r data hr => by simpa using hr
      next => exact hread _ rfl rfl htail fun _ _ hr => hr
    next zxId fromId requestId down _ hdown =>
      dsimp only at hs
      have htail : down ⊆ x.down := by rw [hdown]; exact fun _ hm => .tail _ hm
      have hnext := hread { x with
        down := down, stage := if commit = .returns then .active else .failed } rfl rfl htail
        fun _ _ hr => hr
      have hpop : Inv (if fromId = x.id then
          (s.setFollower c { x with
            down := down, stage := if commit = .returns then .active else .failed }).takeCommitted
              (.follow c) x.lead zxId requestId
          else (s.setFollower c { x with
            down := down, stage := if commit = .returns then .active else .failed }, none)).1 := by
        split
        next hid =>
          obtain ⟨data, hdata⟩ := hsound.down zxId requestId (by rw [hdown, hid]; exact .head _)
          exact hnext.takeCommitted hdata
        next => exact hnext
      split at hs
      next k _ =>
        cases hs
        exact hpop.mapCall k fun _ => rfl
      next =>
        cases hs
        exact hpop
    next requestId down _ hdown =>
      cases hs
      exact (hread { x with down := down } rfl rfl (by rw [hdown]; exact fun _ hm => .tail _ hm)
        fun _ _ hr => hr).takeFailed _ _ _
    next down _ hdown =>
      cases hs
      exact hread _ rfl rfl (by rw [hdown]; exact fun _ hm => .tail _ hm) fun _ _ hr => hr
    next => cases hs

/-- The tables of a lead change without a new entry in the forwarding table. -/
theorem setTables (h : s.Inv) {i : Nat} {l t : Leader n} (hl : s.leads i = some l)
    (hlead : t.lead = l.lead)
    (hforw : ∀ id c, t.forwarding id = some c → l.forwarding id = some c) :
    (s.setLeader i t).Inv :=
  h.setLeader hl (by rw [hlead]) (fun z hz => by rw [hlead]; exact hz)
    ((h.leads i l hl).shrink (by rw [hlead]) (by rw [hlead]) (by rw [hlead]; exact fun _ hd => hd)
      hforw)

theorem startForwarding (h : s.Inv) {c : Nat} {x : Follower n} {l : Leader n}
    (hx : s.follows c = some x) (hl : s.leads x.lead = some l) :
    (s.setLeader x.lead { l with
      forwarding := Function.update l.forwarding x.id (some c) }).Inv := by
  have hs := h.leads x.lead l hl
  refine h.setLeader hl rfl (fun _ hz => hz) ⟨hs.positive, hs.bounded, hs.queued, ?_⟩
  intro id c' hc'
  by_cases hid : id = x.id
  · subst hid
    simp only [Function.update_self, Option.some.injEq] at hc'
    subst hc'
    exact ⟨x, hx, rfl⟩
  · simp only [Function.update_of_ne hid] at hc'
    exact hs.forwarding id c' hc'

/-- A new lead. -/
theorem newLead (h : s.Inv) {i : Nat} (hi : s.leads i = none) (id : Fin n) (peerEpoch : Int32) :
    (s.setLeader i { lead := { id := id, peerEpoch := peerEpoch } }).Inv := by
  have hkeeps : Keeps s (s.setLeader i { lead := { id := id, peerEpoch := peerEpoch } }) :=
    ⟨fun _ _ _ hk => hk, fun _ _ _ ha => ha, fun _ call hcall => ⟨call, hcall, rfl⟩⟩
  have hold : ∀ j m, s.leads j = some m →
      (s.setLeader i { lead := { id := id, peerEpoch := peerEpoch } }).leads j = some m := by
    intro j m hm
    have hne : j ≠ i := fun heq => by simp [heq, hi] at hm
    simpa [Requests.setLeader, Function.update_of_ne hne] using hm
  refine ⟨h.callbacks, h.asked, ?_, ?_, ?_, h.popped⟩
  · exact fun c x hx => hkeeps.follower (h.follows c x hx) fun m hm => ⟨m, hold _ m hm, rfl⟩
  · intro j m hm
    by_cases hj : j = i
    · subst hj
      simp only [Requests.setLeader, Function.update_self, Option.some.injEq] at hm
      subst hm
      have hone : (1 : Int64).toInt = 1 := rfl
      exact ⟨by simp [hone], by simp [hone], by simp, by simp⟩
    · simp only [Requests.setLeader, Function.update_of_ne hj] at hm
      have hs := h.leads j m hm
      exact ⟨hs.positive, hs.bounded, hs.queued, hs.forwarding⟩
  · intro j z a ha
    obtain ⟨hk, m, hm, hz⟩ := h.given j z a ha
    exact ⟨hk, m, hold j m hm, hz⟩

/-- A new follow on another server than its lead. -/
theorem newFollow (h : s.Inv) {i c : Nat} {l : Leader n} {id : Fin n} (hl : s.leads i = some l)
    (hc : s.follows c = none) (hne : l.lead.id ≠ id) :
    (s.setFollower c { lead := i, id := id }).Inv := by
  refine ⟨h.callbacks, h.asked, ?_, ?_, h.given, h.popped⟩
  · intro c' x hx
    by_cases hcc : c' = c
    · subst hcc
      simp only [Requests.setFollower, Function.update_self, Option.some.injEq] at hx
      subst hx
      exact ⟨⟨l, hl, hne⟩, by simp, by simp⟩
    · simp only [Requests.setFollower, Function.update_of_ne hcc] at hx
      have hs := h.follows c' x hx
      exact ⟨hs.lead, hs.up, hs.down⟩
  · intro j m hm
    have hs := h.leads j m hm
    refine ⟨hs.positive, hs.bounded, hs.queued, fun id' c' hc' => ?_⟩
    obtain ⟨x, hx, hlead⟩ := hs.forwarding id' c' hc'
    have hcc : c' ≠ c := fun heq => by simp [heq, hc] at hx
    exact ⟨x, by simpa [Requests.setFollower, Function.update_of_ne hcc] using hx, hlead⟩

/-- The handler of a follow goes on. -/
theorem handler (h : s.Inv) {c : Nat} {x y : Follower n} (hx : s.follows c = some x)
    (hlead : y.lead = x.lead) (hid : y.id = x.id) (hup : y.up = x.up)
    (hdown : y.down = x.down) : (s.setFollower c y).Inv :=
  h.setFollower hx hlead ((h.follows c x hx).shrink hlead hid (fun _ _ hr => hup ▸ hr)
    (fun _ hz => hdown ▸ hz))

theorem step (h : s.Inv) {a : RequestAct n} {s' : Requests n} (ha : Kept s a)
    (hs : s.step a = some s') : s'.Inv := by
  cases a with
  | call => exact h.call ha hs
  | reply => exact h.reply ha hs
  | notice => exact h.notice hs
  | lead id i peerEpoch =>
      simp only [Requests.step] at hs
      split at hs
      next hnew =>
        cases hs
        exact (h.newLead hnew.2 id peerEpoch).of_same rfl rfl rfl rfl rfl rfl rfl
      next => cases hs
  | activate i | deactivate i =>
      simp only [Requests.step] at hs
      split at hs
      next => cases hs
      next =>
        split at hs
        next =>
          cases hs
          exact (h.setActive (.lead i) _).of_same rfl rfl rfl rfl rfl rfl rfl
        next => cases hs
  | stepDown i =>
      simp only [Requests.step] at hs
      split at hs
      next => cases hs
      next =>
        split at hs
        next =>
          cases hs
          exact (h.clearRequest (.lead i)).of_same rfl rfl rfl rfl rfl rfl rfl
        next => cases hs
  | follow id i c =>
      simp only [Requests.step] at hs
      split at hs
      next => cases hs
      next l hl =>
        split at hs
        next hnew =>
          cases hs
          have hne : l.lead.id ≠ id := by
            intro heq
            rw [heq, hnew.1] at hnew
            cases hnew.2.1
          have hcount := h.setTables (t := { l with count := l.count + 1 }) hl rfl
            fun _ _ hc => hc
          exact (hcount.newFollow (l := { l with count := l.count + 1 })
            (by simp [Requests.setLeader]) hnew.2.2 hne).of_same rfl rfl rfl rfl rfl rfl rfl
        next => cases hs
  | register c =>
      simp only [Requests.step] at hs
      split at hs
      next => cases hs
      next x hx =>
        split at hs
        next => cases hs
        next l hl =>
          split at hs
          next =>
            split at hs
            next =>
              cases hs
              exact (h.setTables (t := { l with
                followers := Function.update l.followers x.id (some c) }) hl rfl
                fun _ _ hc => hc).handler (y := { x with handler := .registered }) hx rfl rfl rfl
                  rfl
            next =>
              cases hs
              exact h.closeHandler c
          next => cases hs
  | startForwarding c =>
      simp only [Requests.step] at hs
      split at hs
      next => cases hs
      next x hx =>
        split at hs
        next => cases hs
        next l hl =>
          split at hs
          next =>
            cases hs
            exact (h.startForwarding hx hl).handler (y := { x with handler := .forwarded }) hx rfl
              rfl rfl rfl
          next => cases hs
  | updated c =>
      simp only [Requests.step] at hs
      split at hs
      next => cases hs
      next x hx =>
        split at hs
        next =>
          cases hs
          have hsend := (h.follows c x hx).send .updated (by simp)
          exact h.setFollower (x := { x with
            handler := .processing, down := x.down ++ [.updated] }) hx rfl
            ⟨hsend.lead, hsend.up, hsend.down⟩
        next => cases hs
  | close c =>
      simp only [Requests.step] at hs
      split at hs
      next => cases hs
      next x hx =>
        split at hs
        next =>
          cases hs
          exact h.closeHandler c
        next => cases hs
  | leave c =>
      simp only [Requests.step] at hs
      split at hs
      next => cases hs
      next x hx =>
        split at hs
        next =>
          cases hs
          exact ((h.handler (y := { x with stage := .ended }) hx rfl rfl rfl rfl).clearRequest
            (.follow c)).of_same rfl rfl rfl rfl rfl rfl rfl
        next => cases hs

end Inv

end Requests

/-- In every run that is `Kept`, a commit takes the call whose transaction it is. -/
theorem commit_takes_its_call {s : Requests n} (h : (requests n).Run Kept s) : s.Identity :=
  (Transition.System.Run.invariant (I := Requests.Inv) (fun _ hi => Requests.Inv.of_init hi)
    (fun _ _ _ hi ha hs => hi.step ha hs) h).popped

instance (s : Requests n) (i : Nat) (l : Leader n) (id : Fin n) (zxId : Int64) :
    Decidable (s.FromForwarded i l id zxId) :=
  inferInstanceAs (Decidable (∀ d ∈ _, _ → ∀ c ∈ _, ∀ a ∈ _, _))

instance (s : Requests n) (x : Follower n) (l : Leader n) (commit : CommitEnd) :
    ∀ reply, Decidable (s.KeptReply x l commit reply)
  | some (.request _ _) => inferInstanceAs (Decidable (_ < _))
  | some (.ackPropose _) => inferInstanceAs (Decidable (_ → _))
  | none => inferInstanceAs (Decidable True)

instance (s : Requests n) : ∀ e, Decidable (s.KeptCall e)
  | .lead _ => inferInstanceAs (Decidable (∀ l ∈ _, _))
  | .follow _ => inferInstanceAs (Decidable True)

instance (s : Requests n) : ∀ a, Decidable (Kept s a)
  | .call _ _ _ _ => inferInstanceAs (Decidable (∀ e ∈ _, _ ∧ _))
  | .reply _ _ _ => inferInstanceAs (Decidable (∀ x ∈ _, ∀ l ∈ _, _))
  | .lead _ _ _ | .activate _ | .deactivate _ | .stepDown _ | .follow _ _ _ | .register _
  | .startForwarding _ | .updated _ | .close _ | .leave _ | .notice _ _ _ =>
      inferInstanceAs (Decidable True)

/-- Server 1 follows lead 0 in session 1 and calls; its draft is launched. -/
def askThrough1 [NeZero n] : List (RequestAct n) :=
  followLead0 ++ [.follow 1 0 1, .register 1, .startForwarding 1, .updated 1,
    .notice 1 true .returns, .call 1 1 [65] fun _ => true, .reply 1 (fun _ => true) .returns]

/-- Server 1 loses its connection and connects again: the first attempt only
empties its slot, which the handler of session 1 still holds. -/
def connectAgain [NeZero n] : List (RequestAct n) :=
  [.leave 1, .follow 1 0 2, .register 2, .leave 2, .follow 1 0 3, .register 3,
    .startForwarding 3, .updated 3, .notice 3 true .returns]

/-- Server 2 acknowledges the draft, which is committed. -/
def acknowledge [NeZero n] : List (RequestAct n) :=
  [.notice 0 true .returns, .reply 0 (fun _ => true) .returns]

/-- The commit of call 1 takes call 2, which server 1 made in its new session. -/
theorem commit_takes_other_call : ¬ ∀ s, (requests 3).Reachable s → s.Identity := by
  intro h
  have hrun : (Transition.exec Requests.step ({} : Requests 3) (askThrough1 ++ connectAgain ++
      [.call 2 1 [66] fun _ => true] ++ acknowledge ++ [.notice 3 true .returns])).map
        (fun s => (s.popped, s.given 0 (zxIdOf 1 1), s.asked (.follow 1) 1)) =
      some ([(0, zxIdOf 1 1, 2)], some ⟨.follow 1, 1, [65]⟩, some 1) := by
    decide +kernel
  obtain ⟨s, hs, hview⟩ := Option.map_eq_some_iff.mp hrun
  simp only [Prod.mk.injEq] at hview
  obtain ⟨hpopped, hgiven, hasked⟩ := hview
  obtain ⟨a, ha, hk, -⟩ := h s (Transition.exec_reachable rfl hs) (0, zxIdOf 1 1, 2)
    (by rw [hpopped]; exact .head _)
  rw [show s.given 0 (zxIdOf 1 1) = some a from ha, Option.some.injEq] at hgiven
  subst hgiven
  rw [show s.asked (.follow 1) 1 = some 2 from hk] at hasked
  exact absurd hasked (by decide)

/-- In the session that asked, the commit takes call 1. -/
theorem commit_takes_its_call_same :
    ∃ s, Transition.exec Requests.step ({} : Requests 3)
        (askThrough1 ++ acknowledge ++ [.notice 1 true .returns, .notice 1 true .returns]) =
        some s ∧
      s.popped = [(0, zxIdOf 1 1, 1)] ∧ s.Identity := by
  have hrun : (Transition.exec Requests.step ({} : Requests 3) (askThrough1 ++ acknowledge ++
      [.notice 1 true .returns, .notice 1 true .returns])).map (fun s => s.popped) =
        some [(0, zxIdOf 1 1, 1)] := by
    decide +kernel
  obtain ⟨s, hs, hpopped⟩ := Option.map_eq_some_iff.mp hrun
  have hguard : Transition.Guarded Requests.step Kept ({} : Requests 3) (askThrough1 ++
      acknowledge ++
      [.notice 1 true .returns, .notice 1 true .returns]) := by
    decide +kernel
  exact ⟨s, hs, hpopped, commit_takes_its_call (Transition.exec_run (.start rfl) hguard hs)⟩

end Paxos
