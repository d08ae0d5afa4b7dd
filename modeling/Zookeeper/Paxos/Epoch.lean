import Zookeeper.Transition
import Zookeeper.Paxos.Handshake

/-!
# One established leader in an epoch

Any number of leads and followers on `n` servers, and the messages of the
handshake between them, in order on each connection.  A server runs one of
`Leading` and `Following` at a time.  A *session* is a `FollowHandler` with its
connection, or the calls `Leading` makes itself.

`ReadMessage` stops behind the type of a message and leaves its fields as they
were, so the epochs read from `FOLLOW_INFO` and `LEADER_INFO` are arguments of the
steps.  What the unread bytes do to the reads behind them is not modelled: every
read takes one message.  The frames of `SyncFollower`, and the id in `ACK_EPOCH` that
they depend on, are left out.

A follower whose epoch equals the leader's is accepted, wherever it got that epoch
from, so two leaders can be established with one epoch
(`two_leaders_one_epoch`).  `one_leader` proves that this is what can go wrong,
next to reports that are lowered and reads that fail: an acknowledgement means
that the server took the epoch over, and it takes an epoch over from one lead.
-/

namespace Paxos

open Majority

variable {n : Nat}

/-- The messages of the handshake. -/
inductive Handshake where
  | followInfo (peerEpoch : Int32)
  | leaderInfo (peerEpoch : Int32)
  | ackEpoch (peerEpoch : Int32)
  | newLeader
  | ack
  | updated
deriving DecidableEq, Repr

/-- Where a handler stands, or `Leading`, which begins with `GetPeerEpoch`. -/
inductive Stage where
  /-- Before `Register`. -/
  | start
  /-- Before `GetPeerEpoch`. -/
  | followInfo
  /-- In the loop of `GetPeerEpoch`, with the caller's own epoch. -/
  | polling (own : Int32)
  /-- In the sleep behind it. -/
  | sleeping (own : Int32)
  | ackEpoch
  | ack
  /-- In `WaitForNewLeader`. -/
  | newLeader
  | passed
  | closed
deriving DecidableEq, Repr

/-- Where a follower stands: in `RegisterToLeader`, `SyncWithLeader` or
`ProcossPropose`. -/
inductive FollowStage where
  | registering
  | syncing
  | active
deriving DecidableEq, Repr

/-- The calls of a handler, or of `Leading` itself. -/
structure Session (n : Nat) where
  lead : Nat
  id : Fin n
  handler : Bool
  stage : Stage
  /-- The messages on the way to the leader. -/
  up : List Handshake := []
  /-- The messages on the way to the follower. -/
  down : List Handshake := []
  follow : FollowStage := .registering
deriving DecidableEq

/-- What the role loop of a server is doing. -/
inductive Role where
  | idle
  | leading (lead session : Nat)
  | following (session : Nat)
deriving DecidableEq, Repr

/-- The servers, their leads and the sessions.  The last two fields only record
what happened. -/
structure Epochs (n : Nat) where
  /-- `_peerEpoch`, as the role loop of each server holds it. -/
  epoch : Fin n → Int32
  role : Fin n → Role := fun _ => .idle
  leads : Nat → Option (LeadTables n) := fun _ => none
  sessions : Nat → Option (Session n) := fun _ => none
  /-- The leads each server took an epoch over from. -/
  joined : Fin n → List (Nat × Int32) := fun _ => []
  /-- The leads that got past `WaitForNewLeader`, with their `_peerEpoch`. -/
  established : List (Nat × Int32) := []

/-- The steps.  New leads and sessions are given a number that is not in use. -/
inductive EpochAct (n : Nat) where
  /-- `PaxosImpl::Leading`. -/
  | lead (id : Fin n) (lead session : Nat)
  /-- `PaxosImpl::Following`, up to `FOLLOW_INFO`. -/
  | follow (id : Fin n) (lead session : Nat)
  /-- A handler calls `Register`. -/
  | register (session : Nat)
  /-- `GetPeerEpoch` is called, by a handler with the epoch it has read. -/
  | report (session : Nat) (peerEpoch : Int32)
  /-- A majority has reported. -/
  | poll (session : Nat)
  /-- The sleep is over. -/
  | finish (session : Nat)
  /-- The follower reads `LEADER_INFO`, and an epoch. -/
  | leaderInfo (session : Nat) (peerEpoch : Int32)
  /-- The handler reads `ACK_EPOCH` and sends `NEWLEADER`. -/
  | ackEpoch (session : Nat)
  /-- The follower reads `NEWLEADER` and sends `ACK`. -/
  | newLeader (session : Nat)
  /-- The handler reads `ACK` and calls `WaitForNewLeader`. -/
  | ack (session : Nat)
  /-- `WaitForNewLeader` returns. -/
  | pass (session : Nat)
  /-- The follower reads `UPDATED`. -/
  | updated (session : Nat)
  /-- A handler ends with an exception. -/
  | close (session : Nat)
  /-- `Following` ends. -/
  | leave (session : Nat)
  /-- `Leading` ends. -/
  | stepDown (session : Nat)

/-- The session of a step. -/
def EpochAct.session : EpochAct n → Nat
  | .lead _ _ c | .follow _ _ c | .register c | .report c _ | .poll c | .finish c
  | .leaderInfo c _ | .ackEpoch c | .newLeader c | .ack c | .pass c | .updated c | .close c
  | .leave c | .stepDown c => c

/-- The stages in which a handler reads from its connection. -/
def Stage.reads : Stage → Bool
  | .followInfo | .ackEpoch | .ack | .passed => true
  | _ => false

namespace Epochs

def setSession (s : Epochs n) (c : Nat) (x : Session n) : Epochs n :=
  { s with sessions := Function.update s.sessions c (some x) }

def setLead (s : Epochs n) (i : Nat) (l : LeadTables n) : Epochs n :=
  { s with leads := Function.update s.leads i (some l) }

def setRole (s : Epochs n) (id : Fin n) (role : Role) : Epochs n :=
  { s with role := Function.update s.role id role }

/-- A server takes an epoch over from a lead. -/
def join (s : Epochs n) (id : Fin n) (i : Nat) (e : Int32) : Epochs n :=
  { s with
    epoch := Function.update s.epoch id e
    joined := Function.update s.joined id ((i, e) :: s.joined id) }

/-- `GetPeerEpoch` returns in a session of the lead `l`.  A handler sends
`LEADER_INFO`, and `Leading` goes on to `WaitForNewLeader`. -/
def told (s : Epochs n) (c : Nat) (x : Session n) (l : LeadTables n) : Epochs n :=
  if x.handler then
    s.setSession c { x with stage := .ackEpoch, down := x.down ++ [.leaderInfo l.peerEpoch] }
  else
    ((s.setSession c { x with stage := .newLeader }).join x.id x.lead l.peerEpoch).setLead x.lead
      (l.recvAck x.id)

/-- The first lines of `GetPeerEpoch`. -/
def getPeerEpoch (s : Epochs n) (c : Nat) (x : Session n) (l : LeadTables n) (own : Int32) :
    Epochs n :=
  if l.waitForPeerEpoch then
    (s.setSession c { x with stage := .polling own }).setLead x.lead (l.report x.id own)
  else s.told c x l

/-- The step of a session. -/
def stepSession (s : Epochs n) (c : Nat) (x : Session n) (l : LeadTables n) :
    EpochAct n → Option (Epochs n)
  | .register _ =>
      if x.handler ∧ x.stage = .start then
        match l.register x.id c with
        | some l => some ((s.setSession c { x with stage := .followInfo }).setLead x.lead l)
        | none => some ((s.setSession c { x with stage := .closed }).setLead x.lead
            (l.unregister x.id))
      else none
  | .report _ peerEpoch =>
      if x.stage = .followInfo then
        if x.handler then
          match x.up with
          | .followInfo _ :: up => some (s.getPeerEpoch c { x with up := up } l peerEpoch)
          | _ => none
        else some (s.getPeerEpoch c x l (s.epoch x.id))
      else none
  | .poll _ =>
      match x.stage with
      | .polling own =>
          if IsMajority l.reported then some (s.setSession c { x with stage := .sleeping own })
          else none
      | _ => none
  | .finish _ =>
      match x.stage with
      | .sleeping own => some ((s.setLead x.lead (l.finish own)).told c x (l.finish own))
      | _ => none
  | .leaderInfo _ peerEpoch =>
      if s.role x.id = .following c ∧ x.follow = .registering then
        match x.down with
        | .leaderInfo _ :: down =>
            if peerEpoch < s.epoch x.id then
              some ((s.setSession c { x with down := down }).setRole x.id .idle)
            else
              some ((s.setSession c { x with
                down := down, up := x.up ++ [.ackEpoch peerEpoch], follow := .syncing }).join
                  x.id x.lead peerEpoch)
        | _ => none
      else none
  | .ackEpoch _ =>
      if x.stage = .ackEpoch then
        match x.up with
        | .ackEpoch _ :: up =>
            some (s.setSession c { x with
              up := up, down := x.down ++ [.newLeader], stage := .ack })
        | _ => none
      else none
  | .newLeader _ =>
      if s.role x.id = .following c ∧ x.follow = .syncing then
        match x.down with
        | .newLeader :: down =>
            some (s.setSession c { x with down := down, up := x.up ++ [.ack] })
        | _ => none
      else none
  | .ack _ =>
      if x.stage = .ack then
        match x.up with
        | .ack :: up =>
            some ((s.setSession c { x with up := up, stage := .newLeader }).setLead x.lead
              (l.recvAck x.id))
        | _ => none
      else none
  | .pass _ =>
      if x.stage = .newLeader ∧ IsMajority l.synced then
        let s := { s with established := (x.lead, l.peerEpoch) :: s.established }
        let down := if x.handler then x.down ++ [.updated] else x.down
        some (s.setSession c { x with stage := .passed, down := down })
      else none
  | .updated _ =>
      if s.role x.id = .following c ∧ x.follow = .syncing then
        match x.down with
        | .updated :: down => some (s.setSession c { x with down := down, follow := .active })
        | _ => none
      else none
  | .close _ =>
      if x.handler ∧ x.stage.reads then
        some ((s.setSession c { x with stage := .closed }).setLead x.lead (l.unregister x.id))
      else none
  | .leave _ =>
      if s.role x.id = .following c then some (s.setRole x.id .idle) else none
  | .stepDown _ =>
      -- `Process` ended, and `ShutdownListen` has waited for the handlers
      if s.role x.id = .leading x.lead c ∧ x.stage = .passed ∧ l.count = 0 then
        some ((s.setSession c { x with stage := .closed }).setRole x.id .idle)
      else none
  | _ => none

/-- The server of a lead still runs it. -/
def listens (s : Epochs n) (i : Nat) (l : LeadTables n) : Bool :=
  match s.role l.id with
  | .leading i' _ => i' = i
  | _ => false

def step (s : Epochs n) (a : EpochAct n) : Option (Epochs n) :=
  match a with
  | .lead id i c =>
      if s.role id = .idle ∧ s.leads i = none ∧ s.sessions c = none then
        some (((s.setLead i { id := id }).setSession c
          { lead := i, id := id, handler := false, stage := .followInfo }).setRole id
            (.leading i c))
      else none
  | .follow id i c =>
      match s.leads i with
      | none => none
      | some l =>
          if s.role id = .idle ∧ s.listens i l ∧ s.sessions c = none then
            some (((s.setLead i { l with count := l.count + 1 }).setSession c
              { lead := i, id := id, handler := true, stage := .start,
                up := [.followInfo (s.epoch id)] }).setRole id (.following c))
          else none
  | a =>
      match s.sessions a.session with
      | none => none
      | some x =>
          match s.leads x.lead with
          | none => none
          | some l => s.stepSession a.session x l a

/-- Nothing has begun. -/
def Fresh (s : Epochs n) : Prop := ∃ epoch : Fin n → Int32, s = { epoch := epoch }

/-- No two servers had a lead established with one epoch. -/
def OneLeader (s : Epochs n) : Prop :=
  ∀ p ∈ s.established, ∀ q ∈ s.established, p.2 = q.2 →
    (s.leads p.1).map LeadTables.id = (s.leads q.1).map LeadTables.id

/-- A server took an epoch over from no other lead. -/
def Free (s : Epochs n) (id : Fin n) (i : Nat) (e : Int32) : Prop :=
  ∀ p ∈ s.joined id, p.2 = e → p.1 = i

/-- The epoch a session calls `GetPeerEpoch` with. -/
def own (s : Epochs n) (x : Session n) (peerEpoch : Int32) : Int32 :=
  if x.handler then peerEpoch else s.epoch x.id

/-- The condition on a step of a session. -/
def DistinctSession (s : Epochs n) (x : Session n) (l : LeadTables n) : EpochAct n → Prop
  | .report _ peerEpoch =>
      if l.waitForPeerEpoch then
        l.recvPeerEpoch x.id ≤ s.own x peerEpoch ∧ s.own x peerEpoch ≠ Int32.maxValue
      else x.handler ∨
        (s.epoch x.id ≤ l.peerEpoch ∧ (s.epoch x.id = l.peerEpoch → s.Free x.id x.lead l.peerEpoch))
  | .leaderInfo _ peerEpoch =>
      x.down.head? = some (.leaderInfo peerEpoch) ∧
        (s.epoch x.id = peerEpoch → s.Free x.id x.lead peerEpoch)
  | _ => True

end Epochs

/-- A follower reads the epoch that was sent, and where it is its own epoch, the
follower took it over from no other lead.  No report lowers the one that stands
for its server, and none is the greatest number.  Where a lead finds its epoch
fixed by others, it is not below its server's own, and where it is that one, the
server took it over from no other lead. -/
def Distinct (s : Epochs n) (a : EpochAct n) : Prop :=
  ∀ x ∈ s.sessions a.session, ∀ l ∈ s.leads x.lead, s.DistinctSession x l a

/-- The runs of leads and followers on `n` servers. -/
def epochs (n : Nat) : Transition.System (Epochs n) (EpochAct n) :=
  Transition.ofStep Epochs.Fresh Epochs.step

/-! ## The invariant -/

/-- How the tables of a lead change: reports rise, and nothing they lead to
changes once the epoch is fixed. -/
structure LeadTables.Grows (l l' : LeadTables n) : Prop where
  id : l'.id = l.id
  reports : ∀ i, l.recvPeerEpoch i ≤ l'.recvPeerEpoch i
  acks : ∀ i, l.recvNewLeader i = true → l'.recvNewLeader i = true
  fixed : l.waitForPeerEpoch = false → l'.waitForPeerEpoch = false ∧ l'.peerEpoch = l.peerEpoch

/-- What the tables of lead `i` say: callers whose reports stand find the epoch
that is fixed, and who has acknowledged took it over. -/
structure LeadTables.Sound (l : LeadTables n) (i : Nat) (joined : Fin n → List (Nat × Int32)) :
    Prop where
  small : ∀ j, l.recvPeerEpoch j ≠ Int32.maxValue
  fixed : l.waitForPeerEpoch = false →
    ∀ e j, e ≤ l.recvPeerEpoch j → l.greatest e + 1 = l.peerEpoch
  acked : ∀ id, l.recvNewLeader id = true → (i, l.peerEpoch) ∈ joined id

/-- What session `c` of the lead `l` says. -/
structure Session.Sound (s : Epochs n) (c : Nat) (x : Session n) (l : LeadTables n) : Prop where
  report : ∀ own, x.stage = .polling own ∨ x.stage = .sleeping own → own ≤ l.recvPeerEpoch x.id
  own : x.handler = false → ∀ own, x.stage = .polling own ∨ x.stage = .sleeping own →
    own = s.epoch x.id
  sleeping : ∀ own, x.stage = .sleeping own → ∃ j, 0 < l.recvPeerEpoch j
  role : x.handler = false → x.stage ≠ .closed → s.role x.id = .leading x.lead c
  told : ∀ e, .leaderInfo e ∈ x.down → l.waitForPeerEpoch = false ∧ e = l.peerEpoch
  acked : x.follow ≠ .registering ∨ .ack ∈ x.up → (x.lead, l.peerEpoch) ∈ s.joined x.id

structure Epochs.Inv (s : Epochs n) : Prop where
  sessions : ∀ c x, s.sessions c = some x → ∃ l, s.leads x.lead = some l ∧ x.Sound s c l
  leads : ∀ i l, s.leads i = some l → l.Sound i s.joined
  joined : ∀ id, ∀ p ∈ s.joined id, p.2 ≤ s.epoch id ∧
    ∃ l, s.leads p.1 = some l ∧ l.waitForPeerEpoch = false ∧ l.peerEpoch = p.2
  unique : ∀ id, ∀ p ∈ s.joined id, ∀ q ∈ s.joined id, p.2 = q.2 → p.1 = q.1
  established : ∀ p ∈ s.established,
    ∃ l, s.leads p.1 = some l ∧ l.peerEpoch = p.2 ∧ IsMajority l.synced

theorem LeadTables.Grows.synced {l l' : LeadTables n} (h : l.Grows l') :
    l.synced ⊆ l'.synced := fun i hi => by
  rw [mem_synced] at hi ⊢
  exact h.acks i hi

theorem LeadTables.Sound.mono {l : LeadTables n} {i : Nat}
    {joined joined' : Fin n → List (Nat × Int32)} (h : l.Sound i joined)
    (hj : ∀ id, joined id ⊆ joined' id) : l.Sound i joined' where
  small := h.small
  fixed := h.fixed
  acked id hid := hj id (h.acked id hid)

/-- A session that goes on, or leaves a call, and is sent nothing new. -/
theorem Session.Sound.move {s : Epochs n} {c : Nat} {x x' : Session n} {l : LeadTables n}
    (h : x.Sound s c l) (hid : x'.id = x.id) (hlead : x'.lead = x.lead)
    (hhandler : x'.handler = x.handler)
    (hstage : x'.stage = x.stage ∨
      (x.stage ≠ .closed ∧ ∀ own, ¬ (x'.stage = .polling own ∨ x'.stage = .sleeping own)))
    (hdown : ∀ e, .leaderInfo e ∈ x'.down → .leaderInfo e ∈ x.down)
    (hack : x'.follow ≠ .registering ∨ .ack ∈ x'.up → x.follow ≠ .registering ∨ .ack ∈ x.up) :
    x'.Sound s c l where
  report own hown := by
    rw [hid]
    rcases hstage with hstage | hstage
    · exact h.report own (hstage ▸ hown)
    · exact absurd hown (hstage.2 own)
  own hf own hown := by
    rw [hid]
    rcases hstage with hstage | hstage
    · exact h.own (hhandler ▸ hf) own (hstage ▸ hown)
    · exact absurd hown (hstage.2 own)
  sleeping own hown := by
    rcases hstage with hstage | hstage
    · exact h.sleeping own (hstage ▸ hown)
    · exact absurd (.inr hown) (hstage.2 own)
  role hf hopen := by
    rw [hid, hlead]
    refine h.role (hhandler ▸ hf) ?_
    rcases hstage with hstage | hstage
    · exact hstage ▸ hopen
    · exact hstage.1
  told e he := h.told e (hdown e he)
  acked ha := by
    rw [hid, hlead]
    exact h.acked (hack ha)

namespace Epochs.Inv

variable {s : Epochs n}

theorem of_fresh (h : s.Fresh) : s.Inv := by
  obtain ⟨epoch, rfl⟩ := h
  exact ⟨by simp, by simp, by simp, by simp, by simp⟩

/-- An entry of the history belongs to the fixed epoch of its lead. -/
theorem joined_fixed (h : s.Inv) {id : Fin n} {i : Nat} {e : Int32} {l : LeadTables n}
    (hmem : (i, e) ∈ s.joined id) (hl : s.leads i = some l) :
    l.waitForPeerEpoch = false ∧ l.peerEpoch = e := by
  obtain ⟨-, l', hl', hfixed, he⟩ := h.joined id _ hmem
  rw [hl] at hl'
  cases hl'
  exact ⟨hfixed, he⟩

theorem setSession (h : s.Inv) {c : Nat} {x : Session n} {l : LeadTables n}
    (hl : s.leads x.lead = some l) (hx : x.Sound s c l) : (s.setSession c x).Inv where
  sessions c' x' hx' := by
    by_cases hc : c' = c
    · subst hc
      simp only [Epochs.setSession, Function.update_self, Option.some.injEq] at hx'
      subst hx'
      exact ⟨l, hl, hx.report, hx.own, hx.sleeping, hx.role, hx.told, hx.acked⟩
    · simp only [Epochs.setSession, Function.update_of_ne hc] at hx'
      obtain ⟨l', hl', hs⟩ := h.sessions c' x' hx'
      exact ⟨l', hl', hs.report, hs.own, hs.sleeping, hs.role, hs.told, hs.acked⟩
  leads := h.leads
  joined := h.joined
  unique := h.unique
  established := h.established

/-- What a session says survives a change of its lead. -/
theorem sound_setLead (h : s.Inv) {c : Nat} {x : Session n} {l l' : LeadTables n}
    (hl : s.leads x.lead = some l) (hgrow : l.Grows l') (hs : x.Sound s c l) :
    x.Sound (s.setLead x.lead l') c l' where
  report own hown := Std.le_trans (hs.report own hown) (hgrow.reports x.id)
  own := hs.own
  sleeping own hown := by
    obtain ⟨j, hj⟩ := hs.sleeping own hown
    exact ⟨j, Std.lt_of_lt_of_le hj (hgrow.reports j)⟩
  role := hs.role
  told e he := by
    obtain ⟨hfixed, heq⟩ := hs.told e he
    obtain ⟨hfixed', heq'⟩ := hgrow.fixed hfixed
    exact ⟨hfixed', heq.trans heq'.symm⟩
  acked hack := by
    have hmem := hs.acked hack
    rw [(hgrow.fixed (h.joined_fixed hmem hl).1).2]
    exact hmem

theorem setLead (h : s.Inv) {i : Nat} {l l' : LeadTables n} (hl : s.leads i = some l)
    (hgrow : l.Grows l') (hl' : l'.Sound i s.joined) : (s.setLead i l').Inv where
  sessions c x hx := by
    obtain ⟨m, hm, hs⟩ := h.sessions c x hx
    by_cases hi : x.lead = i
    · subst hi
      rw [hl] at hm
      cases hm
      exact ⟨l', by simp [Epochs.setLead], h.sound_setLead hl hgrow hs⟩
    · exact ⟨m, by simp [Epochs.setLead, Function.update_of_ne hi, hm], hs.report, hs.own,
        hs.sleeping, hs.role, hs.told, hs.acked⟩
  leads j m hm := by
    by_cases hj : j = i
    · subst hj
      simp only [Epochs.setLead, Function.update_self, Option.some.injEq] at hm
      exact hm ▸ hl'
    · simp only [Epochs.setLead, Function.update_of_ne hj] at hm
      exact h.leads j m hm
  joined id p hp := by
    obtain ⟨hle, m, hm, hfixed, he⟩ := h.joined id p hp
    refine ⟨hle, ?_⟩
    by_cases hi : p.1 = i
    · subst hi
      rw [hl] at hm
      cases hm
      obtain ⟨hfixed', heq⟩ := hgrow.fixed hfixed
      exact ⟨l', by simp [Epochs.setLead], hfixed', heq.trans he⟩
    · exact ⟨m, by simp [Epochs.setLead, Function.update_of_ne hi, hm], hfixed, he⟩
  unique := h.unique
  established p hp := by
    obtain ⟨m, hm, he, hmaj⟩ := h.established p hp
    by_cases hi : p.1 = i
    · subst hi
      rw [hl] at hm
      cases hm
      obtain ⟨id, hid, -⟩ := hmaj.inter hmaj
      rw [LeadTables.mem_synced] at hid
      have hfixed := (h.joined_fixed ((h.leads _ _ hl).acked id hid) hl).1
      exact ⟨l', by simp [Epochs.setLead], (hgrow.fixed hfixed).2.trans he,
        hmaj.mono hgrow.synced⟩
    · exact ⟨m, by simp [Epochs.setLead, Function.update_of_ne hi, hm], he, hmaj⟩

/-- A new lead. -/
theorem newLead (h : s.Inv) {i : Nat} (hi : s.leads i = none) (id : Fin n) :
    (s.setLead i { id := id }).Inv where
  sessions c x hx := by
    obtain ⟨m, hm, hs⟩ := h.sessions c x hx
    have hne : x.lead ≠ i := fun heq => by simp [heq, hi] at hm
    exact ⟨m, by simp [Epochs.setLead, Function.update_of_ne hne, hm], hs.report, hs.own,
      hs.sleeping, hs.role, hs.told, hs.acked⟩
  leads j m hm := by
    by_cases hj : j = i
    · subst hj
      simp only [Epochs.setLead, Function.update_self, Option.some.injEq] at hm
      subst hm
      exact ⟨fun j => by simp; decide, by simp, by simp⟩
    · simp only [Epochs.setLead, Function.update_of_ne hj] at hm
      exact h.leads j m hm
  joined id' p hp := by
    obtain ⟨hle, m, hm, hrest⟩ := h.joined id' p hp
    have hne : p.1 ≠ i := fun heq => by simp [heq, hi] at hm
    exact ⟨hle, m, by simp [Epochs.setLead, Function.update_of_ne hne, hm], hrest⟩
  unique := h.unique
  established p hp := by
    obtain ⟨m, hm, hrest⟩ := h.established p hp
    have hne : p.1 ≠ i := fun heq => by simp [heq, hi] at hm
    exact ⟨m, by simp [Epochs.setLead, Function.update_of_ne hne, hm], hrest⟩

theorem setRole (h : s.Inv) {id : Fin n} {role : Role}
    (hrole : ∀ c x, s.sessions c = some x → x.handler = false → x.id = id →
      x.stage ≠ .closed → role = .leading x.lead c) : (s.setRole id role).Inv where
  sessions c x hx := by
    obtain ⟨l, hl, hs⟩ := h.sessions c x hx
    refine ⟨l, hl, hs.report, hs.own, hs.sleeping, ?_, hs.told, hs.acked⟩
    intro hown hopen
    by_cases hid : x.id = id
    · subst hid
      simpa [Epochs.setRole] using hrole c x hx hown rfl hopen
    · simpa [Epochs.setRole, Function.update_of_ne hid] using hs.role hown hopen
  leads := h.leads
  joined := h.joined
  unique := h.unique
  established := h.established

/-- A server that waits in no call of its own takes over the epoch of a lead,
unless it has that epoch from another. -/
theorem join (h : s.Inv) (id : Fin n) {i : Nat} {l : LeadTables n} (hl : s.leads i = some l)
    (hfixed : l.waitForPeerEpoch = false) (hle : s.epoch id ≤ l.peerEpoch)
    (hfree : s.epoch id = l.peerEpoch → s.Free id i l.peerEpoch)
    (hown : ∀ c x, s.sessions c = some x → x.handler = false → x.id = id →
      ∀ own, ¬ (x.stage = .polling own ∨ x.stage = .sleeping own)) :
    (s.join id i l.peerEpoch).Inv := by
  have hsub : ∀ id', s.joined id' ⊆ (s.join id i l.peerEpoch).joined id' := by
    intro id'
    by_cases hid : id' = id
    · subst hid
      simp [Epochs.join]
    · simp [Epochs.join, Function.update_of_ne hid]
  -- the new entry against an old one
  have hnew : ∀ p ∈ s.joined id, p.2 = l.peerEpoch → p.1 = i := by
    intro p hp he
    have := (h.joined id p hp).1
    exact hfree (by grind) p hp he
  refine ⟨?_, fun j m hm => (h.leads j m hm).mono hsub, ?_, ?_, h.established⟩
  · intro c x hx
    obtain ⟨m, hm, hs⟩ := h.sessions c x hx
    refine ⟨m, hm, hs.report, ?_, hs.sleeping, hs.role, hs.told, fun hack => hsub _ (hs.acked hack)⟩
    intro hhandler own hstage
    by_cases hid : x.id = id
    · exact absurd hstage (hown c x hx hhandler hid own)
    · simpa [Epochs.join, Function.update_of_ne hid] using hs.own hhandler own hstage
  · intro id' p hp
    by_cases hid : id' = id
    · subst hid
      simp only [Epochs.join, Function.update_self, List.mem_cons] at hp ⊢
      rcases hp with rfl | hp
      · exact ⟨Std.le_refl _, l, hl, hfixed, rfl⟩
      · exact ⟨Std.le_trans (h.joined id' p hp).1 hle, (h.joined id' p hp).2⟩
    · simp only [Epochs.join, Function.update_of_ne hid] at hp ⊢
      exact h.joined id' p hp
  · intro id' p hp q hq heq
    by_cases hid : id' = id
    · subst hid
      simp only [Epochs.join, Function.update_self, List.mem_cons] at hp hq
      rcases hp with rfl | hp <;> rcases hq with rfl | hq
      · rfl
      · exact (hnew q hq heq.symm).symm
      · exact hnew p hp heq
      · exact h.unique id' p hp q hq heq
    · simp only [Epochs.join, Function.update_of_ne hid] at hp hq
      exact h.unique id' p hp q hq heq

/-- `GetPeerEpoch` returns the epoch that is fixed. -/
theorem told (h : s.Inv) {c : Nat} {x : Session n} {l : LeadTables n}
    (hl : s.leads x.lead = some l) (hs : x.Sound s c l) (hopen : x.stage ≠ .closed)
    (hfixed : l.waitForPeerEpoch = false)
    (hown : x.handler = false → s.epoch x.id ≤ l.peerEpoch ∧
      (s.epoch x.id = l.peerEpoch → s.Free x.id x.lead l.peerEpoch)) :
    (s.told c x l).Inv := by
  rw [Epochs.told]
  split
  next =>
    refine h.setSession hl ⟨by simp, by simp, by simp, ?_, ?_, hs.acked⟩
    · exact fun hhandler _ => hs.role hhandler hopen
    · intro e he
      rcases List.mem_append.mp he with he | he
      · exact hs.told e he
      · simp only [List.mem_singleton, Handshake.leaderInfo.injEq] at he
        exact ⟨hfixed, he⟩
  next hhandler =>
    have hhandler : x.handler = false := by simpa using hhandler
    have hrole := hs.role hhandler hopen
    have hnext : (s.setSession c { x with stage := .newLeader }).Inv :=
      h.setSession hl ⟨by simp, by simp, by simp, fun _ _ => hrole, hs.told, hs.acked⟩
    have hjoin := hnext.join x.id hl hfixed (hown hhandler).1 (hown hhandler).2 ?_
    · refine hjoin.setLead hl ⟨rfl, fun _ => Std.le_refl _, ?_, fun hf => ⟨hf, rfl⟩⟩ ?_
      · intro id hid
        by_cases heq : id = x.id
        · simp [LeadTables.recvAck, heq]
        · simpa [LeadTables.recvAck, Function.update_of_ne heq] using hid
      · have hsound := h.leads _ _ hl
        refine ⟨hsound.small, hsound.fixed, fun id hid => ?_⟩
        by_cases heq : id = x.id
        · subst heq
          simp [Epochs.join, LeadTables.recvAck]
        · simp only [LeadTables.recvAck, Function.update_of_ne heq] at hid
          simpa [Epochs.join, Epochs.setSession, Function.update_of_ne heq] using
            (show (x.lead, (l.recvAck x.id).peerEpoch) ∈ s.joined id from hsound.acked id hid)
    · -- the server's own call is this one
      intro c' x' hx' hhandler' hid own hstage
      obtain ⟨l', -, hs'⟩ := hnext.sessions c' x' hx'
      have hrole' : s.role x'.id = .leading x'.lead c' :=
        hs'.role hhandler' (by rcases hstage with hstage | hstage <;> simp [hstage])
      rw [hid, hrole] at hrole'
      injection hrole' with _ hc
      subst hc
      simp only [Epochs.setSession, Function.update_self, Option.some.injEq] at hx'
      subst hx'
      simp at hstage

/-- The first lines of `GetPeerEpoch`, where the report lowers nothing. -/
theorem getPeerEpoch (h : s.Inv) {c : Nat} {x : Session n} {l : LeadTables n} {own : Int32}
    (hl : s.leads x.lead = some l) (hs : x.Sound s c l) (hopen : x.stage ≠ .closed)
    (hown : x.handler = false → own = s.epoch x.id)
    (hreport : l.waitForPeerEpoch = true → l.recvPeerEpoch x.id ≤ own ∧ own ≠ Int32.maxValue)
    (htold : l.waitForPeerEpoch = false → x.handler = false → s.epoch x.id ≤ l.peerEpoch ∧
      (s.epoch x.id = l.peerEpoch → s.Free x.id x.lead l.peerEpoch)) :
    (s.getPeerEpoch c x l own).Inv := by
  rw [Epochs.getPeerEpoch]
  split
  next hwait =>
    obtain ⟨hle, hmax⟩ := hreport hwait
    have hgrow : l.Grows (l.report x.id own) := by
      refine ⟨rfl, fun j => ?_, fun _ hj => hj, fun hf => by simp [hwait] at hf⟩
      rw [l.recvPeerEpoch_report]
      split
      next hj => exact hj ▸ hle
      next => exact Std.le_refl _
    have hsound := h.leads _ _ hl
    have hlead : (s.setLead x.lead (l.report x.id own)).Inv := by
      refine h.setLead hl hgrow ⟨fun j => ?_, fun hf => ?_, hsound.acked⟩
      · rw [l.recvPeerEpoch_report]
        split
        next => exact hmax
        next => exact hsound.small j
      · simp [LeadTables.report, hwait] at hf
    have hs' := h.sound_setLead hl hgrow hs
    refine hlead.setSession (x := { x with stage := .polling own })
      (by simp [Epochs.setLead]) ⟨?_, ?_, by simp, ?_, hs'.told, hs'.acked⟩
    · intro own' hstage
      simp only [Stage.polling.injEq, reduceCtorEq, or_false] at hstage
      simp [LeadTables.report, hstage]
    · intro hhandler own' hstage
      simp only [Stage.polling.injEq, reduceCtorEq, or_false] at hstage
      exact hstage ▸ hown hhandler
    · exact fun hhandler _ => hs.role hhandler hopen
  next hwait =>
    have hwait : l.waitForPeerEpoch = false := by simpa using hwait
    exact h.told hl hs hopen hwait (htold hwait)

/-- The last lines of `GetPeerEpoch`. -/
theorem finish (h : s.Inv) {c : Nat} {x : Session n} {l : LeadTables n} {own : Int32}
    (hl : s.leads x.lead = some l) (hs : x.Sound s c l) (hstage : x.stage = .sleeping own) :
    ((s.setLead x.lead (l.finish own)).told c x (l.finish own)).Inv := by
  have hsound := h.leads _ _ hl
  have hle := hs.report own (.inr hstage)
  have hpos := hs.sleeping own hstage
  have hgrow : l.Grows (l.finish own) :=
    ⟨rfl, fun _ => Std.le_refl _, fun _ hi => hi, fun hf => ⟨rfl, hsound.fixed hf own x.id hle⟩⟩
  have hlead : (s.setLead x.lead (l.finish own)).Inv := by
    refine h.setLead hl hgrow ⟨hsound.small, ?_, ?_⟩
    · intro _ e j he
      have heq : l.greatest e = l.greatest own := l.greatest_eq he hle hpos
      exact congrArg (· + 1) heq
    · intro id hid
      have hmem := hsound.acked id hid
      rw [(hgrow.fixed (h.joined_fixed hmem hl).1).2]
      exact hmem
  refine hlead.told (by simp [Epochs.setLead]) (h.sound_setLead hl hgrow hs) (by simp [hstage])
    rfl fun hhandler => ?_
  -- the epoch is above the server's own
  obtain ⟨j, -, hj⟩ := l.greatest_reported hle hpos
  have hsmall := hsound.small j
  have hown := hs.own hhandler own (.inr hstage)
  have hgreatest := l.le_greatest own
  have hlt : s.epoch x.id < l.greatest own + 1 := by grind
  refine ⟨Std.le_of_lt hlt, fun heq => ?_⟩
  exact absurd (show s.epoch x.id = l.greatest own + 1 from heq) (by grind)

/-- A change of the tables that leaves reports, acknowledgements and the epoch alone. -/
theorem setLead_same (h : s.Inv) {i : Nat} {l t : LeadTables n} (hl : s.leads i = some l)
    (hid : t.id = l.id) (hwait : t.waitForPeerEpoch = l.waitForPeerEpoch)
    (hepoch : t.peerEpoch = l.peerEpoch) (hrecv : t.recvPeerEpoch = l.recvPeerEpoch)
    (hack : t.recvNewLeader = l.recvNewLeader) :
    l.Grows t ∧ (s.setLead i t).Inv := by
  have hgrow : l.Grows t :=
    ⟨hid, fun j => hrecv ▸ Std.le_refl _, fun j hj => hack ▸ hj, fun hf => ⟨hwait ▸ hf, hepoch⟩⟩
  have hsound := h.leads _ _ hl
  refine ⟨hgrow, h.setLead hl hgrow ⟨fun j => hrecv ▸ hsound.small j, ?_, ?_⟩⟩
  · intro hf e j he
    have hg : t.greatest e = l.greatest e := by simp only [LeadTables.greatest, hrecv]
    rw [hg, hepoch]
    exact hsound.fixed (hwait ▸ hf) e j (hrecv ▸ he)
  · intro id hid
    rw [hepoch]
    exact hsound.acked id (hack ▸ hid)

/-- A lead gets past `WaitForNewLeader`. -/
theorem establish (h : s.Inv) {i : Nat} {l : LeadTables n} (hl : s.leads i = some l)
    (hmaj : IsMajority l.synced) :
    Epochs.Inv { s with established := (i, l.peerEpoch) :: s.established } where
  sessions c x hx := by
    obtain ⟨l', hl', hs⟩ := h.sessions c x hx
    exact ⟨l', hl', hs.report, hs.own, hs.sleeping, hs.role, hs.told, hs.acked⟩
  leads := h.leads
  joined := h.joined
  unique := h.unique
  established p hp := by
    rcases List.mem_cons.mp hp with rfl | hp
    · exact ⟨l, hl, rfl, hmaj⟩
    · exact h.established p hp

/-- A step of one side that leaves the other alone. -/
theorem move (h : s.Inv) {c : Nat} {x x' : Session n} {l l' : LeadTables n}
    (hl : s.leads x.lead = some l) (hs : x.Sound s c l)
    (hsame : l.Grows l' ∧ (s.setLead x.lead l').Inv) (hid : x'.id = x.id)
    (hlead : x'.lead = x.lead) (hhandler : x'.handler = x.handler)
    (hstage : x'.stage = x.stage ∨
      (x.stage ≠ .closed ∧ ∀ own, ¬ (x'.stage = .polling own ∨ x'.stage = .sleeping own)))
    (hdown : ∀ e, .leaderInfo e ∈ x'.down → .leaderInfo e ∈ x.down)
    (hack : x'.follow ≠ .registering ∨ .ack ∈ x'.up → x.follow ≠ .registering ∨ .ack ∈ x.up) :
    ((s.setSession c x').setLead x.lead l').Inv :=
  hsame.2.setSession (x := x') (by simp [Epochs.setLead, hlead])
    ((h.sound_setLead hl hsame.1 hs).move hid hlead hhandler hstage hdown hack)

/-- A follower takes over the epoch it was sent. -/
theorem leaderInfo (h : s.Inv) {c : Nat} {x : Session n} {l : LeadTables n} {e : Int32}
    {down : List Handshake} (hx : s.sessions c = some x) (hl : s.leads x.lead = some l)
    (hs : x.Sound s c l) (hrole : s.role x.id = .following c)
    (hdown : x.down = .leaderInfo e :: down) (hle : s.epoch x.id ≤ e)
    (hfree : s.epoch x.id = e → s.Free x.id x.lead e) :
    ((s.setSession c { x with
      down := down, up := x.up ++ [.ackEpoch e], follow := .syncing }).join x.id x.lead e).Inv := by
  obtain ⟨hfixed, rfl⟩ := hs.told e (by simp [hdown])
  have hjoin : (s.join x.id x.lead l.peerEpoch).Inv := by
    refine h.join x.id hl hfixed hle hfree fun c' x' hx' hhandler hid own hstage => ?_
    obtain ⟨l', -, hs'⟩ := h.sessions c' x' hx'
    have := hs'.role hhandler (by rcases hstage with hstage | hstage <;> simp [hstage])
    rw [hid, hrole] at this
    cases this
  obtain ⟨l', hl', hs'⟩ := hjoin.sessions c x hx
  rw [show (s.join x.id x.lead l.peerEpoch).leads x.lead = some l from hl] at hl'
  cases hl'
  refine hjoin.setSession (x := { x with
    down := down, up := x.up ++ [.ackEpoch l.peerEpoch], follow := .syncing }) hl
    ⟨hs'.report, hs'.own, hs'.sleeping, hs'.role, ?_, fun _ => ?_⟩
  · intro e he
    exact hs'.told e (by simp [hdown, he])
  · simp [Epochs.join]

/-- A server that does not lead has no call of its own, and takes a role. -/
theorem setRole_free (h : s.Inv) {id : Fin n} (hrole : ∀ i c, s.role id ≠ .leading i c)
    (role : Role) : (s.setRole id role).Inv := by
  refine h.setRole fun c x hx hhandler hid hopen => ?_
  obtain ⟨l, -, hs⟩ := h.sessions c x hx
  exact absurd (hid ▸ hs.role hhandler hopen) (hrole x.lead c)

/-- `GetPeerEpoch` is called, by a handler with the epoch that it has read. -/
theorem report (h : s.Inv) {c c' : Nat} {x : Session n} {l : LeadTables n} {peerEpoch : Int32}
    {s' : Epochs n} (hl : s.leads x.lead = some l) (hs : x.Sound s c l)
    (ha : s.DistinctSession x l (.report c' peerEpoch))
    (hstep : s.stepSession c x l (.report c' peerEpoch) = some s') : s'.Inv := by
  rw [Epochs.stepSession] at hstep
  rw [Epochs.DistinctSession] at ha
  split at hstep
  next hstage =>
    have hopen : x.stage ≠ .closed := by simp [hstage]
    split at hstep
    next hhandler =>
      split at hstep
      next up hup =>
        cases hstep
        have hs' : Session.Sound s c { x with up := up } l :=
          hs.move rfl rfl rfl (.inl rfl) (fun _ he => he) fun hack =>
            hack.imp id fun hack => hup ▸ .tail _ hack
        refine h.getPeerEpoch (x := { x with up := up }) hl hs' hopen (by simp [hhandler]) ?_
          (by simp [hhandler])
        intro hwait
        simpa [hwait, hhandler, Epochs.own] using ha
      next => cases hstep
    next hhandler =>
      cases hstep
      refine h.getPeerEpoch hl hs hopen (fun _ => rfl) ?_ ?_
      · intro hwait
        simpa [hwait, hhandler, Epochs.own] using ha
      · intro hwait _
        simpa [hwait, hhandler] using ha
  next => cases hstep

/-- A call that finds a majority of reports falls asleep. -/
theorem poll (h : s.Inv) {c : Nat} {x : Session n} {l : LeadTables n} {own : Int32}
    (hl : s.leads x.lead = some l) (hs : x.Sound s c l) (hstage : x.stage = .polling own)
    (hmaj : IsMajority l.reported) : (s.setSession c { x with stage := .sleeping own }).Inv := by
  obtain ⟨j, hj, -⟩ := hmaj.inter hmaj
  refine h.setSession (x := { x with stage := .sleeping own }) hl
    ⟨?_, ?_, fun _ _ => ⟨j, LeadTables.mem_reported.mp hj⟩, ?_, hs.told, hs.acked⟩
  · intro own' hown
    refine hs.report own' (.inl ?_)
    simpa [hstage] using hown
  · intro hhandler own' hown
    refine hs.own hhandler own' (.inl ?_)
    simpa [hstage] using hown
  · exact fun hhandler _ => hs.role hhandler (by simp [hstage])

/-- A follower that is sent an epoch below its own ends. -/
theorem leaderInfo_stale (h : s.Inv) {c : Nat} {x : Session n} {l : LeadTables n} {e : Handshake}
    {down : List Handshake} (hl : s.leads x.lead = some l) (hs : x.Sound s c l)
    (hrole : s.role x.id = .following c) (hdown : x.down = e :: down) :
    ((s.setSession c { x with down := down }).setRole x.id .idle).Inv := by
  have hnext := h.setSession (x := { x with down := down }) hl
    (hs.move rfl rfl rfl (.inl rfl) (fun _ he => hdown ▸ .tail _ he) id)
  refine hnext.setRole_free (fun i c' hleading => ?_) .idle
  cases hrole.symm.trans hleading

/-- A handler reads `ACK`. -/
theorem ack (h : s.Inv) {c : Nat} {x : Session n} {l : LeadTables n} {up : List Handshake}
    (hl : s.leads x.lead = some l) (hs : x.Sound s c l) (hstage : x.stage = .ack)
    (hup : x.up = .ack :: up) :
    ((s.setSession c { x with up := up, stage := .newLeader }).setLead x.lead
      (l.recvAck x.id)).Inv := by
  have hmem := hs.acked (.inr (by simp [hup]))
  have hnext := h.setSession (x := { x with up := up, stage := .newLeader }) hl
    (hs.move rfl rfl rfl (.inr (by simp [hstage])) (fun _ he => he)
      fun hack => hack.imp id fun hack => hup ▸ .tail _ hack)
  have hsound := h.leads _ _ hl
  refine hnext.setLead hl ⟨rfl, fun _ => Std.le_refl _, ?_, fun hf => ⟨hf, rfl⟩⟩
    ⟨hsound.small, hsound.fixed, ?_⟩
  · intro id hid
    by_cases heq : id = x.id
    · simp [LeadTables.recvAck, heq]
    · simpa [LeadTables.recvAck, Function.update_of_ne heq] using hid
  · intro id hid
    by_cases heq : id = x.id
    · exact heq ▸ hmem
    · simp only [LeadTables.recvAck, Function.update_of_ne heq] at hid
      exact hsound.acked id hid

/-- `WaitForNewLeader` returns. -/
theorem pass (h : s.Inv) {c : Nat} {x : Session n} {l : LeadTables n}
    (hx : s.sessions c = some x) (hl : s.leads x.lead = some l) (hstage : x.stage = .newLeader)
    (hmaj : IsMajority l.synced) :
    (Epochs.setSession { s with established := (x.lead, l.peerEpoch) :: s.established } c
      { x with
        stage := .passed
        down := if x.handler then x.down ++ [.updated] else x.down }).Inv := by
  have hnext := h.establish hl hmaj
  obtain ⟨l', hl', hs⟩ := hnext.sessions c x hx
  refine hnext.setSession (x := { x with stage := .passed, down := _ }) hl'
    (hs.move rfl rfl rfl (.inr (by simp [hstage])) ?_ id)
  intro e he
  dsimp only at he
  split at he
  next => simpa using he
  next => exact he

/-- `Leading` ends. -/
theorem stepDown (h : s.Inv) {c : Nat} {x : Session n} {l : LeadTables n}
    (hl : s.leads x.lead = some l) (hs : x.Sound s c l)
    (hrole : s.role x.id = .leading x.lead c) (hstage : x.stage = .passed) :
    ((s.setSession c { x with stage := .closed }).setRole x.id .idle).Inv := by
  have hnext := h.setSession (x := { x with stage := .closed }) hl
    (hs.move rfl rfl rfl (.inr (by simp [hstage])) (fun _ he => he) id)
  refine hnext.setRole fun c' x' hx' hhandler hid hopen => ?_
  obtain ⟨l', -, hs'⟩ := hnext.sessions c' x' hx'
  have hrole' : s.role x'.id = .leading x'.lead c' := hs'.role hhandler hopen
  rw [hid, hrole] at hrole'
  injection hrole' with _ hc
  subst hc
  simp only [Epochs.setSession, Function.update_self, Option.some.injEq] at hx'
  subst hx'
  exact absurd rfl hopen

/-- What a step of a session does keeps the invariant. -/
theorem stepSession (h : s.Inv) {c : Nat} {x : Session n} {l : LeadTables n} {a : EpochAct n}
    {s' : Epochs n} (hx : s.sessions c = some x) (hl : s.leads x.lead = some l)
    (ha : s.DistinctSession x l a) (hstep : s.stepSession c x l a = some s') : s'.Inv := by
  obtain ⟨l', hl', hs⟩ := h.sessions c x hx
  rw [hl] at hl'
  cases hl'
  have hunregister := h.setLead_same (t := l.unregister x.id) hl rfl rfl rfl rfl rfl
  cases a with
  | lead | follow => cases hstep
  | register c' =>
      simp only [Epochs.stepSession] at hstep
      split at hstep
      next hstart =>
        split at hstep
        next l' hreg =>
          cases hstep
          rw [LeadTables.register] at hreg
          split at hreg
          next => cases hreg
          next =>
            cases hreg
            exact h.move hl hs (h.setLead_same hl rfl rfl rfl rfl rfl) rfl rfl rfl
              (.inr (by simp [hstart.2])) (fun _ he => he) id
        next =>
          cases hstep
          exact h.move hl hs hunregister rfl rfl rfl (.inr (by simp [hstart.2]))
            (fun _ he => he) id
      next => cases hstep
  | report c' peerEpoch => exact h.report hl hs ha hstep
  | poll c' =>
      rw [Epochs.stepSession] at hstep
      split at hstep
      next own hstage =>
        split at hstep
        next hmaj =>
          cases hstep
          exact h.poll hl hs hstage hmaj
        next => cases hstep
      next => cases hstep
  | finish c' =>
      simp only [Epochs.stepSession] at hstep
      split at hstep
      next own hstage =>
        cases hstep
        exact h.finish hl hs hstage
      next => cases hstep
  | leaderInfo c' peerEpoch =>
      simp only [Epochs.stepSession] at hstep
      simp only [Epochs.DistinctSession] at ha
      split at hstep
      next hfollow =>
        split at hstep
        next e down hdown =>
          obtain ⟨hread, hfree⟩ := ha
          simp only [hdown, List.head?_cons, Option.some.injEq, Handshake.leaderInfo.injEq] at hread
          subst hread
          split at hstep
          next =>
            cases hstep
            exact h.leaderInfo_stale hl hs hfollow.1 hdown
          next hlt =>
            cases hstep
            exact h.leaderInfo hx hl hs hfollow.1 hdown (by grind) hfree
        next => cases hstep
      next => cases hstep
  | ackEpoch c' =>
      simp only [Epochs.stepSession] at hstep
      split at hstep
      next hstage =>
        split at hstep
        next e up hup =>
          cases hstep
          refine h.setSession (x := { x with
            up := up, down := x.down ++ [.newLeader], stage := .ack }) hl
            (hs.move rfl rfl rfl (.inr (by simp [hstage])) ?_ ?_)
          · intro e he
            simpa using he
          · exact fun hack => hack.imp id fun hack => hup ▸ .tail _ hack
        next => cases hstep
      next => cases hstep
  | newLeader c' =>
      simp only [Epochs.stepSession] at hstep
      split at hstep
      next hfollow =>
        split at hstep
        next down hdown =>
          cases hstep
          exact h.setSession (x := { x with down := down, up := x.up ++ [.ack] }) hl
            (hs.move rfl rfl rfl (.inl rfl) (fun _ he => hdown ▸ .tail _ he)
              fun _ => .inl (by simp [hfollow.2]))
        next => cases hstep
      next => cases hstep
  | ack c' =>
      simp only [Epochs.stepSession] at hstep
      split at hstep
      next hstage =>
        split at hstep
        next up hup =>
          cases hstep
          exact h.ack hl hs hstage hup
        next => cases hstep
      next => cases hstep
  | pass c' =>
      simp only [Epochs.stepSession] at hstep
      split at hstep
      next hpass =>
        cases hstep
        exact h.pass hx hl hpass.1 hpass.2
      next => cases hstep
  | updated c' =>
      simp only [Epochs.stepSession] at hstep
      split at hstep
      next hfollow =>
        split at hstep
        next down hdown =>
          cases hstep
          exact h.setSession (x := { x with down := down, follow := .active }) hl
            (hs.move rfl rfl rfl (.inl rfl) (fun _ he => hdown ▸ .tail _ he)
              fun _ => .inl (by simp [hfollow.2]))
        next => cases hstep
      next => cases hstep
  | close c' =>
      simp only [Epochs.stepSession] at hstep
      split at hstep
      next hclose =>
        cases hstep
        refine h.move hl hs hunregister rfl rfl rfl (.inr ⟨?_, by simp⟩) (fun _ he => he) id
        intro hclosed
        simp [hclosed, Stage.reads] at hclose
      next => cases hstep
  | leave c' =>
      simp only [Epochs.stepSession] at hstep
      split at hstep
      next hfollow =>
        cases hstep
        refine h.setRole_free (fun i c'' hleading => ?_) .idle
        cases hfollow.symm.trans hleading
      next => cases hstep
  | stepDown c' =>
      simp only [Epochs.stepSession] at hstep
      split at hstep
      next hdown =>
        cases hstep
        exact h.stepDown hl hs hdown.1 hdown.2.1
      next => cases hstep

/-- An idle server takes a role. -/
theorem setRole_idle (h : s.Inv) {id : Fin n} (hidle : s.role id = .idle) (role : Role) :
    (s.setRole id role).Inv := by
  refine h.setRole_free (fun i c hleading => ?_) role
  cases hidle.symm.trans hleading

theorem step (h : s.Inv) {a : EpochAct n} {s' : Epochs n} (ha : Distinct s a)
    (hstep : s.step a = some s') : s'.Inv := by
  unfold Epochs.step at hstep
  split at hstep
  next id i c =>
    split at hstep
    next hnew =>
      cases hstep
      have hnext := (h.newLead hnew.2.1 id).setRole_idle hnew.1 (.leading i c)
      exact hnext.setSession
        (x := { lead := i, id := id, handler := false, stage := .followInfo })
        (l := { id := id }) (by simp [Epochs.setRole, Epochs.setLead])
        ⟨by simp, by simp, by simp, by simp [Epochs.setRole], by simp, by simp⟩
    next => cases hstep
  next id i c =>
    split at hstep
    next => cases hstep
    next l hl =>
      split at hstep
      next hnew =>
        cases hstep
        have hlead := (h.setLead_same (t := { l with count := l.count + 1 })
          hl rfl rfl rfl rfl rfl).2
        exact (hlead.setRole_idle hnew.1 (.following c)).setSession
          (x := { lead := i, id := id, handler := true, stage := .start,
                  up := [.followInfo (s.epoch id)] })
          (l := { l with count := l.count + 1 }) (by simp [Epochs.setRole, Epochs.setLead])
          ⟨by simp, by simp, by simp, by simp, by simp, by simp⟩
      next => cases hstep
  next =>
    split at hstep
    next => cases hstep
    next x hx =>
      split at hstep
      next => cases hstep
      next l hl => exact h.stepSession hx hl (ha x hx l hl) hstep

end Epochs.Inv

/-! ## The theorem -/

instance (s : Epochs n) (id : Fin n) (i : Nat) (e : Int32) : Decidable (s.Free id i e) :=
  inferInstanceAs (Decidable (∀ p ∈ s.joined id, p.2 = e → p.1 = i))

instance (s : Epochs n) (x : Session n) (l : LeadTables n) :
    ∀ a, Decidable (s.DistinctSession x l a)
  | .report _ _ => inferInstanceAs (Decidable (ite _ _ _))
  | .leaderInfo _ _ => inferInstanceAs (Decidable (_ ∧ (_ → _)))
  | .lead _ _ _ | .follow _ _ _ | .register _ | .poll _ | .finish _ | .ackEpoch _ | .newLeader _
  | .ack _ | .pass _ | .updated _ | .close _ | .leave _ | .stepDown _ =>
      inferInstanceAs (Decidable True)

instance (s : Epochs n) (a : EpochAct n) : Decidable (Distinct s a) :=
  inferInstanceAs (Decidable (∀ x ∈ _, ∀ l ∈ _, _))

/-- The leads that got past `WaitForNewLeader`, with their servers. -/
def Epochs.view (s : Epochs n) : List (Nat × Int32 × Option (Fin n)) :=
  s.established.map fun p => (p.1, p.2, (s.leads p.1).map LeadTables.id)

/-- Server 2 follows lead 1, so that its epoch is fixed at 2, and leaves before it
reads `LEADER_INFO`. -/
def abandonLead [NeZero n] : List (EpochAct n) :=
  [.lead 1 1 0, .report 0 0, .follow 2 1 1, .register 1, .report 1 1, .poll 0, .finish 0,
    .leave 1, .poll 1, .finish 1, .close 1]

/-- Server 2 follows lead 0, which is established. -/
def followLead [NeZero n] : List (EpochAct n) :=
  [.lead 0 0 2, .report 2 0, .follow 2 0 3, .register 3, .report 3 1, .poll 2, .finish 2,
    .poll 3, .finish 3, .leaderInfo 3 2, .ackEpoch 3, .newLeader 3, .ack 3, .pass 2, .leave 3]

/-- Server 2 comes back to lead 1, with its epoch. -/
def returnToLead [NeZero n] : List (EpochAct n) :=
  [.follow 2 1 4, .register 4, .report 4 2, .leaderInfo 4 2, .ackEpoch 4, .newLeader 4, .ack 4,
    .pass 0]

end Paxos
