import Mathlib.Data.List.Nodup
import Zookeeper.Paxos.Committing

/-!
# What two servers have applied

`Cluster.AppliedAgree` says that what any two servers have applied is the same as far as
both go.  A follower that lags behind by one bill of the leader's log breaks it: it is sent
two openings, skips the second one, and goes on without the bill
(`lagging_follower_diverges`).

`applied_agree` proves it for the runs in which every step is `Orderly`.
-/

namespace Paxos

open Transition

variable {n : Nat} {σ τ : Type}

namespace Cluster

open Member

/-- What two servers have applied is the same as far as both go, and an id stands for one
bill. -/
def AppliedAgree (s : Cluster n σ) : Prop :=
  ∀ i j, ((s.members i).applied <+: (s.members j).applied ∨
      (s.members j).applied <+: (s.members i).applied) ∧
    ∀ b ∈ (s.members i).applied, ∀ b' ∈ (s.members j).applied, b.zxId = b'.zxId → b = b'

/-- The calls behind a frame succeed.  A draft that an active follower cannot save ends the
connection, and needs no condition. -/
def Succeeds (m : Machine σ τ) (x : Member n σ) (io : ReadIo τ) (reader : ReaderState) :
    DownFrame → Prop
  | .propose _ => reader = .syncing → io.save = true
  | .commit _ => Applies m x io
  | _ => True

/-- A step that no bill is lost in.  Nobody leads, syncs or steps down with bills it has
logged and not applied.  The epoch of a leader is above its last id, and its drafts have
numbers of their own.  A follower is sent nothing or a snapshot first, and the leader changes
nothing before the follower is in its table.  File calls and transactions succeed. -/
def Orderly (m : Machine σ τ) (s : Cluster n σ) : ClusterAct n τ → Prop
  | .lead i peerEpoch =>
      (s.members i).data.uncommit = [] ∧ (s.members i).data.zxId < zxIdOf peerEpoch 1
  | .sync k => ∀ c ∈ s.connections k, c.reader = .opening →
      (s.members c.id).data.uncommit = [] ∧
        (c.lastZxId = (s.members c.lead).data.zxId ∨ SnapsFirst (s.members c.lead).data c.lastZxId)
  | .startForwarding k => ∀ c ∈ s.connections k, c.sent = (s.members c.lead).copy
  | .propose i _ _ _ _ => ∀ l ∈ (s.members i).leading, IsDraftId l.lead.nextId
  | .ack k io save => ∀ c ∈ s.connections k, ∀ l ∈ (s.members c.lead).leading,
      Applies m (s.members c.lead) io ∧ ∀ d ∈ l.lead.uncommit, save d.zxId = true
  | .recv p io => ∀ k ∈ (s.members p).following, ∀ c ∈ s.connections k, ∀ frame ∈ c.down.head?,
      Succeeds m (s.members p) io c.reader frame
  | .flush i => (s.members i).data.uncommit = []
  | _ => True

instance (m : Machine σ τ) (x : Member n σ) (io : ReadIo τ) (reader : ReaderState) :
    (frame : DownFrame) → Decidable (Succeeds m x io reader frame)
  | .propose _ => inferInstanceAs (Decidable (reader = .syncing → io.save = true))
  | .commit _ => inferInstanceAs (Decidable (Applies m x io))
  | .diff | .trunc _ | .snap _ _ _ | .newLeader | .updated => inferInstanceAs (Decidable True)

instance (m : Machine σ τ) (s : Cluster n σ) : (a : ClusterAct n τ) → Decidable (s.Orderly m a)
  | .lead _ _ => inferInstanceAs (Decidable (_ ∧ _))
  | .sync k => inferInstanceAs (Decidable (∀ c ∈ s.connections k, _ → _ ∧ _))
  | .startForwarding k => inferInstanceAs (Decidable (∀ c ∈ s.connections k, _ = _))
  | .propose i _ _ _ _ =>
      inferInstanceAs (Decidable (∀ l ∈ (s.members i).leading, IsDraftId l.lead.nextId))
  | .ack k io save =>
      inferInstanceAs (Decidable (∀ c ∈ s.connections k, ∀ l ∈ (s.members c.lead).leading,
        Applies m (s.members c.lead) io ∧ ∀ d ∈ l.lead.uncommit, save d.zxId = true))
  | .recv p io =>
      inferInstanceAs (Decidable (∀ k ∈ (s.members p).following, ∀ c ∈ s.connections k,
        ∀ frame ∈ c.down.head?, Succeeds m (s.members p) io c.reader frame))
  | .flush i => inferInstanceAs (Decidable ((s.members i).data.uncommit = []))
  | .follow _ _ | .recvAck _ | .update _ | .drop _ | .leave _ | .stepDown _ =>
      inferInstanceAs (Decidable True)

variable {m : Machine σ τ} {s s' : Cluster n σ} {common : List Bill}

theorem Inv.appliedAgree (h : s.Inv common) : s.AppliedAgree := by
  intro i j
  refine ⟨h.agreed.comparable i j, fun b hb b' hb' heq => ?_⟩
  have hmem : b ∈ common := (h.agreed.applied_le i).subset hb
  have hmem' : b' ∈ common := (h.agreed.applied_le j).subset hb'
  have hnodup : (common.map Bill.zxId).Nodup :=
    List.pairwise_map.mpr (h.ascending.imp Int64.ne_of_lt)
  exact List.inj_on_of_nodup_map hnodup hmem hmem' heq

theorem inv_fresh [Nonempty (Fin n)] (h : s.Fresh) : s.Inv [] := by
  obtain ⟨start, snaperCount, -, rfl⟩ := h
  exact {
    agreed := ReplicatedLog.agreed_nil
    ascending := .nil
    positive := nofun
    sound := fun _ => ⟨rfl, .inl rfl⟩
    fresh := fun _ _ => rfl
    sent := nofun
    queues := nofun
    tables := nofun
    readers := nofun
    handlers := nofun
    following := nofun }

/-! ## Steps -/

theorem Inv.lead (h : s.Inv common) {i : Fin n} {peerEpoch : Int32} (hidle : s.Idle i)
    (huncommit : (s.members i).data.uncommit = [])
    (hz : (s.members i).data.zxId < zxIdOf peerEpoch 1) :
    (s.setLeading i (some { lead := { id := i, peerEpoch := peerEpoch }, newLeader := {i} })).Inv
      common := by
  have hnext : ∀ k, IsDraftId k → 1 ≤ k → (s.members i).data.zxId < zxIdOf peerEpoch k := by
    intro k hk hle
    rcases Int64.lt_or_eq_of_le hle with hlt | rfl
    · exact Int64.lt_trans hz (zxIdOf_lt_zxIdOf peerEpoch (by decide) hk hlt)
    · exact hz
  have hdrafts : DraftsSound (s.members i).data.zxId { id := i, peerEpoch := peerEpoch } :=
    ⟨fun d hd => absurd hd List.not_mem_nil, .nil, fun d hd => absurd hd List.not_mem_nil, hnext⟩
  refine h.setLeading (Option.isNone_iff_eq_none.mp hidle.2) _ (.of_nil hdrafts rfl huncommit) ?_
  intro p k hk
  cases hk

theorem read_closed (x : Member n σ) (io : ReadIo τ) (frame : DownFrame) :
    x.read m io .closed frame = (x, .closed, []) := by
  cases frame <;> rfl

theorem Inv.taken (h : s.Inv common) {p : Fin n} {k : Nat} {c : Connection n}
    {frame : DownFrame} {down : List DownFrame} (hfollowing : (s.members p).following = some k)
    (hc : s.connections k = some c) (hdown : c.down = frame :: down) {io : ReadIo τ}
    (hsucceeds : Succeeds m (s.members p) io c.reader frame) {x : Member n σ}
    {reader : ReaderState} {up : List UpFrame}
    (hread : (s.members p).read m io c.reader frame = (x, reader, up)) :
    TakenSound (s.members p) x c down reader up := by
  obtain ⟨-, c', hc', rfl⟩ := h.following p k hfollowing
  cases hc.symm.trans hc'
  rcases eq_or_ne c.reader .closed with hclosed | hreads
  · rw [hclosed, read_closed] at hread
    cases hread
    exact .closed (h.sound _) c down
  · refine (h.readers k c hc hreads).taken hdown hreads io ?_ ?_ (h.sound _) hread
    · rintro bill hsyncing rfl
      exact hsucceeds hsyncing
    · rintro zxId rfl
      exact hsucceeds

/-- The invariant is kept by every orderly step. -/
theorem Inv.step (h : s.Inv common) {a : ClusterAct n τ} (hok : s.Orderly m a)
    (hs : s.step m a = some s') : ∃ common', s'.Inv common' := by
  cases a with
  | lead i peerEpoch =>
      simp only [Cluster.step] at hs
      split at hs
      next hidle =>
        cases hs
        exact ⟨common, h.lead hidle hok.1 hok.2⟩
      next => cases hs
  | follow p i =>
      simp only [Cluster.step] at hs
      split at hs
      next => cases hs
      next l hl =>
        split at hs
        next hidle =>
          cases hs
          exact ⟨common, h.connect hl hidle⟩
        next => cases hs
  | sync k =>
      simp only [Cluster.step] at hs
      split at hs
      next => cases hs
      next c hc =>
        split at hs
        next hstate =>
          cases hs
          exact ⟨common, h.sync m hc hstate (hok c hc)⟩
        next => cases hs
  | startForwarding k =>
      simp only [Cluster.step] at hs
      split at hs
      next => cases hs
      next c hc =>
        split at hs
        next => cases hs
        next l hl =>
          split at hs
          next hstate =>
            cases hs
            exact ⟨common, h.startForwarding hc hl (by rw [hstate]; rfl) (hok c hc)⟩
          next => cases hs
  | recvAck k =>
      simp only [Cluster.step] at hs
      split at hs
      next => cases hs
      next c hc =>
        split at hs
        next l up hl hup =>
          split at hs
          next hstate =>
            cases hs
            have htaken := h.goes_on hc (by rw [hstate]; rfl) .waiting rfl up fun f hf => by
              rw [hup]
              exact .tail _ hf
            exact ⟨common, htaken.keepDrafts hl _ rfl fun _ _ hk => hk⟩
          next => cases hs
        next => cases hs
  | update k =>
      simp only [Cluster.step] at hs
      split at hs
      next => cases hs
      next c hc =>
        split at hs
        next => cases hs
        next l hl =>
          split at hs
          next hstate =>
            cases hs
            exact ⟨common, h.sends hc (by rw [hstate.1]; rfl) .processing rfl .updated rfl rfl⟩
          next => cases hs
  | propose i id requestId data save =>
      simp only [Cluster.step] at hs
      split at hs
      next => cases hs
      next l hl =>
        split at hs
        next =>
          cases hs
          exact ⟨common, h.propose hl (hok l hl) id requestId data save⟩
        next => cases hs
  | ack k io save =>
      simp only [Cluster.step] at hs
      split at hs
      next => cases hs
      next c hc =>
        split at hs
        next l frame up hl hup =>
          split at hs
          next hstate =>
            have hcopied : c.handler.copied = true := by rw [hstate]; rfl
            have htaken := h.goes_on hc hcopied c.handler hcopied up fun f hf => by
              rw [hup]
              exact .tail _ hf
            cases frame with
            | ack =>
                cases hs
                exact ⟨common, htaken⟩
            | ackPropose zxId =>
                cases hs
                obtain ⟨happlies, hsave⟩ := hok c hc l hl
                have hhandler := h.handlers k c hc (by rw [hstate]; nofun)
                have hacked := hhandler.acks zxId (by rw [hup]; exact .head _)
                exact htaken.ackPropose hl hhandler.distinct hacked k happlies hsave
          next => cases hs
        next => cases hs
  | recv p io =>
      simp only [Cluster.step] at hs
      split at hs
      next => cases hs
      next k hfollowing =>
        split at hs
        next => cases hs
        next c hc =>
          split at hs
          next => cases hs
          next frame down hdown =>
            cases hs
            have hsucceeds := hok k hfollowing c hc frame (by rw [hdown]; rfl)
            exact ⟨common, h.recv hfollowing hc hdown (h.taken hfollowing hc hdown hsucceeds rfl)⟩
  | drop k =>
      simp only [Cluster.step] at hs
      split at hs
      next => cases hs
      next c hc =>
        split at hs
        next => cases hs
        next =>
          cases hs
          exact ⟨common, h.closeHandler k⟩
  | leave p =>
      simp only [Cluster.step] at hs
      split at hs
      next => cases hs
      next k hfollowing =>
        split at hs
        next => cases hs
        next c hc =>
          cases hs
          exact ⟨common, h.leave hfollowing hc⟩
  | flush i =>
      simp only [Cluster.step] at hs
      split at hs
      next => cases hs
      next l hl =>
        split at hs
        next =>
          rw [flush_nil hok] at hs
          cases hs
          exact ⟨common, h.keepDrafts hl _ rfl fun _ _ hk => hk⟩
        next => cases hs
  | stepDown i =>
      simp only [Cluster.step] at hs
      split at hs
      next => cases hs
      next l hl =>
        split at hs
        next hended =>
          cases hs
          refine ⟨common, h.stepDown fun k c hc hlead => ?_⟩
          refine hended.2 k ?_ c hc hlead
          by_contra hle
          cases (h.fresh k (Nat.le_of_not_lt hle)).symm.trans hc
        next => cases hs

end Cluster

/-! ## Runs -/

/-- All calls succeed. -/
def ReadIo.good : ReadIo Unit := { nextCount := 100000 }

/-- Server 2 leads, and the others join. -/
def allJoin [NeZero n] : List (ClusterAct n Unit) :=
  [.lead 2 1,
    .follow 0 2, .sync 0, .startForwarding 0, .recv 0 .good, .recv 0 .good, .recvAck 0, .update 0,
    .recv 0 .good,
    .follow 1 2, .sync 1, .startForwarding 1, .recv 1 .good, .recv 1 .good, .recvAck 1, .update 1,
    .recv 1 .good]

/-- Server 1 leaves behind the first bill, and is back behind the second one. -/
def lagAndReturn [NeZero n] : List (ClusterAct n Unit) :=
  allJoin ++
    [.propose 2 2 1 [65] fun _ => true, .recv 0 .good, .ack 0 .good fun _ => true, .recv 0 .good,
      .recv 1 .good, .recv 1 .good,
    .leave 1, .drop 1,
    .propose 2 2 2 [66] fun _ => true, .recv 0 .good, .ack 0 .good fun _ => true, .recv 0 .good,
    .follow 1 2, .sync 2, .startForwarding 2, .recv 1 .good, .recv 1 .good, .recv 1 .good,
      .recvAck 2, .update 2, .recv 1 .good,
    .propose 2 2 3 [67] fun _ => true, .recv 0 .good, .ack 0 .good fun _ => true, .recv 0 .good,
      .recv 1 .good, .recv 1 .good]

/-- Three new servers. -/
def newServers : Cluster n Bytes :=
  { members := fun _ => { data := { stateData := [], snaperCount := 100000 } } }

theorem newServers_fresh : (newServers : Cluster n Bytes).Fresh :=
  ⟨[], fun _ => 100000, fun _ => le_rfl, rfl⟩

/-- Server 2 leads and commits a bill with server 0, which leads behind it and sends server 1
a snapshot. -/
def changeLeader [NeZero n] : List (ClusterAct n Unit) :=
  [.lead 2 1,
    .follow 0 2, .sync 0, .startForwarding 0, .recv 0 .good, .recv 0 .good, .recvAck 0, .update 0,
    .recv 0 .good,
    .propose 2 2 1 [65] fun _ => true, .recv 0 .good, .ack 0 .good fun _ => true, .recv 0 .good,
    .flush 2, .leave 0, .drop 0, .stepDown 2,
    .lead 0 2,
    .follow 1 0, .sync 1, .startForwarding 1, .recv 1 .good, .recv 1 .good, .recvAck 1, .update 1,
    .recv 1 .good,
    .propose 0 0 1 [66] fun _ => true, .recv 1 .good, .ack 1 .good fun _ => true]

end Paxos
