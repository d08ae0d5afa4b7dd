import Zookeeper.Paxos.Durability
import Zookeeper.Paxos.Rollback

/-!
# The state of a server

The state of a server is what the bills it has applied make of the state that all have started
with (`states_replayed`): whether it got a bill as the leader, as a follower, or with a snapshot
of another server.  So servers that have applied the same bills have the same state.

The transaction of a call has to be the one that is registered for its bill, and `BuildFromData`
has to undo `GetData`.
-/

namespace Paxos

open Transition

variable {n : Nat} {σ τ : Type} {m : Machine σ τ} {start : σ}

/-! ## One server -/

namespace Member

variable {x : Member n σ}

/-- The state is made of the bills applied. -/
def Replayed (m : Machine σ τ) (start : σ) (x : Member n σ) : Prop :=
  m.replay start x.applied = some x.data.stateData

theorem Replayed.same (h : x.Replayed m start) (x' : Member n σ) (happlied : x'.applied = x.applied)
    (hstate : x'.data.stateData = x.data.stateData) : x'.Replayed m start := by
  rw [Replayed, happlied, hstate]
  exact h

theorem Replayed.propose (h : x.Replayed m start) (bill : Bill) (saved : Bool) :
    (x.propose bill saved).1.Replayed m start := by
  refine h.same _ rfl ?_
  show (x.data.propose bill.zxId bill.data saved).1.stateData = _
  rw [DataSet.propose]
  split <;> rfl

/-- The bills that one server has applied more than another make its state of the other's. -/
def Brings (m : Machine σ τ) (x y : Member n σ) : Prop :=
  ∃ rest, y.applied = x.applied ++ rest ∧ m.replay x.data.stateData rest = some y.data.stateData

theorem Replayed.brings {y : Member n σ} (hx : x.Replayed m start) (hy : y.Replayed m start)
    (hle : x.applied <+: y.applied) : x.Brings m y := by
  obtain ⟨rest, heq⟩ := hle
  refine ⟨rest, heq.symm, ?_⟩
  rw [Replayed, Machine.replay, ← heq, List.foldlM_append, Option.bind_eq_bind] at hy
  rw [Replayed, Machine.replay] at hx
  rwa [hx] at hy

/-- Bills that are applied with their own transactions. -/
theorem Replayed.applies (h : x.Replayed m start) (bills : List (Bill × Option τ)) {d : DataSet σ}
    (hbills : ∀ b ∈ bills, m.Registered b) (hd : DataSet.Replays m x.data bills d) :
    m.replay start (x.applied ++ bills.map Prod.fst) = some d.stateData := by
  have hstate : m.replay x.data.stateData (bills.map Prod.fst) = some d.stateData := by
    rw [← Machine.applyAll_registered hbills]
    exact hd.state
  rw [Machine.replay, List.foldlM_append]
  change m.replay start x.applied = some x.data.stateData at h
  rw [Machine.replay] at h
  rw [h]
  exact hstate

theorem Replayed.commit (h : x.Replayed m start) (zxId : Int64) (transaction : Option τ)
    (hregistered : ∀ bill ∈ x.data.uncommit.head?, m.Registered (bill, transaction))
    (saved : Bool) (nextCount : Nat) :
    (x.commit m zxId transaction saved nextCount).1.Replayed m start := by
  have happlies := h.applies ((x.data.commits m zxId transaction).toList.map (·, transaction))
    ?_ (DataSet.replays_commit zxId transaction saved nextCount)
  · rw [List.map_map, show (Prod.fst ∘ fun bill : Bill => (bill, transaction)) = id from rfl,
      List.map_id] at happlies
    exact happlies
  · intro b hb
    obtain ⟨bill, hbill, rfl⟩ := List.mem_map.mp hb
    rw [Option.mem_toList, DataSet.commits, Option.filter_eq_some_iff] at hbill
    exact hregistered bill hbill.1

theorem Replayed.flush (h : x.Replayed m start) : (x.flush m).1.Replayed m start := by
  have happlies := h.applies
    ((DataSet.flushes m x.data.uncommit x.data.stateData).map (·, none)) ?_
    (DataSet.replays_flushLoop x.data.uncommit x.data)
  · rw [List.map_map, show (Prod.fst ∘ fun bill : Bill => (bill, (none : Option τ))) = id from rfl,
      List.map_id] at happlies
    exact happlies
  · intro b hb
    obtain ⟨bill, -, rfl⟩ := List.mem_map.mp hb
    exact fun _ _ => .inl rfl

theorem Replayed.readPropose (h : x.Replayed m start) (io : ReadIo τ) (reader : ReaderState)
    (bill : Bill) : (x.read m io reader (.propose bill)).1.Replayed m start := by
  have hpropose := h.propose bill io.save
  cases reader with
  | opening | closed => exact h
  | syncing => exact hpropose
  | active =>
      unfold read
      dsimp only
      split
      next => exact hpropose
      next => exact hpropose

/-- What a reader makes of a frame.  A snapshot is the state of what its sender had applied. -/
theorem Replayed.read (hbuild : ∀ s s', m.buildFromData s' (m.getData s) = s)
    (h : x.Replayed m start) {io : ReadIo τ} {reader : ReaderState} {frame : DownFrame}
    (hregistered : ∀ bill ∈ x.data.uncommit.head?, m.Registered (bill, io.transaction))
    (htrunc : ∀ zxId, frame ≠ .trunc zxId)
    (hsnap : ∀ zxId data applied, frame = .snap zxId data applied →
      ∃ s, m.replay start applied = some s ∧ data = m.getData s) :
    (x.read m io reader frame).1.Replayed m start := by
  have hcommit (zxId : Int64) := h.commit zxId io.transaction hregistered io.snapSaved io.nextCount
  have hcommitNone (zxId : Int64) :=
    h.commit (m := m) zxId none (fun _ _ _ _ => .inl rfl) io.snapSaved io.nextCount
  cases frame with
  | trunc zxId => exact absurd rfl (htrunc zxId)
  | snap zxId data applied =>
      cases reader with
      | opening =>
          obtain ⟨s, happlied, rfl⟩ := hsnap zxId data applied rfl
          show m.replay start applied = some (m.buildFromData x.data.stateData (m.getData s))
          rw [hbuild, happlied]
      | syncing | active | closed => exact h
  | diff => cases reader <;> exact h
  | newLeader => cases reader <;> exact h
  | updated => cases reader <;> exact h
  | propose bill => exact h.readPropose io reader bill
  | commit zxId =>
      cases reader with
      | opening | closed => exact h
      | syncing => exact hcommitNone zxId
      | active => exact hcommit zxId

end Member

/-! ## Snapshots -/

/-- The loop of `SyncFollower` sends no snapshot but its own. -/
theorem snap_mem_diffFrames {snap : DownFrame} {last zxId : Int64} {data : Bytes}
    {applied : List Bill} (first : Bool) (bills : List Bill) (prev : Int64)
    (h : .snap zxId data applied ∈ diffFrames snap last first prev bills) :
    snap = .snap zxId data applied := by
  induction bills generalizing prev with
  | nil => cases h
  | cons bill bills ih =>
      rw [diffFrames] at h
      split at h
      next => exact ih _ h
      next =>
        split at h
        next =>
          split at h
          next => exact ih _ (by simpa using h)
          next =>
            split at h
            next => exact (List.mem_singleton.mp h).symm
            next => exact ih _ (by simpa using h)
        next =>
          exact ih _ (by simpa using h)

/-- A snapshot is the state of its sender. -/
theorem snap_mem_syncFrames {d : DataSet σ} {sender applied : List Bill} {last zxId : Int64}
    {data : Bytes} (h : .snap zxId data applied ∈ syncFrames m d sender last) :
    applied = sender ∧ data = m.getData d.stateData := by
  have hopening : .snap zxId data applied ∈ openingFrames m d sender last := by
    rcases List.mem_append.mp h with hopening | hbill
    · exact hopening
    · obtain ⟨bill, -, hbill⟩ := List.mem_map.mp hbill
      cases hbill
  have hsnap : DownFrame.snap d.zxId (m.getData d.stateData) sender = .snap zxId data applied := by
    rw [openingFrames] at hopening
    split at hopening
    next => cases List.mem_singleton.mp hopening
    next =>
      split at hopening
      next => cases List.mem_singleton.mp hopening
      next =>
        split at hopening
        next => exact snap_mem_diffFrames _ _ _ hopening
        next => exact (List.mem_singleton.mp hopening).symm
  cases hsnap
  exact ⟨rfl, rfl⟩

/-! ## The cluster -/

namespace Cluster

open Member

variable {s s' : Cluster n σ} {common : List Bill}

/-- The states are made of the bills applied, and so are the snapshots on their way. -/
structure Made (m : Machine σ τ) (start : σ) (s : Cluster n σ) : Prop where
  members : ∀ i, (s.members i).Replayed m start
  snaps : ∀ k c, s.connections k = some c → ∀ zxId data applied, .snap zxId data applied ∈ c.down →
    ∃ state, m.replay start applied = some state ∧ data = m.getData state

namespace Made

theorem setMember (h : s.Made m start) {i : Fin n} {x : Member n σ} (hx : x.Replayed m start) :
    (s.setMember i x).Made m start := by
  refine ⟨fun j => ?_, h.snaps⟩
  rcases eq_or_ne j i with rfl | hne
  · rwa [setMember_self]
  · show (Function.update s.members i x j).Replayed m start
    rw [Function.update_of_ne hne]
    exact h.members j

theorem setLeading (h : s.Made m start) (i : Fin n) (l : Option (Leadership n)) :
    (s.setLeading i l).Made m start :=
  h.setMember ((h.members i).same _ rfl rfl)

theorem setConnection (h : s.Made m start) (k : Nat) (c : Connection n)
    (hsnap : ∀ zxId data applied, .snap zxId data applied ∈ c.down →
      ∃ state, m.replay start applied = some state ∧ data = m.getData state) :
    (s.setConnection k c).Made m start := by
  refine ⟨h.members, fun k' c' hc' => ?_⟩
  change Function.update s.connections k (some c) k' = some c' at hc'
  rcases eq_or_ne k' k with rfl | hne
  · rw [Function.update_self] at hc'
    cases hc'
    exact hsnap
  · rw [Function.update_of_ne hne] at hc'
    exact h.snaps k' c' hc'

/-- A connection with the frames it had, and others that are no snapshots. -/
theorem push (h : s.Made m start) {k : Nat} {c : Connection n} (hc : s.connections k = some c)
    (c' : Connection n) (frames : List DownFrame) (hdown : ∀ f ∈ c'.down, f ∈ c.down ∨ f ∈ frames)
    (hframes : ∀ zxId data applied, .snap zxId data applied ∉ frames) :
    (s.setConnection k c').Made m start := by
  refine h.setConnection k c' fun zxId data applied hsnap => ?_
  rcases hdown _ hsnap with hold | hnew
  · exact h.snaps k c hc zxId data applied hold
  · exact absurd hnew (hframes zxId data applied)

theorem broadcast (h : s.Made m start) (i : Fin n) (l : Leadership n) (frame : DownFrame)
    (hframe : frame.isOpening = false) : (s.broadcast i l frame).Made m start := by
  refine ⟨h.members, fun k c' hc' zxId data applied hsnap => ?_⟩
  obtain ⟨c, hc, rfl⟩ := Option.map_eq_some_iff.mp hc'
  split at hsnap
  next =>
    rcases List.mem_append.mp hsnap with hold | hnew
    · exact h.snaps k c hc zxId data applied hold
    · rw [← List.mem_singleton.mp hnew] at hframe
      cases hframe
  next => exact h.snaps k c hc zxId data applied hsnap

theorem connect (h : s.Made m start) (p i : Fin n) (l : Leadership n) :
    (s.connect p i l).Made m start := by
  rw [Cluster.connect]
  dsimp only
  apply setLeading
  apply setMember
  · refine ⟨h.members, ?_⟩
    exact (h.setConnection s.count _ fun _ _ _ hsnap => absurd hsnap List.not_mem_nil).snaps
  · exact (h.members p).same _ rfl rfl

theorem closeHandler (h : s.Made m start) (k : Nat) : (s.closeHandler k).Made m start := by
  rw [Cluster.closeHandler]
  split
  next => exact h
  next c hc =>
    have hclosed : (s.setConnection k { c with handler := .closed }).Made m start :=
      h.push hc _ [] (fun f hf => .inl hf) fun _ _ _ => List.not_mem_nil
    dsimp only
    split
    next => exact hclosed
    next => exact hclosed.setLeading _ _

theorem launch (h : s.Made m start) (i : Fin n) (l : Leadership n) (launch : Launch n) :
    (s.launch i l launch).Made m start := by
  rw [Cluster.launch]
  split
  next => exact h
  next =>
    dsimp only
    split
    next => exact h.setMember ((h.members i).propose _ _)
    next => exact (h.setMember ((h.members i).propose _ _)).broadcast _ _ _ rfl

theorem propose (h : s.Made m start) (i : Fin n) (l : Leadership n) (id : Fin n)
    (requestId : Int64) (data : Bytes) (save : Int64 → Bool) :
    (s.propose i l id requestId data save).Made m start := by
  rw [Cluster.propose]
  dsimp only
  split
  next => exact h.setLeading _ _
  next => exact (h.setLeading _ _).launch _ _ _

theorem committed (h : s.Made m start) (i : Fin n) (l : Leadership n) (k : Nat) (zxId : Int64)
    (save : Int64 → Bool) : (s.committed i l k zxId save).Made m start := by
  rw [Cluster.committed]
  dsimp only
  have hsend := (h.broadcast i l (.commit zxId) rfl).setLeading i
    (some { l with lead := (l.lead.afterCommit zxId save).1 })
  split
  next => exact hsend
  next => exact (hsend.launch _ _ _).closeHandler k

theorem ackPropose (h : s.Made m start) (i : Fin n) (l : Leadership n) (k : Nat) (id : Fin n)
    (zxId : Int64) {io : ReadIo τ} (save : Int64 → Bool)
    (hregistered : ∀ bill ∈ (s.members i).data.uncommit.head?,
      m.Registered (bill, io.transaction)) :
    (s.ackPropose m i l k id zxId io save).Made m start := by
  rw [Cluster.ackPropose]
  split
  next => exact h.setLeading _ _
  next lead d hvote =>
    dsimp only
    have hleading := h.setLeading i (some { l with lead := lead })
    have hsame : ((s.setLeading i (some { l with lead := lead })).members i).data =
        (s.members i).data := by
      rw [Cluster.setLeading, setMember_self]
    generalize s.setLeading i (some { l with lead := lead }) = s₁ at hleading hsame
    have hcommit := (hleading.members i).commit zxId
      (if d.id = i then io.transaction else none) (by
        rw [hsame]
        intro bill hbill
        split
        next => exact hregistered bill hbill
        next => exact fun _ _ => .inl rfl) io.snapSaved io.nextCount
    split
    next x thrown heq =>
      rw [heq] at hcommit
      exact (hleading.setMember hcommit).closeHandler k
    next x heq =>
      rw [heq] at hcommit
      exact (hleading.setMember hcommit).committed _ _ _ _ _

end Made

/-- The transaction of a call is the one that is registered for its bill. -/
def Registers (m : Machine σ τ) (s : Cluster n σ) : ClusterAct n τ → Prop
  | .ack k io _ => ∀ c ∈ s.connections k, ∀ bill ∈ (s.members c.lead).data.uncommit.head?,
      m.Registered (bill, io.transaction)
  | .recv p io => ∀ bill ∈ (s.members p).data.uncommit.head?, m.Registered (bill, io.transaction)
  | _ => True

theorem Made.recv (hbuild : ∀ s s', m.buildFromData s' (m.getData s) = s) (h : s.Made m start)
    (hinv : s.Inv common) {p : Fin n} {io : ReadIo τ} {k : Nat} {c : Connection n}
    {frame : DownFrame} {down : List DownFrame} (hc : s.connections k = some c)
    (hdown : c.down = frame :: down)
    (hregistered : ∀ bill ∈ (s.members p).data.uncommit.head?,
      m.Registered (bill, io.transaction)) :
    ((s.members p).read m io c.reader frame).1.Replayed m start := by
  rcases eq_or_ne c.reader .closed with hclosed | hreads
  · rw [hclosed, read_closed]
    exact h.members p
  · refine (h.members p).read hbuild hregistered ?_ ?_
    · rintro zxId rfl
      have hrun := (hinv.readers k c hc hreads).run
      rw [hdown, DownFrame.run_cons] at hrun
      cases hrun
    · rintro zxId data applied rfl
      exact h.snaps k c hc zxId data applied (by rw [hdown]; exact .head _)

/-- Every step keeps it. -/
theorem Made.step (hbuild : ∀ s s', m.buildFromData s' (m.getData s) = s) (h : s.Made m start)
    (hinv : s.Inv common) {a : ClusterAct n τ} (hregisters : s.Registers m a)
    (hs : s.step m a = some s') : s'.Made m start := by
  cases a with
  | lead i peerEpoch =>
      simp only [Cluster.step] at hs
      split at hs <;> cases hs
      exact h.setLeading _ _
  | follow p i =>
      simp only [Cluster.step] at hs
      split at hs
      next => cases hs
      next l hl =>
        split at hs <;> cases hs
        exact h.connect p i l
  | sync k =>
      simp only [Cluster.step] at hs
      split at hs
      next => cases hs
      next c hc =>
        split at hs <;> cases hs
        refine h.setConnection k _ fun zxId data applied hsnap => ?_
        rcases List.mem_append.mp hsnap with hold | hnew
        · exact h.snaps k c hc zxId data applied hold
        · obtain ⟨rfl, rfl⟩ := snap_mem_syncFrames hnew
          exact ⟨_, h.members c.lead, rfl⟩
  | startForwarding k =>
      simp only [Cluster.step] at hs
      split at hs
      next => cases hs
      next c hc =>
        split at hs
        next => cases hs
        next =>
          split at hs <;> cases hs
          have hsend := h.push hc { c with
              handler := .forwarding, down := c.down ++ [.newLeader] } [.newLeader]
            (fun f hf => List.mem_append.mp hf) (by simp)
          exact hsend.setLeading _ _
  | recvAck k =>
      simp only [Cluster.step] at hs
      split at hs
      next => cases hs
      next c hc =>
        split at hs
        next l up hl hup =>
          split at hs <;> cases hs
          have htaken := h.push hc { c with handler := .waiting, up := up } []
            (fun f hf => .inl hf) fun _ _ _ => List.not_mem_nil
          exact htaken.setLeading _ _
        next => cases hs
  | update k =>
      simp only [Cluster.step] at hs
      split at hs
      next => cases hs
      next c hc =>
        split at hs
        next => cases hs
        next =>
          split at hs <;> cases hs
          exact h.push hc _ [.updated] (fun f hf => List.mem_append.mp hf) (by simp)
  | propose i id requestId data save =>
      simp only [Cluster.step] at hs
      split at hs
      next => cases hs
      next =>
        split at hs <;> cases hs
        exact h.propose _ _ _ _ _ _
  | ack k io save =>
      simp only [Cluster.step] at hs
      split at hs
      next => cases hs
      next c hc =>
        split at hs
        next l frame up hl hup =>
          split at hs
          next =>
            have htaken := h.push hc { c with up := up } [] (fun f hf => .inl hf)
              fun _ _ _ => List.not_mem_nil
            cases frame with
            | ack =>
                cases hs
                exact htaken
            | ackPropose zxId =>
                cases hs
                exact htaken.ackPropose _ _ _ _ _ _ (hregisters c hc)
          next => cases hs
        next => cases hs
  | recv p io =>
      simp only [Cluster.step] at hs
      split at hs
      next => cases hs
      next k hfollowing =>
        split at hs
        next => cases hs
        next c hc =>
          split at hs
          next => cases hs
          next frame down hdown =>
            cases hs
            have hread := h.recv hbuild hinv hc hdown hregisters
            have hmember := h.setMember (i := p) (hread.same {
              ((s.members p).read m io c.reader frame).1 with
              following := if ((s.members p).read m io c.reader frame).2.1 = .closed
                then none else some k } rfl rfl)
            exact hmember.push hc _ [] (fun f hf => .inl (by rw [hdown]; exact .tail _ hf))
              fun _ _ _ => List.not_mem_nil
  | drop k =>
      simp only [Cluster.step] at hs
      split at hs
      next => cases hs
      next =>
        split at hs <;> cases hs
        exact h.closeHandler k
  | leave p =>
      simp only [Cluster.step] at hs
      split at hs
      next => cases hs
      next k hfollowing =>
        split at hs
        next => cases hs
        next c hc =>
          cases hs
          have hmember := h.setMember (i := p)
            ((h.members p).same { s.members p with following := none } rfl rfl)
          exact hmember.push hc _ [] (fun f hf => .inl hf) fun _ _ _ => List.not_mem_nil
  | flush i =>
      simp only [Cluster.step] at hs
      split at hs
      next => cases hs
      next l hl =>
        split at hs <;> cases hs
        exact h.setMember ((h.members i).flush.same _ rfl rfl)
  | stepDown i =>
      simp only [Cluster.step] at hs
      split at hs
      next => cases hs
      next =>
        split at hs <;> cases hs
        exact h.setLeading _ _

/-- New servers have applied nothing. -/
theorem made_fresh (h : s.Fresh) : ∃ start, s.Made m start := by
  obtain ⟨start, snaperCount, -, rfl⟩ := h
  exact ⟨start, fun _ => rfl, fun _ _ hc => by cases hc⟩

/-- Of any two states, one is what the bills that the other server lacks make of the other. -/
def StatesAgree (m : Machine σ τ) (s : Cluster n σ) : Prop :=
  ∀ i j, (s.members i).Brings m (s.members j) ∨ (s.members j).Brings m (s.members i)

theorem Made.statesAgree (h : s.Made m start) (hagree : s.AppliedAgree) : s.StatesAgree m := by
  intro i j
  rcases (hagree i j).1 with hle | hle
  · exact .inl ((h.members i).brings (h.members j) hle)
  · exact .inr ((h.members j).brings (h.members i) hle)

end Cluster

/-- Every transaction of the tape is registered. -/
theorem Machine.registered_tape (b : Bill × Option Unit) : tape.Registered b := by
  intro type htype
  cases b.2 with
  | none => exact .inl rfl
  | some => exact .inr rfl

theorem Cluster.registers_tape (s : Cluster n Bytes) (a : ClusterAct n Unit) :
    s.Registers Machine.tape a := by
  cases a with
  | ack => exact fun _ _ _ _ => Machine.registered_tape _
  | recv => exact fun _ _ => Machine.registered_tape _
  | lead | follow | sync | startForwarding | recvAck | update | propose | drop | leave | flush
  | stepDown => trivial

end Paxos
