import Zookeeper.Paxos.Applied

/-!
# Followers that join and read

What a follower and the handler of its connection do keeps `Cluster.Inv`.  The copy that
`SyncFollower` sends brings the follower to where the leader is if it is empty or a snapshot
(`syncFrames_run`).  It stays that way while the connection is in the forwarding table, and
the follower reads one frame after the other.
-/

namespace Paxos

variable {n : Nat} {σ τ : Type}

/-! ## The copy -/

theorem DownFrame.run_proposes (bills : List Bill) (x : List Bill × List Bill) :
    run (bills.map .propose) x = some (x.1, x.2 ++ bills) := by
  induction bills generalizing x with
  | nil =>
      change some x = _
      rw [List.append_nil]
  | cons bill bills ih =>
      rw [List.map_cons, run_cons]
      change run (bills.map .propose) (x.1, x.2 ++ [bill]) = _
      rw [ih, List.append_assoc, List.singleton_append]

theorem diffFrames_snap {snap : DownFrame} {last : Int64} {bill : Bill}
    (hne : bill.zxId ≠ last) (hepoch : epochFromZxId bill.zxId ≠ epochFromZxId last)
    (bills : List Bill) (prev : Int64)
    (hfind : bills.find? (fun b => decide (last ≤ b.zxId)) = some bill) :
    diffFrames snap last true prev bills = [snap] := by
  induction bills generalizing prev with
  | nil => cases hfind
  | cons b bills ih =>
      rw [diffFrames]
      rw [List.find?_cons] at hfind
      split at hfind
      next hle =>
        cases hfind
        rw [if_neg (Int64.not_lt.mpr (of_decide_eq_true hle)), if_pos rfl, if_neg hne,
          if_pos hepoch]
      next hle =>
        rw [if_pos (Int64.not_le.mp (of_decide_eq_false hle))]
        exact ih b.zxId hfind

/-- The copy is nothing, or a snapshot. -/
theorem openingFrames_cases (m : Machine σ τ) {d : DataSet σ} (applied : List Bill) {last : Int64}
    (hle : d.minZxId ≤ d.zxId) (h : last = d.zxId ∨ SnapsFirst d last) :
    (last = d.zxId ∧ openingFrames m d applied last = [.diff]) ∨
      (last < d.zxId ∧ openingFrames m d applied last =
        [.snap d.zxId (m.getData d.stateData) applied]) := by
  rcases h with heq | hold | ⟨hbehind, bill, hfind, hne, hepoch⟩
  · refine .inl ⟨heq, ?_⟩
    rw [openingFrames]
    exact if_pos heq
  · have hbehind : last < d.zxId := Int64.lt_of_lt_of_le hold hle
    refine .inr ⟨hbehind, ?_⟩
    rw [openingFrames]
    rw [if_neg (Int64.ne_of_lt hbehind), if_neg (Int64.lt_asymm hbehind),
      if_neg (Int64.not_le.mpr hold)]
  · refine .inr ⟨hbehind, ?_⟩
    rw [openingFrames]
    rw [if_neg (Int64.ne_of_lt hbehind), if_neg (Int64.lt_asymm hbehind)]
    split
    next => exact diffFrames_snap hne hepoch _ _ hfind
    next => rfl

namespace Cluster

open Member

/-! ## Frames that are sent -/

section Sends

variable {members : Fin n → Member n σ} {k : Nat} {c : Connection n} {y : List Bill × List Bill}
  {frame : DownFrame} {state : HandlerState} {up : List UpFrame}

/-- The handler goes on. -/
theorem ReaderSound.goes_on (hc : ReaderSound members k c) (hcopied : c.handler.copied = true)
    (hstate : state.copied = true) :
    ReaderSound members k { c with handler := state, up := up } where
  following := hc.following
  run := hc.run
  connected hconnected := by
    cases hconnected
    cases hstate
  lastZxId := hc.lastZxId
  opening hopening _ := hc.opening hopening hcopied
  frames := hc.frames
  head := hc.head
  snap := hc.snap

/-- A frame is sent. -/
theorem ReaderSound.push (hc : ReaderSound members k c) (hcopied : c.handler.copied = true)
    (hframe : frame.isOpening = false) (hact : frame.act c.sent = some y) :
    ReaderSound members k { c with down := c.down ++ [frame], sent := y } where
  following := hc.following
  run := by
    change DownFrame.run (c.down ++ [frame]) _ = _
    rw [DownFrame.run_concat, hc.run]
    exact hact
  connected hconnected := by
    rw [hconnected] at hcopied
    cases hcopied
  lastZxId := hc.lastZxId
  opening _ _ := List.append_ne_nil_of_right_ne_nil _ (List.cons_ne_nil _ _)
  frames := by
    change ∀ f ∈ (c.down ++ [frame]).tail, f.isOpening = false
    cases hdown : c.down with
    | nil => exact fun _ hf => by cases hf
    | cons first down =>
        intro f hf
        rcases List.mem_append.mp hf with hf | hf
        · exact hc.frames f (by rwa [hdown])
        · cases List.mem_singleton.mp hf
          exact hframe
  head := by
    change ∀ f ∈ (c.down ++ [frame]).head?, c.reader = .opening ↔ f.isOpening = true
    cases hdown : c.down with
    | nil =>
        intro f hf
        cases hf
        have hreader : c.reader ≠ .opening := fun hopening => hc.opening hopening hcopied hdown
        rw [hframe]
        exact iff_of_false hreader Bool.false_ne_true
    | cons first down =>
        intro f hf
        exact hc.head f (by rwa [hdown])
  snap zxId data applied hf := by
    rcases List.mem_append.mp hf with hf | hf
    · exact hc.snap zxId data applied hf
    · cases List.mem_singleton.mp hf
      cases hframe

end Sends

/-! ## A connection from its beginning -/

variable {m : Machine σ τ} {s : Cluster n σ} {common : List Bill}

/-- A follower connects. -/
theorem Inv.connect (h : s.Inv common) {p i : Fin n} {l : Leadership n}
    (hl : (s.members i).leading = some l) (hidle : s.Idle p) : (s.connect p i l).Inv common := by
  obtain ⟨hleading, hfollowing⟩ := hidle
  rw [Option.isNone_iff_eq_none] at hleading hfollowing
  have hpi : p ≠ i := by
    rintro rfl
    cases hleading.symm.trans hl
  -- the connection is first added as one that has ended, and opened at the end
  let c : Connection n := {
    lead := i, id := p, lastZxId := (s.members p).data.zxId, sent := (s.members p).copy
    handler := if l.followers p then .closed else .connected }
  let ended : Connection n := { c with handler := .closed, reader := .closed }
  let l' : Leadership n := { l with
    followers := Function.update l.followers p !(l.followers p)
    forwarding := if l.followers p then Function.update l.forwarding p none else l.forwarding }
  let added : Cluster n σ := { s.setConnection s.count ended with count := s.count + 1 }
  let x : Member n σ := { s.members p with following := some s.count }
  have hforwarding : ∀ q k, l'.forwarding q = some k → l.forwarding q = some k := by
    intro q k hk
    change (if l.followers p then Function.update l.forwarding p none else l.forwarding) q = _ at hk
    split at hk
    next =>
      rcases eq_or_ne q p with rfl | hne
      · rw [Function.update_self] at hk
        cases hk
      · rwa [Function.update_of_ne hne] at hk
    next => exact hk
  have hadded : added.Inv common := h.add rfl rfl (h.agreed.applied_le p)
  have hmember : (added.setMember p x).Inv common := by
    refine hadded.setRole ⟨rfl, rfl⟩ ?_ ?_ ?_ ?_ ?_
    · intro l hl
      cases hleading.symm.trans hl
    · intro l hl
      cases hleading.symm.trans hl
    · rintro k c' hc' hopen rfl
      cases hfollowing.symm.trans (hadded.readers k c' hc' hopen).following
    · rintro - k c' hc' rfl
      exact hadded.ended hc' hleading
    · intro k hk
      cases hk
      exact ⟨hleading, ended, setConnection_self .., rfl⟩
  have hi : (added.setMember p x).members i = s.members i := Function.update_of_ne hpi.symm ..
  have hlead : ((added.setMember p x).setLeading i (some l')).Inv common := by
    rw [← hi] at hl
    exact hmember.keepDrafts hl l' rfl hforwarding
  have hp : ((added.setMember p x).setLeading i (some l')).members p = x := by
    refine (Function.update_of_ne hpi ..).trans ?_
    exact Function.update_self ..
  have hopened : (((added.setMember p x).setLeading i (some l')).setConnection s.count c).Inv
      common := by
    refine hlead.setConnection (setConnection_self _ _ ended) c rfl rfl
      (h.agreed.applied_le p) ?_ ?_ ?_
    · intro _
      exact {
        following := by
          rw [show c.id = p from rfl, hp]
        run := by
          rw [show c.id = p from rfl, hp]
          rfl
        connected := fun _ => ⟨rfl, rfl⟩
        lastZxId := fun _ => by rw [show c.id = p from rfl, hp]
        opening := fun _ hcopied => by
          change (if l.followers p then HandlerState.closed else .connected).copied =
            true at hcopied
          split at hcopied <;> cases hcopied
        frames := nofun
        head := nofun
        snap := nofun }
    · intro _
      exact {
        leading := by
          rw [show c.lead = i from rfl, Cluster.setLeading, setMember_self]
          rfl
        distinct := hpi
        sent := fun hcopied => by
          change (if l.followers p then HandlerState.closed else .connected).copied =
            true at hcopied
          split at hcopied <;> cases hcopied
        acks := nofun }
    · intro l'' hl'' hk
      rw [show ended.lead = i from rfl, Cluster.setLeading, setMember_self] at hl''
      cases hl''
      obtain ⟨c', hc', -⟩ := h.tables i l hl p s.count (hforwarding p s.count hk)
      cases (h.fresh s.count le_rfl).symm.trans hc'
  have heq : ((added.setMember p x).setLeading i (some l')).setConnection s.count c =
      s.connect p i l := by
    have hidem := Function.update_idem (some ended) (some c) s.connections (a := s.count)
    exact congrArg (fun connections => { s.connect p i l with connections := connections }) hidem
  rw [← heq]
  exact hopened

/-- What the ids of a server say about its part of the log. -/
theorem Inv.prefix_of_le (h : s.Inv common) {p i : Fin n}
    (hle : (s.members p).data.zxId ≤ (s.members i).data.zxId) :
    (s.members p).applied <+: (s.members i).applied := by
  rw [(h.sound p).zxId, (h.sound i).zxId] at hle
  exact prefix_of_lastOf_le h.ascending h.positive (h.agreed.applied_le p)
    (h.agreed.applied_le i) hle

theorem Inv.minZxId_le (h : s.Inv common) (i : Fin n) :
    (s.members i).data.minZxId ≤ (s.members i).data.zxId := by
  have hle : (s.members i).applied <+: common := h.agreed.applied_le i
  have hpositive : ∀ bill ∈ (s.members i).applied, 0 < bill.zxId :=
    fun bill hbill => h.positive bill (hle.subset hbill)
  rw [(h.sound i).zxId]
  rcases (h.sound i).minZxId with hzero | hmem
  · rw [hzero]
    exact lastOf_nonneg hpositive
  · obtain ⟨bill, hbill, heq⟩ := List.mem_map.mp hmem
    rw [← heq]
    exact le_lastOf (h.ascending.sublist hle.sublist) hpositive hbill

/-- One opening brings the follower to where the leader is. -/
theorem Inv.opening (h : s.Inv common) (m : Machine σ τ) {p i : Fin n}
    (huncommit : (s.members p).data.uncommit = [])
    (hlast : (s.members p).data.zxId = (s.members i).data.zxId ∨
      SnapsFirst (s.members i).data (s.members p).data.zxId) :
    ∃ frame, openingFrames m (s.members i).data (s.members i).applied (s.members p).data.zxId =
        [frame] ∧ frame.isOpening = true ∧
      frame.act (s.members p).copy = some ((s.members i).applied, []) ∧
      ∀ zxId data applied, frame = .snap zxId data applied →
        zxId = lastOf applied ∧ (s.members p).applied <+: applied := by
  have hcopy : (s.members p).copy = ((s.members p).applied, []) := Prod.ext rfl huncommit
  rcases openingFrames_cases m (s.members i).applied (h.minZxId_le i) hlast with
    ⟨heq, hframes⟩ | ⟨hlt, hframes⟩
  · refine ⟨_, hframes, rfl, ?_, nofun⟩
    have hle : (s.members p).applied <+: (s.members i).applied :=
      h.prefix_of_le (Int64.le_of_eq heq)
    have hge : (s.members i).applied <+: (s.members p).applied :=
      h.prefix_of_le (Int64.le_of_eq heq.symm)
    rw [hcopy, hle.eq_of_length_le hge.length_le]
    rfl
  · refine ⟨_, hframes, rfl, ?_, ?_⟩
    · rw [hcopy]
      change (if ([] : List Bill) = [] then some ((s.members i).applied, []) else none) = _
      exact if_pos rfl
    · intro zxId data applied hframe
      cases hframe
      exact ⟨(h.sound i).zxId, h.prefix_of_le (Int64.le_of_lt hlt)⟩

/-- The copy is sent. -/
theorem Inv.sync (h : s.Inv common) (m : Machine σ τ) {k : Nat} {c : Connection n}
    (hc : s.connections k = some c) (hstate : c.handler = .connected)
    (hok : c.reader = .opening → (s.members c.id).data.uncommit = [] ∧
      (c.lastZxId = (s.members c.lead).data.zxId ∨
        SnapsFirst (s.members c.lead).data c.lastZxId)) :
    (s.setConnection k { c with
      handler := .synced
      down := c.down ++ syncFrames m (s.members c.lead).data (s.members c.lead).applied c.lastZxId
      sent := (s.members c.lead).copy }).Inv common := by
  have hopen : c.handler ≠ .closed := by
    rw [hstate]
    nofun
  have hhandler := h.handlers k c hc hopen
  refine h.setConnection hc _ rfl rfl (h.agreed.applied_le c.lead) ?_ ?_ fun _ _ _ => ⟨rfl, rfl⟩
  · intro hreads
    have hreader := h.readers k c hc hreads
    obtain ⟨hdown, hopening⟩ := hreader.connected hstate
    obtain ⟨huncommit, hlast⟩ := hok hopening
    rw [hreader.lastZxId hopening] at hlast
    obtain ⟨frame, hframes, hisOpening, hact, hsnap⟩ := h.opening m huncommit hlast
    have hsync : c.down ++ syncFrames m (s.members c.lead).data (s.members c.lead).applied
        c.lastZxId = frame :: (s.members c.lead).data.uncommit.map .propose := by
      rw [hdown, syncFrames, hreader.lastZxId hopening, hframes]
      rfl
    rw [hsync]
    exact {
      following := hreader.following
      run := by
        change DownFrame.run (frame :: _) _ = _
        rw [DownFrame.run_cons, hact]
        exact DownFrame.run_proposes ..
      connected := fun hconnected => by cases hconnected
      lastZxId := hreader.lastZxId
      opening := fun _ _ => List.cons_ne_nil _ _
      frames := fun f hf => by
        obtain ⟨bill, -, rfl⟩ := List.mem_map.mp hf
        rfl
      head := fun f hf => by
        cases hf
        exact iff_of_true hopening hisOpening
      snap := fun zxId data applied hf => by
        rcases List.mem_cons.mp hf with hf | hf
        · exact hsnap zxId data applied hf.symm
        · obtain ⟨bill, -, hbill⟩ := List.mem_map.mp hf
          cases hbill }
  · intro _
    exact ⟨hhandler.leading, hhandler.distinct, fun _ => List.prefix_rfl, hhandler.acks⟩

/-- A handler that has sent the copy goes on. -/
theorem Inv.goes_on (h : s.Inv common) {k : Nat} {c : Connection n}
    (hc : s.connections k = some c) (hcopied : c.handler.copied = true) (state : HandlerState)
    (hstate : state.copied = true) (up : List UpFrame) (hup : ∀ frame ∈ up, frame ∈ c.up) :
    (s.setConnection k { c with handler := state, up := up }).Inv common := by
  have hopen : c.handler ≠ .closed := by
    intro hclosed
    rw [hclosed] at hcopied
    cases hcopied
  refine h.setConnection hc _ rfl rfl (h.sent k c hc) ?_ ?_ ?_
  · exact fun hreads => (h.readers k c hc hreads).goes_on hcopied hstate
  · intro _
    have hhandler := h.handlers k c hc hopen
    exact ⟨hhandler.leading, hhandler.distinct, fun _ => hhandler.sent hcopied,
      fun zxId hz => hhandler.acks zxId (hup _ hz)⟩
  · intro l hl hk
    obtain ⟨c', hc', -, -, -, hcopy⟩ := h.tables c.lead l hl c.id k hk
    cases hc.symm.trans hc'
    exact ⟨hstate, hcopy⟩

/-- A handler that has sent the copy sends a frame that does nothing. -/
theorem Inv.sends (h : s.Inv common) {k : Nat} {c : Connection n}
    (hc : s.connections k = some c) (hcopied : c.handler.copied = true) (state : HandlerState)
    (hstate : state.copied = true) (frame : DownFrame) (hframe : frame.isOpening = false)
    (hact : frame.act c.sent = some c.sent) :
    (s.setConnection k { c with handler := state, down := c.down ++ [frame] }).Inv common := by
  have hopen : c.handler ≠ .closed := by
    intro hclosed
    rw [hclosed] at hcopied
    cases hcopied
  refine h.setConnection hc _ rfl rfl (h.sent k c hc) ?_ ?_ ?_
  · intro hreads
    have hpush := (h.readers k c hc hreads).push hcopied hframe hact
    exact hpush.goes_on hcopied hstate
  · intro _
    have hhandler := h.handlers k c hc hopen
    exact ⟨hhandler.leading, hhandler.distinct, fun _ => hhandler.sent hcopied, hhandler.acks⟩
  · intro l hl hk
    obtain ⟨c', hc', -, -, -, hcopy⟩ := h.tables c.lead l hl c.id k hk
    cases hc.symm.trans hc'
    exact ⟨hstate, hcopy⟩

theorem setConnection_setConnection (s : Cluster n σ) (k : Nat) (c c' : Connection n) :
    (s.setConnection k c).setConnection k c' = s.setConnection k c' := by
  unfold Cluster.setConnection
  rw [Function.update_idem]

/-- The connection gets into the forwarding table. -/
theorem Inv.startForwarding (h : s.Inv common) {k : Nat} {c : Connection n} {l : Leadership n}
    (hc : s.connections k = some c) (hl : (s.members c.lead).leading = some l)
    (hcopied : c.handler.copied = true) (hsent : c.sent = (s.members c.lead).copy) :
    ((s.setConnection k { c with
      handler := .forwarding, down := c.down ++ [.newLeader] }).setLeading c.lead
        (some { l with forwarding := Function.update l.forwarding c.id (some k) })).Inv common := by
  have hgoes := h.sends hc hcopied .forwarding rfl .newLeader rfl rfl
  refine hgoes.setLeading (hgoes.idle hl) _ (hgoes.queues c.lead l hl) fun p k' hk' => ?_
  rcases eq_or_ne p c.id with rfl | hne
  · rw [show k' = k from Option.some.inj (hk'.symm.trans (Function.update_self ..))]
    exact ⟨_, setConnection_self .., rfl, rfl, rfl, hsent⟩
  · exact hgoes.tables c.lead l hl p k' ((Function.update_of_ne hne ..).symm.trans hk')

/-- A reader ends. -/
theorem Inv.closeReader (h : s.Inv common) {k : Nat} {c : Connection n}
    (hc : s.connections k = some c) :
    (s.setConnection k { c with reader := .closed }).Inv common := by
  refine h.setConnection hc _ rfl rfl (h.sent k c hc) nofun ?_ ?_
  · intro hopen
    have hhandler := h.handlers k c hc hopen
    exact ⟨hhandler.leading, hhandler.distinct, hhandler.sent, hhandler.acks⟩
  · intro l hl hk
    obtain ⟨c', hc', -, -, hcopied, hcopy⟩ := h.tables c.lead l hl c.id k hk
    cases hc.symm.trans hc'
    exact ⟨hcopied, hcopy⟩

/-- A follower reads on its own connection only. -/
theorem Inv.reads (h : s.Inv common) {p : Fin n} {k k' : Nat} {c : Connection n}
    (hfollowing : (s.members p).following = some k) (hc : s.connections k' = some c)
    (hreads : c.reader ≠ .closed) (hid : c.id = p) : k' = k := by
  have hreader := (h.readers k' c hc hreads).following
  rw [hid] at hreader
  exact Option.some.inj (hreader.symm.trans hfollowing)

/-! ## Frames that are read -/

/-- What a follower and its connection are like behind a frame. -/
structure TakenSound (x x' : Member n σ) (c : Connection n) (down : List DownFrame)
    (reader : ReaderState) (up : List UpFrame) : Prop where
  sound : x'.Sound
  leading : x'.leading = x.leading
  log : x.log <+: x'.log
  applied : x'.applied <+: c.sent.1 ∨ x'.applied = x.applied
  opened : reader ≠ .opening
  run : reader ≠ .closed → c.reader ≠ .closed ∧ DownFrame.run down x'.copy = some c.sent
  acks : ∀ zxId, .ackPropose zxId ∈ up → c.reader ≠ .closed ∧
    x'.log <+: c.sent.1 ++ c.sent.2 ∧ x'.log.getLast?.map Bill.zxId = some zxId

/-- The bills a reader has only get more with the next frame. -/
theorem ReaderSound.act_le {members : Fin n → Member n σ} {k : Nat} {c : Connection n}
    {frame : DownFrame} {down : List DownFrame} {y : List Bill × List Bill}
    (hc : ReaderSound members k c) (hdown : c.down = frame :: down)
    (hact : frame.act (members c.id).copy = some y) : (members c.id).log <+: y.1 ++ y.2 := by
  cases hframe : frame.isOpening with
  | false => exact (DownFrame.act_le hframe hact).2
  | true =>
      cases frame with
      | diff =>
          cases hact
          exact List.prefix_rfl
      | trunc zxId => cases hact
      | snap zxId data applied =>
          obtain ⟨huncommit, rfl⟩ := DownFrame.act_snap hact
          obtain ⟨-, hle⟩ := hc.snap zxId data applied (by rw [hdown]; exact .head _)
          rw [Member.log, show (members c.id).data.uncommit = [] from huncommit, List.append_nil,
            List.append_nil]
          exact hle
      | propose | commit | newLeader | updated => cases hframe

theorem ReaderSound.taken {members : Fin n → Member n σ} {k : Nat} {c : Connection n}
    {frame : DownFrame} {down : List DownFrame} (hc : ReaderSound members k c)
    (hdown : c.down = frame :: down) (hreads : c.reader ≠ .closed) (io : ReadIo τ)
    (hsave : ∀ bill, c.reader = .syncing → frame = .propose bill → io.save = true)
    (happlies : ∀ zxId, frame = .commit zxId → (members c.id).Applies m io)
    (hsound : (members c.id).Sound) {x : Member n σ} {reader : ReaderState} {up : List UpFrame}
    (hread : (members c.id).read m io c.reader frame = (x, reader, up)) :
    TakenSound (members c.id) x c down reader up := by
  have hrun := hc.run
  rw [hdown, DownFrame.run_cons, Option.bind_eq_some_iff] at hrun
  obtain ⟨y, hact, hrest⟩ := hrun
  have hframes : ∀ f ∈ down, f.isOpening = false := fun f hf => hc.frames f (by rwa [hdown])
  have hopening : c.reader = .opening ↔ frame.isOpening = true := hc.head frame (by rw [hdown]; rfl)
  obtain ⟨hsent, hsentLog⟩ := DownFrame.run_le hframes hrest
  obtain ⟨x', reader', up', hread', hsound', hleading, hopened, hcopy, hacks⟩ :=
    Member.read_eq io hreads hact hopening hsave happlies
      (fun zxId data applied hframe => (hc.snap zxId data applied (by
        rw [hdown, hframe]
        exact .head _)).1) hsound
  cases hread.symm.trans hread'
  refine ⟨hsound', hleading, ?_, ?_, hopened, ?_, ?_⟩
  · rcases hcopy with hcopy | ⟨-, hcopy⟩
    · change _ <+: x.copy.1 ++ x.copy.2
      rw [hcopy]
      exact hc.act_le hdown hact
    · change _ <+: x.copy.1 ++ x.copy.2
      rw [hcopy]
      exact List.prefix_rfl
  · rcases hcopy with hcopy | ⟨-, hcopy⟩
    · exact .inl (by rwa [← hcopy] at hsent)
    · exact .inr (congrArg Prod.fst hcopy)
  · intro hclosed
    rcases hcopy with hcopy | ⟨hreader, -⟩
    · exact ⟨hreads, by rw [hcopy, hrest]⟩
    · exact absurd hreader hclosed
  · intro zxId hz
    obtain ⟨bill, rfl, rfl, hcopy⟩ := hacks zxId hz
    cases hact
    rw [← hcopy] at hsentLog
    refine ⟨hreads, hsentLog, ?_⟩
    change (x.copy.1 ++ x.copy.2).getLast?.map Bill.zxId = _
    rw [hcopy, ← List.append_assoc, List.getLast?_concat]
    rfl

theorem TakenSound.closed {x : Member n σ} (hx : x.Sound) (c : Connection n)
    (down : List DownFrame) : TakenSound x x c down .closed [] where
  sound := hx
  leading := rfl
  log := List.prefix_rfl
  applied := .inr rfl
  opened := nofun
  run hclosed := absurd rfl hclosed
  acks := nofun

/-- A follower takes a frame. -/
theorem Inv.recv (h : s.Inv common) {p : Fin n} {k : Nat} {c : Connection n} {frame : DownFrame}
    {down : List DownFrame} (hfollowing : (s.members p).following = some k)
    (hc : s.connections k = some c) (hdown : c.down = frame :: down) {x : Member n σ}
    {reader : ReaderState} {up : List UpFrame}
    (htaken : TakenSound (s.members p) x c down reader up) :
    ((s.setMember p { x with following := if reader = .closed then none else some k }).setConnection
      k { c with reader := reader, down := down, up := c.up ++ up }).Inv common := by
  obtain ⟨hleading, c', hc', hid⟩ := h.following p k hfollowing
  cases hc.symm.trans hc'
  let closed : Connection n := { c with reader := .closed }
  let x' : Member n σ := { x with following := if reader = .closed then none else some k }
  have hidle : x'.leading = none := htaken.leading.trans hleading
  have hclosed : (s.setConnection k closed).Inv common := h.closeReader hc
  -- nobody reads for the follower while its data set changes
  have hmember : ((s.setConnection k closed).setMember p x').Inv common := by
    refine hclosed.setMember htaken.log ?_ ⟨htaken.sound.zxId, htaken.sound.minZxId⟩ ?_ ?_ ?_ ?_ ?_
    · change x.applied <+: common
      rcases htaken.applied with hle | heq
      · exact hle.trans (h.sent k c hc)
      · rw [heq]
        exact h.agreed.applied_le p
    · intro l hl
      cases hidle.symm.trans hl
    · intro l hl
      cases hidle.symm.trans hl
    · intro k' c' hc' hreads hid'
      cases hclosed.reads hfollowing hc' hreads hid'
      cases (setConnection_self ..).symm.trans hc'
      exact absurd rfl hreads
    · rintro - k' c' hc' rfl
      exact hclosed.ended hc' hleading
    · intro k' hk'
      refine ⟨hidle, ?_⟩
      change (if reader = .closed then none else some k) = some k' at hk'
      split at hk'
      next => cases hk'
      next =>
        cases hk'
        exact ⟨closed, setConnection_self .., hid⟩
  have hself : ((s.setConnection k closed).setMember p x').members p = x' := setMember_self ..
  have hk : ((s.setConnection k closed).setMember p x').connections k = some closed :=
    setConnection_self ..
  have hnew := hmember.setConnection hk { c with reader := reader, down := down, up := c.up ++ up }
    rfl rfl (h.sent k c hc) ?_ ?_ ?_
  · rwa [show ((s.setConnection k closed).setMember p x').setConnection k
        { c with reader := reader, down := down, up := c.up ++ up } =
      ((s.setMember p x').setConnection k closed).setConnection k
        { c with reader := reader, down := down, up := c.up ++ up } from rfl,
      setConnection_setConnection] at hnew
  · intro hreads
    obtain ⟨hopen, hrun⟩ := htaken.run hreads
    have hreader := h.readers k c hc hopen
    have hframes : ∀ f ∈ down, f.isOpening = false :=
      fun f hf => hreader.frames f (by rwa [hdown])
    exact {
      following := by
        rw [show c.id = p from hid, hself]
        exact if_neg hreads
      run := by
        rw [show c.id = p from hid, hself]
        exact hrun
      connected := fun hconnected => by
        cases hdown.symm.trans (hreader.connected hconnected).1
      lastZxId := fun hopening => absurd hopening htaken.opened
      opening := fun hopening => absurd hopening htaken.opened
      frames := fun f hf => hframes f (List.mem_of_mem_tail hf)
      head := fun f hf => by
        rw [hframes f (List.mem_of_mem_head? hf)]
        exact iff_of_false htaken.opened Bool.false_ne_true
      snap := fun zxId data applied hf => by
        cases hframes _ hf }
  · intro hopen
    have hold := hmember.handlers k closed (setConnection_self ..) hopen
    refine ⟨hold.leading, hold.distinct, hold.sent, fun zxId hz => ?_⟩
    rcases List.mem_append.mp hz with hz | hz
    · exact hold.acks zxId hz
    · obtain ⟨hreads, hlog, hlast⟩ := htaken.acks zxId hz
      have hcopied : c.handler.copied = true := by
        refine HandlerState.copied_of_ne (fun hconnected => ?_) hopen
        cases hdown.symm.trans ((h.readers k c hc hreads).connected hconnected).1
      refine ⟨x.log, hlog.trans (hold.sent hcopied), ?_, hlast⟩
      rw [show c.id = p from hid, hself]
      exact List.prefix_rfl
  · intro l hl hk
    obtain ⟨c', hc', -, -, hcopied, hcopy⟩ := hmember.tables c.lead l hl c.id k hk
    cases (setConnection_self ..).symm.trans hc'
    exact ⟨hcopied, hcopy⟩

/-! ## Its end -/

/-- A handler ends. -/
theorem Inv.closeHandler (h : s.Inv common) (k : Nat) : (s.closeHandler k).Inv common := by
  rw [Cluster.closeHandler]
  cases hc : s.connections k with
  | none => exact h
  | some c =>
      dsimp only
      cases hl : (s.members c.lead).leading with
      | none =>
          rw [show ((s.setConnection k { c with handler := .closed }).members c.lead).leading =
            none from hl]
          refine h.setConnection hc _ rfl rfl (h.sent k c hc) ?_ nofun ?_
          · intro hreads
            have hreader := h.readers k c hc hreads
            exact ⟨hreader.following, hreader.run, nofun, hreader.lastZxId, nofun, hreader.frames,
              hreader.head, hreader.snap⟩
          · intro l hl'
            cases hl.symm.trans hl'
      | some l =>
          rw [show ((s.setConnection k { c with handler := .closed }).members c.lead).leading =
            some l from hl]
          -- the connection leaves the table before it ends
          let l' : Leadership n := { l with
            followers := Function.update l.followers c.id false
            forwarding := Function.update l.forwarding c.id none }
          have hkeep : (s.setLeading c.lead (some l')).Inv common := by
            refine h.keepDrafts hl l' rfl fun p k' hk' => ?_
            rcases eq_or_ne p c.id with rfl | hne
            · cases (Function.update_self ..).symm.trans hk'
            · exact (Function.update_of_ne hne ..).symm.trans hk'
          have hc' : (s.setLeading c.lead (some l')).connections k = some c := hc
          refine hkeep.setConnection hc' { c with handler := .closed } rfl rfl (h.sent k c hc) ?_
            nofun ?_
          · intro hreads
            have hreader := hkeep.readers k c hc hreads
            exact ⟨hreader.following, hreader.run, nofun, hreader.lastZxId, nofun, hreader.frames,
              hreader.head, hreader.snap⟩
          · intro l' hl' hk
            rw [Cluster.setLeading, setMember_self] at hl'
            cases hl'
            cases (Function.update_self ..).symm.trans hk

/-- A follower leaves. -/
theorem Inv.leave (h : s.Inv common) {p : Fin n} {k : Nat} {c : Connection n}
    (hfollowing : (s.members p).following = some k) (hc : s.connections k = some c) :
    ((s.setMember p { s.members p with following := none }).setConnection k
      { c with reader := .closed }).Inv common := by
  have hclosed := h.closeReader hc
  obtain ⟨hleading, -⟩ := h.following p k hfollowing
  refine hclosed.setRole (x := { s.members p with following := none }) ⟨rfl, rfl⟩ ?_ ?_ ?_ ?_ nofun
  · intro l hl
    cases hleading.symm.trans hl
  · intro l hl
    cases hleading.symm.trans hl
  · intro k' c' hc' hreads hid
    cases hclosed.reads hfollowing hc' hreads hid
    cases (setConnection_self ..).symm.trans hc'
    exact absurd rfl hreads
  · rintro - k' c' hc' rfl
    exact hclosed.ended hc' hleading

end Cluster

end Paxos
