import Zookeeper.Ofs.MasterBlock

/-!
# The write lease of a block

A primary is a replica whose lease has not passed.  `Block::Write` looks for
the primary among the replicas whose recorded version is the block's own, so a
primary whose report is late is invisible to it.  `HiddenLease` is that
situation, and `Grantable` says that a new lease would be handed out.

`single_primary` says that a block has at most one primary in every run where no
lease is granted over a hidden one, and `secondGrant` that such a grant does
make a second primary.  `late_report_overlaps` is a run that reaches it.
-/

namespace Ofs.Master

/-! ## The lease at a position -/

/-- The lease time of the replica at a position, zero where there is none. -/
def Block.leaseAt (b : Block) (i : Nat) : Nat := (b.chunkServer[i]?.map Replica.leaseTick).getD 0

theorem Block.leaseAt_of_getElem? {b : Block} {i : Nat} {r : Replica}
    (h : b.chunkServer[i]? = some r) : b.leaseAt i = r.leaseTick := by
  simp [Block.leaseAt, h]

theorem Block.leaseAt_append (b : Block) (c : Block) (servers : List Nat)
    (h : c.chunkServer = b.chunkServer ++ servers.map fun s => { server := s }) (i : Nat) :
    c.leaseAt i = b.leaseAt i := by
  unfold Block.leaseAt
  rw [h, List.getElem?_append]
  split
  · rfl
  · rename_i hge
    rw [List.getElem?_eq_none (l := b.chunkServer) (by omega), List.getElem?_map]
    cases servers[i - b.chunkServer.length]? <;> rfl

@[simp] theorem Block.leaseAt_place (b : Block) (ds : List Nat) (i : Nat) :
    (b.place ds).leaseAt i = b.leaseAt i := by
  rw [Block.place]
  split
  · rename_i h
    exact Block.leaseAt_append b _ ds (by simp [h]) i
  · rfl

@[simp] theorem Block.leaseAt_note (b : Block) (i : Nat) (v : Int64) (sz : Int) (f : Bool)
    (j : Nat) : (b.note i v sz f).1.leaseAt j = b.leaseAt j := by
  have hmod : ∀ c : Block, c.chunkServer =
      b.chunkServer.modify i (fun r => { r with version := v, fault := f }) →
      c.leaseAt j = b.leaseAt j := by
    intro c hc
    unfold Block.leaseAt
    rw [hc, List.getElem?_modify]
    cases b.chunkServer[j]? with
    | none => rfl
    | some r => by_cases hij : i = j <;> simp [hij]
  refine hmod _ ?_
  rw [Block.note]
  dsimp only
  split
  · rfl
  · split <;> split <;> split <;> rfl

@[simp] theorem Block.leaseAt_updateReplica (b : Block) (s : Nat) (v : Int64) (sz : Int)
    (f : Bool) (j : Nat) : (b.updateReplica s v sz f).1.leaseAt j = b.leaseAt j := by
  rw [Block.updateReplica]
  split <;> simp

@[simp] theorem Block.leaseAt_reportReplica (b : Block) (s : Nat) (v : Int64) (sz : Int)
    (f : Bool) (j : Nat) : (b.reportReplica s v sz f).1.leaseAt j = b.leaseAt j := by
  rw [Block.reportReplica]
  split
  · simp
  · rw [Block.leaseAt_note]
    exact Block.leaseAt_append b _ [s] rfl j

@[simp] theorem Block.leaseAt_checkReplica (cfg : Config) (b : Block) (useAble : Nat → Bool)
    (distribute : List Nat → List Nat → List Nat) (select : List Nat → List Nat) (now j : Nat) :
    (b.checkReplica cfg useAble distribute select now).1.leaseAt j = b.leaseAt j := by
  rw [Block.checkReplica]
  split
  · rfl
  split
  · rfl
  split
  · rfl
  dsimp only
  split
  · split
    · rfl
    · exact Block.leaseAt_append b _ _ rfl j
  · split <;> rfl

theorem Block.leaseAt_grant {b : Block} {i : Nat} {r : Replica} (t j : Nat)
    (h : b.chunkServer[i]? = some r) :
    (b.grant i r t).leaseAt j = if j = i then t else b.leaseAt j := by
  have hlt : i < b.chunkServer.length := (List.getElem?_eq_some_iff.mp h).1
  unfold Block.leaseAt Block.grant
  by_cases hji : j = i
  · subst hji
    simp [hlt]
  · simp [List.getElem?_set_ne (Ne.symm hji), hji]

/-! ## What `FindMainReplica` finds -/

section FindMain

variable {b : Block} {useAble : Nat → Bool} {now : Nat}

/-- The replica at position `k` is current and on a usable server. -/
def Block.Candidate (b : Block) (useAble : Nat → Bool) (k : Nat) : Prop :=
  ∃ r, b.chunkServer[k]? = some r ∧ r.version = b.version ∧ useAble r.server = true

/-- No current replica has a lease beyond `now`. -/
def Block.LeasesPassed (b : Block) (now : Nat) : Prop :=
  ∀ r ∈ b.chunkServer, r.version = b.version → r.leaseTick ≤ now

theorem findMainLoop_some {k : Nat} :
    ∀ (rs pre : List Replica) (main lower : Option Nat), b.chunkServer = pre ++ rs →
      (∀ m, main = some m → b.Candidate useAble m ∧ now < b.leaseAt m) →
      (∀ l, lower = some l → b.Candidate useAble l) →
      (main = none → ∀ r ∈ pre, r.version = b.version → r.leaseTick ≤ now) →
      findMainLoop b.version useAble now pre.length rs main lower = some k →
      b.Candidate useAble k ∧ (now < b.leaseAt k ∨ b.LeasesPassed now) := by
  intro rs
  induction rs with
  | nil =>
      intro pre main lower hcs hmain hlower hpre h
      simp only [findMainLoop] at h
      cases main with
      | some m =>
          simp only [Option.some_or, Option.some.injEq] at h
          exact ⟨(hmain k (by rw [h])).1, .inl (hmain k (by rw [h])).2⟩
      | none =>
          refine ⟨hlower k (by simpa using h), .inr ?_⟩
          intro r hr
          exact hpre rfl r (by simpa [hcs] using hr)
  | cons r rs ih =>
      intro pre main lower hcs hmain hlower hpre h
      have hcs' : b.chunkServer = (pre ++ [r]) ++ rs := by simp [hcs]
      have hlen : (pre ++ [r]).length = pre.length + 1 := by simp
      have hr : b.chunkServer[pre.length]? = some r := by simp [hcs]
      simp only [findMainLoop] at h
      split at h
      next hver =>
        rw [← hlen] at h
        refine ih _ _ _ hcs' hmain hlower (fun hm x hx hxv => ?_) h
        rcases List.mem_append.mp hx with hx | hx
        · exact hpre hm x hx hxv
        · rw [List.mem_singleton] at hx
          exact absurd (hx ▸ hxv) hver
      next hver =>
        rw [ne_eq, not_not] at hver
        split at h
        next hsome => exact ⟨(hmain k h).1, .inl (hmain k h).2⟩
        next hnone =>
          have hmn : main = none := by simpa using hnone
          split at h
          next hlease =>
            split at h
            next huse =>
              rw [← hlen] at h
              refine ih _ _ _ hcs' ?_ hlower (fun hc => by cases hc) h
              intro m hm
              cases hm
              exact ⟨⟨r, hr, hver, huse⟩, by rw [Block.leaseAt_of_getElem? hr]; exact hlease⟩
            next => cases h
          next hlease =>
            have hpre' : main = none → ∀ x ∈ pre ++ [r], x.version = b.version →
                x.leaseTick ≤ now := by
              intro hm x hx hxv
              rcases List.mem_append.mp hx with hx | hx
              · exact hpre hm x hx hxv
              · rw [List.mem_singleton] at hx
                exact hx ▸ Nat.le_of_not_lt hlease
            split at h
            next huse =>
              rw [← hlen] at h
              refine ih _ _ _ hcs' hmain ?_ hpre' h
              intro l hl
              cases hl
              exact ⟨r, hr, hver, huse.2⟩
            next =>
              rw [← hlen] at h
              exact ih _ _ _ hcs' hmain hlower hpre' h

/-- The main replica is current and usable, and either holds a lease or no
current replica does. -/
theorem Block.findMainReplica_some {k : Nat} (h : b.findMainReplica useAble now = some k) :
    b.Candidate useAble k ∧ (now < b.leaseAt k ∨ b.LeasesPassed now) :=
  findMainLoop_some b.chunkServer [] none none rfl (fun _ h => by cases h)
    (fun _ h => by cases h) (fun _ _ h => by cases h) h

theorem findMainLoop_isSome (hpassed : b.LeasesPassed now) :
    ∀ (rs : List Replica) (i : Nat) (lower : Option Nat), (∀ r ∈ rs, r ∈ b.chunkServer) →
      (lower.isSome ∨ ∃ r ∈ rs, r.version = b.version ∧ useAble r.server = true) →
      (findMainLoop b.version useAble now i rs none lower).isSome := by
  intro rs
  induction rs with
  | nil =>
      intro i lower _ h
      simpa [findMainLoop] using h
  | cons r rs ih =>
      intro i lower hsub h
      have hsub' : ∀ x ∈ rs, x ∈ b.chunkServer := fun x hx => hsub x (.tail _ hx)
      simp only [findMainLoop]
      split
      next hver =>
        refine ih _ _ hsub' (h.imp id ?_)
        rintro ⟨x, hx, hxv, hxu⟩
        rcases List.mem_cons.mp hx with rfl | hx
        · exact absurd hxv hver
        · exact ⟨x, hx, hxv, hxu⟩
      next hver =>
        rw [ne_eq, not_not] at hver
        rw [if_neg (by simp), if_neg (Nat.not_lt.mpr (hpassed r (hsub r (.head _)) hver))]
        split
        next => exact ih _ _ hsub' (.inl rfl)
        next hno =>
          refine ih _ _ hsub' ?_
          cases lower with
          | some l => exact .inl rfl
          | none =>
              rcases h with h | ⟨x, hx, hxv, hxu⟩
              · cases h
              · rcases List.mem_cons.mp hx with rfl | hx
                · exact absurd ⟨rfl, hxu⟩ hno
                · exact .inr ⟨x, hx, hxv, hxu⟩

end FindMain

/-! ## What a `Write` does to the leases -/

section Write

variable {cfg : Config} {b : Block} {useAble : Nat → Bool} {ds : List Nat} {now : Nat}

/-- A lease that has not passed belongs to a replica that lags. -/
def Block.HiddenLease (b : Block) (now : Nat) : Prop :=
  ∃ r ∈ b.chunkServer, r.version ≠ b.version ∧ now < r.leaseTick

/-- Some current replica is usable and no current replica holds a lease. -/
def Block.Grantable (b : Block) (useAble : Nat → Bool) (now : Nat) : Prop :=
  (∃ r ∈ b.chunkServer, r.version = b.version ∧ useAble r.server = true) ∧ b.LeasesPassed now

/-- `Write` leaves the leases alone, or gives one current replica a new lease. -/
theorem Block.write_cases (cfg : Config) (b : Block) (useAble : Nat → Bool) (ds : List Nat)
    (now : Nat) :
    (∀ j, (b.write cfg useAble ds now).1.leaseAt j = b.leaseAt j) ∨
    ∃ k, (b.place ds).Candidate useAble k ∧ (b.place ds).LeasesPassed now ∧
      ∀ j, (b.write cfg useAble ds now).1.leaseAt j =
        if j = k then now + cfg.writeLease else b.leaseAt j := by
  rw [Block.write]
  dsimp only
  split
  next => exact .inl fun j => Block.leaseAt_place b ds j
  next k hk =>
    split
    next => exact .inl fun j => Block.leaseAt_place b ds j
    next r hr =>
      split
      next hle =>
        obtain ⟨hcand, hheld⟩ := Block.findMainReplica_some hk
        refine .inr ⟨k, hcand, ?_, fun j => ?_⟩
        · rcases hheld with hlt | hpassed
          · rw [Block.leaseAt_of_getElem? hr] at hlt
            omega
          · exact hpassed
        · rw [Block.leaseAt_grant _ _ hr, Block.leaseAt_place]
      next => exact .inl fun j => Block.leaseAt_place b ds j

/-- A grant happens when no other replica's lease runs beyond `now`. -/
def Block.NoOverlap (cfg : Config) (b : Block) (useAble : Nat → Bool) (ds : List Nat)
    (now : Nat) : Prop :=
  ∀ i, (b.write cfg useAble ds now).1.leaseAt i ≠ b.leaseAt i → ∀ j, j ≠ i → b.leaseAt j ≤ now

/-- A fresh replica list has nothing to hide. -/
theorem Block.leaseAt_le_of_passed {c : Block} (hpassed : c.LeasesPassed now)
    (hvis : ¬ c.HiddenLease now) (j : Nat) : c.leaseAt j ≤ now := by
  rw [Block.leaseAt]
  cases hr : c.chunkServer[j]? with
  | none => simp
  | some r =>
      have hmem : r ∈ c.chunkServer := List.mem_of_getElem? hr
      by_cases hv : r.version = c.version
      · simpa using hpassed r hmem hv
      · by_contra hlt
        exact hvis ⟨r, hmem, hv, by simpa using hlt⟩

theorem Block.place_hiddenLease (h : (b.place ds).HiddenLease now) : b.HiddenLease now := by
  rw [Block.place] at h
  split at h
  · obtain ⟨r, hr, _, hlt⟩ := h
    obtain ⟨s, _, rfl⟩ := List.mem_map.mp hr
    simp at hlt
  · exact h

theorem Block.place_of_hiddenLease (h : b.HiddenLease now) : b.place ds = b := by
  obtain ⟨r, hr, _⟩ := h
  rw [Block.place]
  rw [if_neg (List.ne_nil_of_mem hr)]

/-- With no grantable block behind a hidden lease, a grant overlaps nothing. -/
theorem Block.noOverlap_of_visible (h : b.HiddenLease now → ¬ b.Grantable useAble now) :
    b.NoOverlap cfg useAble ds now := by
  intro i hi j hj
  rcases Block.write_cases cfg b useAble ds now with
    hsame | ⟨k, hcand, hpassed, hk⟩
  · exact absurd (hsame i) hi
  · have hvis : ¬ (b.place ds).HiddenLease now := by
      intro hh
      have hb := Block.place_hiddenLease hh
      rw [Block.place_of_hiddenLease hb] at hcand hpassed
      obtain ⟨r, hr, hv, hu⟩ := hcand
      exact h hb ⟨⟨r, List.mem_of_getElem? hr, hv, hu⟩, hpassed⟩
    rw [← Block.leaseAt_place b ds j]
    exact Block.leaseAt_le_of_passed hpassed hvis j

/-- Conversely, a grantable block behind a hidden lease gets a second primary. -/
theorem Block.secondGrant (hpos : 0 < cfg.writeLease) (hh : b.HiddenLease now)
    (hg : b.Grantable useAble now) :
    ∃ i j, i ≠ j ∧ now < (b.write cfg useAble ds now).1.leaseAt i ∧
      now < (b.write cfg useAble ds now).1.leaseAt j := by
  have hplace : b.place ds = b := Block.place_of_hiddenLease hh
  obtain ⟨k, hk⟩ := Option.isSome_iff_exists.mp
    (findMainLoop_isSome hg.2 b.chunkServer 0 none (fun _ h => h) (.inr hg.1))
  obtain ⟨⟨r, hr, hv, _⟩, _⟩ :=
    Block.findMainReplica_some (show b.findMainReplica useAble now = _ from hk)
  obtain ⟨x, hx, hxv, hxl⟩ := hh
  obtain ⟨j, hj⟩ := List.getElem?_of_mem hx
  have hjk : j ≠ k := by
    rintro rfl
    rw [hr] at hj
    cases hj
    exact hxv hv
  have hle : r.leaseTick ≤ now := hg.2 r (List.mem_of_getElem? hr) hv
  have hwrite : (b.write cfg useAble ds now).1 = b.grant k r (now + cfg.writeLease) := by
    have hmain : b.findMainReplica useAble now = some k := hk
    simp only [Block.write, hplace, hmain, hr, if_pos hle]
  refine ⟨k, j, hjk.symm, ?_, ?_⟩
  · rw [hwrite, Block.leaseAt_grant _ _ hr, if_pos rfl]
    omega
  · rw [hwrite, Block.leaseAt_grant _ _ hr, if_neg hjk, Block.leaseAt_of_getElem? hj]
    exact hxl

end Write

/-! ## Runs -/

/-- A block and the latest time at which a `Write` read the clock. -/
structure LeaseState where
  block : Block
  clock : Nat := 0
deriving DecidableEq

/-- The calls a block receives. -/
inductive LeaseAct where
  | write (now : Nat) (useAble : Nat → Bool) (distributed : List Nat)
  | updateReplica (server : Nat) (version : Int64) (size : Int) (fault : Bool)
  | reportReplica (server : Nat) (version : Int64) (size : Int) (fault : Bool)
  | checkReplica (now : Nat) (useAble : Nat → Bool)
      (distribute : List Nat → List Nat → List Nat) (selectUnnecessary : List Nat → List Nat)

def LeaseState.next (cfg : Config) (s : LeaseState) : LeaseAct → LeaseState
  | .write now useAble ds => ⟨(s.block.write cfg useAble ds now).1, max s.clock now⟩
  | .updateReplica srv v sz f => { s with block := (s.block.updateReplica srv v sz f).1 }
  | .reportReplica srv v sz f => { s with block := (s.block.reportReplica srv v sz f).1 }
  | .checkReplica now useAble distribute select =>
      { s with block := (s.block.checkReplica cfg useAble distribute select now).1 }

/-- A block as the constructor leaves it. -/
def LeaseState.Fresh (s : LeaseState) : Prop := ∃ id, s = { block := { id := id } }

/-- The runs of one block, from its creation. -/
def leaseSystem (cfg : Config) : Transition.System LeaseState LeaseAct :=
  Transition.ofStep LeaseState.Fresh fun s a => some (s.next cfg a)

/-- At most one replica holds a lease that has not passed. -/
def SinglePrimary (s : LeaseState) : Prop :=
  ∀ t, s.clock ≤ t → ∀ i j, t < s.block.leaseAt i → t < s.block.leaseAt j → i = j

/-- A lease granted by this call overlaps no other replica's. -/
def GrantAlone (cfg : Config) (s : LeaseState) : LeaseAct → Prop
  | .write now useAble ds => s.block.NoOverlap cfg useAble ds now
  | _ => True

/-- No lease is granted while a lagging replica holds one. -/
def LeaseVisible (s : LeaseState) : LeaseAct → Prop
  | .write now useAble _ => s.block.HiddenLease now → ¬ s.block.Grantable useAble now
  | _ => True

theorem GrantAlone.of_visible {cfg : Config} {s : LeaseState} :
    ∀ {a : LeaseAct}, LeaseVisible s a → GrantAlone cfg s a
  | .write _ _ _, h => Block.noOverlap_of_visible h
  | .updateReplica _ _ _ _, _ => trivial
  | .reportReplica _ _ _ _, _ => trivial
  | .checkReplica _ _ _ _, _ => trivial

/-- One call keeps the single primary. -/
theorem SinglePrimary.next {cfg : Config} {s : LeaseState} {a : LeaseAct}
    (hs : SinglePrimary s) (ha : LeaseVisible s a) : SinglePrimary (s.next cfg a) := by
  cases a with
  | write now useAble ds =>
      intro t ht i j hi hj
      have hclock : s.clock ≤ t := Nat.le_trans (Nat.le_max_left _ _) ht
      have hnow : now ≤ t := Nat.le_trans (Nat.le_max_right _ _) ht
      have halone : s.block.NoOverlap cfg useAble ds now := Block.noOverlap_of_visible ha
      simp only [LeaseState.next] at hi hj
      -- a position whose lease changed leaves every other at or below `now`
      by_cases hci : (s.block.write cfg useAble ds now).1.leaseAt i = s.block.leaseAt i
      · by_cases hcj : (s.block.write cfg useAble ds now).1.leaseAt j = s.block.leaseAt j
        · exact hs t hclock i j (hci ▸ hi) (hcj ▸ hj)
        · by_contra hne
          have := halone j hcj i hne
          omega
      · by_contra hne
        by_cases hcj : (s.block.write cfg useAble ds now).1.leaseAt j = s.block.leaseAt j
        · have := halone i hci j (Ne.symm hne)
          omega
        · rcases Block.write_cases cfg s.block useAble ds now with hsame | ⟨k, _, _, hk⟩
          · exact hci (hsame i)
          · rw [hk] at hci hcj
            split at hci
            next hik =>
              split at hcj
              next hjk => exact hne (hik.trans hjk.symm)
              next => exact hcj rfl
            next => exact hci rfl
  | updateReplica srv v sz f =>
      intro t ht i j hi hj
      simp only [LeaseState.next, Block.leaseAt_updateReplica] at hi hj
      exact hs t ht i j hi hj
  | reportReplica srv v sz f =>
      intro t ht i j hi hj
      simp only [LeaseState.next, Block.leaseAt_reportReplica] at hi hj
      exact hs t ht i j hi hj
  | checkReplica now useAble distribute select =>
      intro t ht i j hi hj
      simp only [LeaseState.next, Block.leaseAt_checkReplica] at hi hj
      exact hs t ht i j hi hj

/-- In every run that grants no lease behind a lagging holder's back, a block
has at most one primary, and every lease is granted when the others have
passed. -/
theorem single_primary (cfg : Config) {s : LeaseState}
    (h : (leaseSystem cfg).Run LeaseVisible s) :
    SinglePrimary s ∧ ∀ a, LeaseVisible s a → GrantAlone cfg s a := by
  refine ⟨?_, fun a ha => GrantAlone.of_visible ha⟩
  refine Transition.System.Run.invariant ?_ ?_ h
  · rintro s ⟨id, rfl⟩ t _ i j hi _
    simp [Block.leaseAt] at hi
  · intro s a s' hs ha hstep
    cases hstep
    exact hs.next ha

/-- Three replicas, a lease of one minute for the first, and the report of the
second, which got the write from the first, ahead of the first's own. -/
def lateReport : List LeaseAct :=
  [.write 1000 (fun _ => true) [1, 2, 3],
   .updateReplica 2 0x100000000 4096 false,
   .write 1001 (fun _ => true) []]

/-- The configuration of `lateReport`. -/
def oneMinute : Config :=
  { blockCount := 3, writeLease := 60000, recoverLease := 60000, recoverAndWriteInterval := 60000 }

/-- The state `lateReport` reaches: servers 1 and 2 both hold a lease. -/
def twoPrimaries : LeaseState :=
  ⟨{ id := 7, version := 0x100000000, expectVersion := 0x200000000, lease := 61001, size := 4096,
     chunkServer := [{ server := 1, leaseTick := 61000 },
       { server := 2, leaseTick := 61001, version := 0x100000000 }, { server := 3 }] }, 1001⟩

/-- A report that overtakes the primary's own makes a second primary. -/
theorem late_report_overlaps :
    ¬ ∀ s, (leaseSystem oneMinute).Reachable s → SinglePrimary s := by
  intro h
  have hrun : Transition.exec (fun s a => some (LeaseState.next oneMinute s a))
      { block := { id := 7 } } lateReport = some twoPrimaries := by
    decide
  have hsingle := h twoPrimaries (Transition.exec_reachable ⟨7, rfl⟩ hrun)
  exact absurd (hsingle 1001 (Nat.le_refl _) 0 1 (by decide) (by decide)) (by decide)

/-- A lease of server 1 and its report: no second server holds a lease. -/
theorem single_primary_first_lease :
    SinglePrimary (LeaseState.next oneMinute
      (LeaseState.next oneMinute { block := { id := 7 } } (.write 1000 (fun _ => true) [1, 2, 3]))
      (.updateReplica 1 0x100000000 4096 false)) := by
  have hfresh : (leaseSystem oneMinute).Run LeaseVisible { block := { id := 7 } } :=
    .start ⟨7, rfl⟩
  have hwrite := hfresh.next (a := .write 1000 (fun _ => true) [1, 2, 3])
    (by rintro ⟨r, hr, _⟩; cases hr) rfl
  have hreport := hwrite.next (a := .updateReplica 1 0x100000000 4096 false)
    (by trivial) rfl
  exact (single_primary oneMinute hreport).1

end Ofs.Master
