import Zookeeper.Ofs.Lease

/-!
# The version of a lease

A lease is granted together with a version for the writes under it, the next one
above the block's own (`Block::NextVersion`).  The block's version only moves when a
replica reports one.  A lease that passes without a report leaves it where it was, and
the next lease gets the same version (`unreported_lease_repeats`).

`lease_versions` says that versions grow from grant to grant where the version of the
last grant was reported before the next one, and that this is what it takes.
-/

namespace Ofs.Master

/-! ## The next version -/

theorem sshiftRight_and (x : BitVec 64) : x.sshiftRight 32 &&& 0xFFFFFFFF#64 = x >>> 32 := by
  have hmask : 0xFFFFFFFF#64 = (BitVec.allOnes 32).setWidth 64 := by decide
  rw [hmask]
  ext i hi
  simp only [BitVec.getElem_and, BitVec.getElem_sshiftRight, BitVec.getElem_ushiftRight,
    BitVec.getElem_setWidth, BitVec.getLsbD_allOnes]
  by_cases h : i < 32
  · simp [h, show 32 + i < 64 by omega]
  · have hout : x.getLsbD (32 + i) = false := BitVec.getLsbD_of_ge _ _ (by omega)
    simp [h, hout]

theorem Block.nextVersion_toBitVec (b : Block) :
    b.nextVersion.toBitVec = (b.version.toBitVec >>> 32 + 1#64) <<< 32 := by
  have hshift : (32 : Int64).toBitVec.smod 64 = 32#64 := by decide
  have hmask : (0xFFFFFFFF : Int64).toBitVec = 0xFFFFFFFF#64 := by decide
  have hone : (1 : Int64).toBitVec = 1#64 := by decide
  have hsigned : b.version.toBitVec.sshiftRight' 32#64 = b.version.toBitVec.sshiftRight 32 := rfl
  rw [Block.nextVersion, Int64.toBitVec_shiftLeft, Int64.toBitVec_add, Int64.toBitVec_and,
    Int64.toBitVec_shiftRight, hshift, hmask, hone, hsigned, sshiftRight_and]
  exact BitVec.shiftLeft_eq'

theorem Block.nextVersion_toNat (b : Block) :
    b.nextVersion.toBitVec.toNat =
      (b.version.toBitVec.toNat / 4294967296 + 1) * 4294967296 % 18446744073709551616 := by
  rw [Block.nextVersion_toBitVec]
  simp only [BitVec.toNat_shiftLeft, BitVec.toNat_add, BitVec.toNat_ushiftRight,
    Nat.shiftLeft_eq, Nat.shiftRight_eq_div_pow]
  simp

/-- The next version: one more in the upper half and zero in the lower, unless the
upper half is the greatest. -/
theorem Block.nextVersion_toInt (b : Block) :
    b.nextVersion.toInt =
      if b.version.toInt < 0x7FFFFFFF00000000 then (b.version.toInt / 4294967296 + 1) * 4294967296
      else -9223372036854775808 := by
  have hnat := b.nextVersion_toNat
  have hnext : b.nextVersion.toInt = b.nextVersion.toBitVec.toInt := rfl
  have hversion : b.version.toInt = b.version.toBitVec.toInt := rfl
  have hlt := b.version.toBitVec.isLt
  rw [BitVec.toInt_eq_toNat_cond] at hnext hversion
  rw [hnat] at hnext
  split <;> split at hnext <;> split at hversion <;> omega

theorem lt_greatest {v : Int64} : v < 0x7FFFFFFF00000000 ↔ v.toInt < 0x7FFFFFFF00000000 := by
  have hlit : (0x7FFFFFFF00000000 : Int64).toInt = 0x7FFFFFFF00000000 := by decide
  rw [Int64.lt_iff_toInt_lt, hlit]

/-! ## Granted leases -/

/-- Whether `Block::Write` grants a lease, to a replica at a position. -/
def Block.grantsTo (b : Block) (useAble : Nat → Bool) (ds : List Nat) (now : Nat) :
    Option (Nat × Replica) :=
  let b := b.place ds
  (b.findMainReplica useAble now).bind fun i =>
    (b.chunkServer[i]?).bind fun main => if main.leaseTick ≤ now then some (i, main) else none

/-- `Write` makes that grant and no other change. -/
theorem Block.write_eq (cfg : Config) (b : Block) (useAble : Nat → Bool) (ds : List Nat)
    (now : Nat) :
    (b.write cfg useAble ds now).1 =
      match b.grantsTo useAble ds now with
      | some (i, main) => (b.place ds).grant i main (now + cfg.writeLease)
      | none => b.place ds := by
  rw [Block.write, Block.grantsTo]
  dsimp only
  cases (b.place ds).findMainReplica useAble now with
  | none => rfl
  | some i =>
      simp only [Option.bind_some]
      cases (b.place ds).chunkServer[i]? with
      | none => rfl
      | some main =>
          simp only [Option.bind_some]
          by_cases hle : main.leaseTick ≤ now
          · simp only [if_pos hle]
          · simp only [if_neg hle]

/-- A block and the leases granted so far, the last one first: the version of each and
the block's own at the time. -/
structure GrantState where
  block : Block
  granted : List (Int64 × Int64) := []
deriving DecidableEq

/-- A call of a block, with the lease it grants. -/
def GrantState.next (cfg : Config) (s : GrantState) (a : LeaseAct) : GrantState :=
  let block := (LeaseState.next cfg ⟨s.block, 0⟩ a).block
  match a with
  | .write now useAble ds =>
      if (s.block.grantsTo useAble ds now).isSome then
        { block := block, granted := (block.expectVersion, block.version) :: s.granted }
      else { s with block := block }
  | _ => { s with block := block }

def GrantState.Fresh (s : GrantState) : Prop := ∃ id, s = { block := { id := id } }

/-- The runs of one block, with its grants. -/
def grantSystem (cfg : Config) : Transition.System GrantState LeaseAct :=
  Transition.ofStep GrantState.Fresh fun s a => some (s.next cfg a)

/-- Every lease has a version above those of all earlier ones, and above the block's. -/
def LeaseVersions (s : GrantState) : Prop :=
  s.granted.Pairwise (fun later earlier => earlier.1 < later.1) ∧ ∀ g ∈ s.granted, g.2 < g.1

/-- Where a lease is granted, the version of the last one has been reported, and there
is a next version. -/
def Reported (s : GrantState) : LeaseAct → Prop
  | .write now useAble ds => (s.block.grantsTo useAble ds now).isSome →
      s.block.expectVersion ≤ s.block.version ∧ s.block.version < 0x7FFFFFFF00000000
  | _ => True

instance (s : GrantState) : ∀ a, Decidable (Reported s a)
  | .write _ _ _ => inferInstanceAs (Decidable (_ → _))
  | .updateReplica _ _ _ _ => inferInstanceAs (Decidable True)
  | .reportReplica _ _ _ _ => inferInstanceAs (Decidable True)
  | .checkReplica _ _ _ _ => inferInstanceAs (Decidable True)

/-! ## Versions of the block -/

section Versions

variable {b : Block}

@[simp] theorem Block.version_place (ds : List Nat) : (b.place ds).version = b.version := by
  rw [Block.place]
  split <;> rfl

@[simp] theorem Block.expectVersion_place (ds : List Nat) :
    (b.place ds).expectVersion = b.expectVersion := by
  rw [Block.place]
  split <;> rfl

@[simp] theorem Block.version_grant (i : Nat) (r : Replica) (tick : Nat) :
    (b.grant i r tick).version = b.version := by
  simp only [Block.grant]

@[simp] theorem Block.expectVersion_grant (i : Nat) (r : Replica) (tick : Nat) :
    (b.grant i r tick).expectVersion = b.nextVersion := by
  simp only [Block.grant]

/-- A report leaves both versions, or raises each to the one reported. -/
theorem Block.note_versions (b : Block) (i : Nat) (v : Int64) (size : Int) (fault : Bool) :
    ((b.note i v size fault).1.version = b.version ∧
        (b.note i v size fault).1.expectVersion = b.expectVersion) ∨
      ((b.note i v size fault).1.version = (if v > b.version then v else b.version) ∧
        (b.note i v size fault).1.expectVersion =
          if v > b.expectVersion then v else b.expectVersion) := by
  rw [Block.note]
  dsimp only
  split
  next => exact .inl ⟨rfl, rfl⟩
  next =>
    refine .inr ?_
    by_cases hv : v > b.version <;> by_cases he : v > b.expectVersion <;>
      by_cases hs : b.size < size <;> simp only [hv, he, hs, if_true, if_false, and_self]

@[simp] theorem Block.version_checkReplica (cfg : Config) (useAble : Nat → Bool)
    (distribute : List Nat → List Nat → List Nat) (select : List Nat → List Nat) (now : Nat) :
    (b.checkReplica cfg useAble distribute select now).1.version = b.version ∧
      (b.checkReplica cfg useAble distribute select now).1.expectVersion = b.expectVersion := by
  rw [Block.checkReplica]
  split
  next => exact ⟨rfl, rfl⟩
  next =>
    split
    next => exact ⟨rfl, rfl⟩
    next =>
      split
      next => exact ⟨rfl, rfl⟩
      next =>
        dsimp only
        split
        next => split <;> exact ⟨rfl, rfl⟩
        next => split <;> exact ⟨rfl, rfl⟩

end Versions

/-- What a run in which grants are reported keeps. -/
structure GrantState.Inv (s : GrantState) : Prop where
  versions : LeaseVersions s
  /-- Every grant has a version with nothing in the lower half. -/
  round : ∀ g ∈ s.granted, g.1.toInt % 4294967296 = 0
  le_expect : ∀ g ∈ s.granted, g.1 ≤ s.block.expectVersion
  version_le : s.block.version ≤ s.block.expectVersion
  /-- The expected version is the block's, or one that was granted. -/
  expect : s.block.expectVersion = s.block.version ∨ ∃ g ∈ s.granted, g.1 = s.block.expectVersion

namespace GrantState

variable {cfg : Config} {s : GrantState}

theorem Inv.of_fresh (h : s.Fresh) : s.Inv := by
  obtain ⟨id, rfl⟩ := h
  exact ⟨⟨.nil, by simp⟩, by simp, by simp, Std.le_refl _, .inl rfl⟩

/-- Neither version moves. -/
theorem Inv.same (h : s.Inv) {c : Block} (hv : c.version = s.block.version)
    (he : c.expectVersion = s.block.expectVersion) : Inv { s with block := c } where
  versions := h.versions
  round := h.round
  le_expect g hg := he ▸ h.le_expect g hg
  version_le := hv ▸ he ▸ h.version_le
  expect := hv ▸ he ▸ h.expect

/-- A report raises both versions. -/
theorem Inv.report (h : s.Inv) {c : Block} {v : Int64}
    (hv : c.version = if v > s.block.version then v else s.block.version)
    (he : c.expectVersion = if v > s.block.expectVersion then v else s.block.expectVersion) :
    Inv { s with block := c } := by
  have hle := h.version_le
  refine ⟨h.versions, h.round, fun g hg => ?_, ?_, ?_⟩
  · have := h.le_expect g hg
    change g.1 ≤ c.expectVersion
    rw [he]
    grind
  · change c.version ≤ c.expectVersion
    rw [hv, he]
    grind
  · change c.expectVersion = c.version ∨ ∃ g ∈ s.granted, g.1 = c.expectVersion
    rw [hv, he]
    by_cases hgt : v > s.block.expectVersion
    · exact .inl (by grind)
    · rw [if_neg hgt]
      rcases h.expect with heq | hg
      · exact .inl (by grind)
      · exact .inr hg

theorem Inv.note (h : s.Inv) (i : Nat) (v : Int64) (size : Int) (fault : Bool) :
    Inv { s with block := (s.block.note i v size fault).1 } := by
  rcases s.block.note_versions i v size fault with ⟨hv, he⟩ | ⟨hv, he⟩
  · exact h.same hv he
  · exact h.report hv he

/-- A lease is granted above all others. -/
theorem Inv.grant (h : s.Inv) (i : Nat) (main : Replica) (tick : Nat) (ds : List Nat)
    (hreported : s.block.expectVersion ≤ s.block.version)
    (hmax : s.block.version < 0x7FFFFFFF00000000) :
    Inv { block := (s.block.place ds).grant i main tick
          granted := ((s.block.place ds).nextVersion, s.block.version) :: s.granted } := by
  have hnext := (s.block.place ds).nextVersion_toInt
  rw [Block.version_place, if_pos (lt_greatest.mp hmax)] at hnext
  have habove : s.block.version < (s.block.place ds).nextVersion := by
    rw [Int64.lt_iff_toInt_lt, hnext]
    omega
  have hall : ∀ g ∈ s.granted, g.1 < (s.block.place ds).nextVersion := fun g hg =>
    Std.lt_of_le_of_lt (Std.le_trans (h.le_expect g hg) hreported) habove
  constructor
  case versions =>
    refine ⟨List.pairwise_cons.mpr ⟨hall, h.versions.1⟩, fun g hg => ?_⟩
    rcases List.mem_cons.mp hg with rfl | hg
    · exact habove
    · exact h.versions.2 g hg
  case round =>
    intro g hg
    rcases List.mem_cons.mp hg with rfl | hg
    · rw [hnext]
      exact Int.mul_emod_left _ _
    · exact h.round g hg
  case le_expect =>
    intro g hg
    rw [Block.expectVersion_grant]
    rcases List.mem_cons.mp hg with rfl | hg
    · exact Std.le_refl _
    · exact Std.le_of_lt (hall g hg)
  case version_le =>
    rw [Block.expectVersion_grant, Block.version_grant, Block.version_place]
    exact Std.le_of_lt habove
  case expect =>
    rw [Block.expectVersion_grant]
    exact .inr ⟨_, .head _, rfl⟩

theorem Inv.next {a : LeaseAct} (h : s.Inv) (ha : Reported s a) : (s.next cfg a).Inv := by
  cases a with
  | write now useAble ds =>
      simp only [GrantState.next, LeaseState.next, Block.write_eq]
      cases hg : s.block.grantsTo useAble ds now with
      | none => exact h.same (Block.version_place ds) (Block.expectVersion_place ds)
      | some r =>
          obtain ⟨hreported, hmax⟩ := ha (by simp [hg])
          have hinv := h.grant r.1 r.2 (now + cfg.writeLease) ds hreported hmax
          simpa [Block.grant] using hinv
  | updateReplica server v size fault =>
      simp only [GrantState.next, LeaseState.next, Block.updateReplica]
      split
      next i _ => exact h.note i v size fault
      next => exact h
  | reportReplica server v size fault =>
      simp only [GrantState.next, LeaseState.next, Block.reportReplica]
      split
      next i _ => exact h.note i v size fault
      next =>
        have hadded : Inv { s with block :=
            { s.block with chunkServer := s.block.chunkServer ++ [{ server := server }] } } :=
          h.same rfl rfl
        exact hadded.note _ v size fault
  | checkReplica now useAble distribute select =>
      obtain ⟨hv, he⟩ := Block.version_checkReplica cfg (b := s.block) useAble distribute select now
      exact h.same hv he

/-- Where the last version was not reported, the next lease repeats it. -/
theorem Inv.reported {a : LeaseAct} (h : s.Inv) (ha : LeaseVersions (s.next cfg a)) :
    Reported s a := by
  cases a with
  | write now useAble ds =>
      intro hsome
      obtain ⟨r, hr⟩ := Option.isSome_iff_exists.mp hsome
      simp only [GrantState.next, LeaseState.next, Block.write_eq, hr, Option.isSome_some,
        if_true, LeaseVersions, Block.grant, List.pairwise_cons, List.mem_cons,
        forall_eq_or_imp, Block.version_place] at ha
      obtain ⟨⟨hall, _⟩, habove, _⟩ := ha
      have hnext := (s.block.place ds).nextVersion_toInt
      rw [Block.version_place] at hnext
      have hmax : s.block.version < 0x7FFFFFFF00000000 := by
        rw [lt_greatest]
        by_contra hge
        rw [if_neg hge] at hnext
        have hlt := Int64.lt_iff_toInt_lt.mp habove
        have hmin := s.block.version.le_toInt
        omega
      refine ⟨?_, hmax⟩
      rw [if_pos (lt_greatest.mp hmax)] at hnext
      rcases h.expect with heq | ⟨g, hg, heq⟩
      · exact heq ▸ Std.le_refl _
      · have hlt := Int64.lt_iff_toInt_lt.mp (hall g hg)
        have hround := h.round g hg
        rw [← heq, Int64.le_iff_toInt_le]
        omega
  | updateReplica => trivial
  | reportReplica => trivial
  | checkReplica => trivial

end GrantState

/-- In every run where the version of each lease is reported before the next lease,
every lease has a version of its own; and a lease breaks this exactly where the version
before it was not reported. -/
theorem lease_versions (cfg : Config) {s : GrantState}
    (h : (grantSystem cfg).Run Reported s) :
    LeaseVersions s ∧ ∀ a, LeaseVersions (s.next cfg a) ↔ Reported s a := by
  have hinv : s.Inv := by
    refine Transition.System.Run.invariant (fun _ => GrantState.Inv.of_fresh) ?_ h
    intro s a s' hs ha hstep
    cases hstep
    exact hs.next ha
  exact ⟨hinv.versions, fun a => ⟨hinv.reported, fun ha => (hinv.next ha).versions⟩⟩

/-- A lease of one minute under which nothing is written, and one after it. -/
def unreportedLease : List LeaseAct :=
  [.write 1000 (fun _ => true) [1, 2, 3], .write 61000 (fun _ => true) []]

/-- The state `unreportedLease` reaches. -/
def sameVersion : GrantState :=
  { block := { id := 7, expectVersion := 0x100000000, lease := 121000,
               chunkServer := [{ server := 1, leaseTick := 121000 }, { server := 2 },
                 { server := 3 }] }
    granted := [(0x100000000, 0), (0x100000000, 0)] }

/-- The second lease has the version of the first. -/
theorem unreported_lease_repeats :
    ¬ ∀ s, (grantSystem oneMinute).Reachable s → LeaseVersions s := by
  intro h
  have hrun : Transition.exec (fun s a => some (GrantState.next oneMinute s a))
      { block := { id := 7 } } unreportedLease = some sameVersion := by
    decide
  have hversions := h sameVersion (Transition.exec_reachable ⟨7, rfl⟩ hrun)
  exact absurd hversions.1 (by decide)

/-- A lease, a write under it that is reported, and the next lease. -/
def reportedLease : List LeaseAct :=
  [.write 1000 (fun _ => true) [1, 2, 3], .updateReplica 1 0x100000001 4096 false,
   .write 61000 (fun _ => true) []]

/-- The state `reportedLease` reaches. -/
def twoVersions : GrantState :=
  { block := { id := 7, version := 0x100000001, expectVersion := 0x200000000, lease := 121000,
               size := 4096,
               chunkServer := [{ server := 1, leaseTick := 121000, version := 0x100000001 },
                 { server := 2 }, { server := 3 }] }
    granted := [(0x200000000, 0x100000001), (0x100000000, 0)] }

/-- A reported lease is followed by one with a greater version. -/
theorem lease_versions_reported : LeaseVersions twoVersions := by
  have hexec : Transition.exec (fun s a => some (GrantState.next oneMinute s a))
      { block := { id := 7 } } reportedLease = some twoVersions := by
    decide
  have hrun : (grantSystem oneMinute).Run Reported twoVersions :=
    Transition.exec_run (.start ⟨7, rfl⟩) (by decide) hexec
  exact (lease_versions oneMinute hrun).1

end Ofs.Master
