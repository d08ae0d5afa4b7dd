import Mathlib.Algebra.Ring.Int.Defs
import Mathlib.Algebra.Ring.Nat

/-!
# Transaction ids

A transaction id holds the epoch of the leader that proposed it in its upper
half and the number of the draft in its lower half (`paxos/transaction/dataset.h`).
`zxIdOf_toInt` gives its value, from which follow that ids grow with the number
within an epoch, and with the epoch.
-/

namespace Paxos

/-- `ZXID`: the epoch above the number of the draft. -/
def zxIdOf (epoch : Int32) (id : Int64) : Int64 := (epoch.toInt64 <<< 32) ||| id

/-- `EPOCH_FROM_ZXID`. -/
def epochFromZxId (zxId : Int64) : Int64 := (zxId >>> 32) &&& 0xFFFFFFFF

/-- A number that fits in the lower half of an id. -/
def IsDraftId (id : Int64) : Prop := 0 ≤ id.toInt ∧ id.toInt < 2 ^ 32

instance (id : Int64) : Decidable (IsDraftId id) := inferInstanceAs (Decidable (_ ∧ _))

/-! ## The value of an id -/

/-- The halves of an id do not overlap. -/
theorem shiftLeft_or_eq_add (x y : BitVec 64) (h : y.toNat < 2 ^ 32) :
    (x <<< 32) ||| y = (x <<< 32) + y := by
  refine (BitVec.add_eq_or_of_and_eq_zero _ _ ?_).symm
  ext i hi
  simp only [BitVec.getElem_and, BitVec.getElem_shiftLeft, BitVec.getElem_zero]
  by_cases hlt : i < 32
  · simp [hlt]
  · have hbit : y[i] = false := by
      rw [← BitVec.getLsbD_eq_getElem, BitVec.getLsbD, Nat.testBit_lt_two_pow]
      exact Nat.lt_of_lt_of_le h (Nat.pow_le_pow_right (by decide) (by omega))
    simp [hbit]

theorem toInt_shiftLeft (x : BitVec 64) (hlo : -2 ^ 31 ≤ x.toInt) (hhi : x.toInt < 2 ^ 31) :
    (x <<< 32).toInt = x.toInt * 2 ^ 32 := by
  have hmod : ((x.toNat * 2 ^ 32 : Nat) : Int).bmod (2 ^ 64) =
      (x.toInt * 2 ^ 32).bmod (2 ^ 64) := by
    rw [BitVec.toInt_eq_toNat_bmod]
    simp
  rw [BitVec.toInt_shiftLeft, Nat.shiftLeft_eq, hmod]
  exact Int.bmod_eq_of_le (by omega) (by omega)

theorem zxIdOf_toInt (epoch : Int32) {id : Int64} (h : IsDraftId id) :
    (zxIdOf epoch id).toInt = epoch.toInt * 2 ^ 32 + id.toInt := by
  obtain ⟨hlo, hhi⟩ := h
  have hnat : id.toBitVec.toNat < 2 ^ 32 := by
    have := BitVec.toInt_eq_toNat_cond id.toBitVec
    have hid : id.toInt = id.toBitVec.toInt := rfl
    split at this <;> omega
  have hepoch : epoch.toInt64.toBitVec.toInt = epoch.toInt := Int32.toInt_toInt64 epoch
  have hlt := epoch.toInt_lt
  have hle := epoch.le_toInt
  have hshift := toInt_shiftLeft epoch.toInt64.toBitVec (by omega) (by omega)
  have hbits : (zxIdOf epoch id).toInt =
      ((epoch.toInt64.toBitVec <<< 32) ||| id.toBitVec).toInt := rfl
  have hid : id.toBitVec.toInt = id.toInt := rfl
  rw [hbits, shiftLeft_or_eq_add _ _ hnat, BitVec.toInt_add, hshift, hepoch, hid]
  exact Int.bmod_eq_of_le (by omega) (by omega)

/-- Counting on from a draft's number does not overflow. -/
theorem IsDraftId.toInt_add_one {id : Int64} (h : IsDraftId id) :
    (id + 1).toInt = id.toInt + 1 := by
  obtain ⟨hlo, hhi⟩ := h
  have hone : (1 : Int64).toInt = 1 := rfl
  rw [Int64.toInt_add, hone]
  exact Int.bmod_eq_of_le (by omega) (by omega)

theorem IsDraftId.lt_add_one {id : Int64} (h : IsDraftId id) : id < id + 1 := by
  rw [Int64.lt_iff_toInt_lt, h.toInt_add_one]
  omega

/-! ## The order of ids -/

/-- Ids of one epoch grow with the number of the draft. -/
theorem zxIdOf_lt_zxIdOf (epoch : Int32) {a b : Int64} (ha : IsDraftId a) (hb : IsDraftId b)
    (h : a < b) : zxIdOf epoch a < zxIdOf epoch b := by
  rw [Int64.lt_iff_toInt_lt] at h ⊢
  rw [zxIdOf_toInt epoch ha, zxIdOf_toInt epoch hb]
  omega

/-- Ids of a later epoch are greater. -/
theorem zxIdOf_lt_of_epoch_lt {e e' : Int32} {a b : Int64} (ha : IsDraftId a) (hb : IsDraftId b)
    (h : e < e') : zxIdOf e a < zxIdOf e' b := by
  rw [Int32.lt_iff_toInt_lt] at h
  rw [Int64.lt_iff_toInt_lt, zxIdOf_toInt e ha, zxIdOf_toInt e' hb]
  obtain ⟨ha0, ha1⟩ := ha
  obtain ⟨hb0, hb1⟩ := hb
  omega

/-- An id determines its epoch and its number. -/
theorem zxIdOf_inj {e e' : Int32} {a b : Int64} (ha : IsDraftId a) (hb : IsDraftId b)
    (h : zxIdOf e a = zxIdOf e' b) : e = e' ∧ a = b := by
  have hint := congrArg Int64.toInt h
  rw [zxIdOf_toInt e ha, zxIdOf_toInt e' hb] at hint
  obtain ⟨ha0, ha1⟩ := ha
  obtain ⟨hb0, hb1⟩ := hb
  exact ⟨Int32.toInt_inj.mp (by omega), Int64.toInt_inj.mp (by omega)⟩

/-! ## The epoch of an id -/

/-- `EPOCH_FROM_ZXID` is the upper half, as an unsigned number. -/
theorem epochFromZxId_toInt (zxId : Int64) :
    (epochFromZxId zxId).toInt = zxId.toInt / 2 ^ 32 % 2 ^ 32 := by
  have hshift : (zxId.toBitVec.sshiftRight 32).toInt = zxId.toInt / 2 ^ 32 := by
    rw [BitVec.toInt_sshiftRight, Int.shiftRight_eq_div_pow]
    rfl
  have hmask : (epochFromZxId zxId).toBitVec.toNat =
      (zxId.toBitVec.sshiftRight 32).toNat % 2 ^ 32 := by
    rw [← Nat.and_two_pow_sub_one_eq_mod]
    exact BitVec.toNat_and _ _
  have hlt : (epochFromZxId zxId).toBitVec.toNat < 2 ^ 32 := hmask ▸ Nat.mod_lt _ (by decide)
  have hint : (epochFromZxId zxId).toInt = (epochFromZxId zxId).toBitVec.toNat :=
    BitVec.toInt_eq_toNat_of_lt (by omega)
  have hcast := BitVec.toInt_eq_toNat_cond (zxId.toBitVec.sshiftRight 32)
  rw [hint, hmask, ← hshift]
  split at hcast <;> omega

/-- The number `2 ^ 32` does not fit in the lower half, which it leaves empty. -/
theorem zxIdOf_wrapped (epoch : Int32) : (zxIdOf epoch 0x100000000).toInt % 2 ^ 32 = 0 := by
  have hbits : (zxIdOf epoch 0x100000000).toBitVec =
      (epoch.toInt64.toBitVec ||| 1#64) <<< 32 := by
    rw [BitVec.shiftLeft_or_distrib]
    rfl
  have hnat : (zxIdOf epoch 0x100000000).toBitVec.toNat % 2 ^ 32 = 0 := by
    rw [hbits, BitVec.toNat_shiftLeft, Nat.shiftLeft_eq]
    omega
  have hcond := BitVec.toInt_eq_toNat_cond (zxIdOf epoch 0x100000000).toBitVec
  change (zxIdOf epoch 0x100000000).toBitVec.toInt % 2 ^ 32 = 0
  split at hcond <;> omega

end Paxos
