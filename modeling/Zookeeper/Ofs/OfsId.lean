import Zookeeper.CompareExchange
import Mathlib.Data.Nat.Bitwise

/-!
# File ids

`ofs/master/OfsId.h`.  A file id has a count of seconds from bit 31 on and a sequence
number in its lowest ten bits.  `GenerateId` counts the number up, and starts again at 0
when the clock has gone on to a later second.

The seconds have 33 bits, so that the last of them is the sign of the id, and `TICK_FROM_ID`
shifts it back as a sign.  From `2 ^ 32` seconds on the tick of an id is negative and the
clock is always later, so that the number starts again with each id.
-/

namespace Ofs.Master

/-! ## The macros -/

/-- `SECOND`. -/
def second : Int64 := 1000

/-- `TICK_FROM_ID`. -/
def tickFromId (id : Int64) : Int64 := id >>> 31

/-- `TICK_FROM_TIMESTAMP`. -/
def tickFromTimestamp (ts : Int64) : Int64 := (ts / second) &&& 0x1FFFFFFFF

/-- `SEQ_FROM_ID`. -/
def seqFromId (id : Int64) : Int64 := id &&& 0x3FF

/-- `MAX_SEQ`. -/
def maxSeq : Int64 := 0x3FF

/-- `BUILD_FILE_ID`. -/
def buildFileId (t subId : Int64) : Int64 := ((t &&& 0x1FFFFFFFF) <<< 31) ||| (subId &&& 0x3FF)

/-! ## The generator -/

/-- What `GenerateId` makes of the last id and the clock.  Without a new id it sleeps until
the next second and begins again. -/
def nextId (id nowTs : Int64) : Option Int64 :=
  let idTick := tickFromId id
  let seq := seqFromId id + 1
  if idTick < tickFromTimestamp nowTs then some (buildFileId (tickFromTimestamp nowTs) 0)
  else if seq ≥ maxSeq then none
  else some (buildFileId idTick seq)

/-- `IdGenerator::GenerateId`. -/
def generateId : CompareExchange.Loop Int64 Int64 where
  initial := 0
  propose := nextId

/-- The seconds of a clock reading fit into the tick field. -/
def Fits (nowTs : Int64) : Prop := 0 ≤ nowTs / second ∧ (nowTs / second).toInt < 2 ^ 33

/-- They fit below its highest bit. -/
def FitsUnsigned (nowTs : Int64) : Prop := 0 ≤ nowTs / second ∧ (nowTs / second).toInt < 2 ^ 32

instance : DecidablePred Fits := fun _ => inferInstanceAs (Decidable (_ ∧ _))

instance : DecidablePred FitsUnsigned := fun _ => inferInstanceAs (Decidable (_ ∧ _))

/-- The ids that were returned, the newest first: each is above the earlier ones, so that
they are pairwise distinct. -/
structure IdsUnique (returned : List Int64) : Prop where
  distinct : returned.Nodup
  increasing : returned.Pairwise fun later earlier => earlier < later

/-! ## The bits of an id -/

theorem toInt_eq_toNat {x : Int64} (h : x.toBitVec.toNat < 2 ^ 63) :
    x.toInt = x.toBitVec.toNat :=
  BitVec.toInt_eq_toNat_of_lt (by omega)

theorem toNat_eq_toInt {x : Int64} (h : 0 ≤ x.toInt) : (x.toBitVec.toNat : Int) = x.toInt := by
  have hcond := BitVec.toInt_eq_toNat_cond x.toBitVec
  have hlt := x.toBitVec.isLt
  rw [show x.toBitVec.toInt = x.toInt from rfl] at hcond
  split at hcond <;> omega

theorem toInt_tickFromId (id : Int64) : (tickFromId id).toInt = id.toInt / 2 ^ 31 := by
  show (BitVec.sshiftRight' id.toBitVec ((31 : Int64).toBitVec.smod 64)).toInt = _
  rw [show (31 : Int64).toBitVec.smod 64 = 31#64 from rfl, BitVec.sshiftRight_eq',
    BitVec.toInt_sshiftRight, Int.shiftRight_eq_div_pow]
  rfl

theorem toNat_seqFromId (id : Int64) :
    (seqFromId id).toBitVec.toNat = id.toBitVec.toNat % 2 ^ 10 := by
  show (id.toBitVec &&& 0x3FF#64).toNat = _
  rw [BitVec.toNat_and]
  exact Nat.and_two_pow_sub_one_eq_mod _ 10

/-- The two fields of an id do not overlap. -/
theorem toNat_buildFileId (t subId : Int64) : (buildFileId t subId).toBitVec.toNat =
    t.toBitVec.toNat % 2 ^ 33 * 2 ^ 31 + subId.toBitVec.toNat % 2 ^ 10 := by
  have htick : t.toBitVec.toNat &&& (0x1FFFFFFFF#64).toNat = t.toBitVec.toNat % 2 ^ 33 :=
    Nat.and_two_pow_sub_one_eq_mod _ 33
  have hseq : subId.toBitVec.toNat &&& (0x3FF#64).toNat = subId.toBitVec.toNat % 2 ^ 10 :=
    Nat.and_two_pow_sub_one_eq_mod _ 10
  have hshift : (t.toBitVec.toNat % 2 ^ 33) <<< 31 < 2 ^ 64 := by
    rw [Nat.shiftLeft_eq]
    omega
  show (((t.toBitVec &&& 0x1FFFFFFFF#64) <<< 31#64) ||| (subId.toBitVec &&& 0x3FF#64)).toNat = _
  rw [BitVec.toNat_or, BitVec.shiftLeft_eq', BitVec.toNat_shiftLeft, BitVec.toNat_and,
    BitVec.toNat_and, htick, hseq, show (31#64).toNat = 31 from rfl, Nat.mod_eq_of_lt hshift,
    ← Nat.shiftLeft_add_eq_or_of_lt (by omega), Nat.shiftLeft_eq]

/-- An id of a tick below `2 ^ 32` has it and its number as its value. -/
theorem toInt_buildFileId {t subId : Int64} {tick seq : Nat} (ht : t.toInt = tick)
    (hs : subId.toInt = seq) (htick : tick < 2 ^ 32) (hseq : seq < 2 ^ 10) :
    (buildFileId t subId).toInt = tick * 2 ^ 31 + seq := by
  have hnat : (buildFileId t subId).toBitVec.toNat = tick * 2 ^ 31 + seq := by
    have ht' := toNat_eq_toInt (x := t) (by omega)
    have hs' := toNat_eq_toInt (x := subId) (by omega)
    rw [toNat_buildFileId, show t.toBitVec.toNat = tick by omega,
      show subId.toBitVec.toNat = seq by omega]
    omega
  rw [toInt_eq_toNat (by omega), hnat]
  rfl

/-! ## Ids go up -/

/-- An id whose sign bit is not set, with nothing between its number and its tick. -/
structure WellFormed (id : Int64) : Prop where
  nonneg : 0 ≤ id.toInt
  seq : id.toInt % 2 ^ 31 < 2 ^ 10

/-- The number of an id. -/
theorem WellFormed.toInt_seq {id : Int64} (h : WellFormed id) :
    (seqFromId id + 1).toInt = id.toInt % 2 ^ 31 + 1 := by
  have hnat := toNat_eq_toInt h.nonneg
  have hlt := h.seq
  have hseq : (seqFromId id).toInt = id.toInt % 2 ^ 31 := by
    rw [toInt_eq_toNat (by rw [toNat_seqFromId]; omega), toNat_seqFromId]
    omega
  rw [Int64.toInt_add, hseq, show (1 : Int64).toInt = 1 from rfl]
  exact Int.bmod_eq_of_le (by omega) (by omega)

/-- A clock reading that fits is its own tick. -/
theorem FitsUnsigned.toInt_tick {nowTs : Int64} (h : FitsUnsigned nowTs) :
    (tickFromTimestamp nowTs).toInt = (nowTs / second).toInt := by
  obtain ⟨hnonneg, hlt⟩ := h
  have hpos : 0 ≤ (nowTs / second).toInt := Int64.le_iff_toInt_le.1 hnonneg
  have hnat := toNat_eq_toInt hpos
  have hmask : (tickFromTimestamp nowTs).toBitVec.toNat = (nowTs / second).toBitVec.toNat := by
    show ((nowTs / second).toBitVec &&& 0x1FFFFFFFF#64).toNat = _
    rw [BitVec.toNat_and]
    exact (Nat.and_two_pow_sub_one_eq_mod _ 33).trans (Nat.mod_eq_of_lt (by omega))
  rw [toInt_eq_toNat (by omega), hmask, hnat]

/-- What `GenerateId` makes of an id and a clock reading that fits is above the id. -/
theorem nextId_spec {id nowTs new : Int64} (h : WellFormed id) (hfits : FitsUnsigned nowTs)
    (hnext : nextId id nowTs = some new) : WellFormed new ∧ id < new := by
  have hnonneg := h.nonneg
  have hlt := hfits.2
  have hclock := hfits.toInt_tick
  have hnow : 0 ≤ (nowTs / second).toInt := Int64.le_iff_toInt_le.1 hfits.1
  have htick := toInt_tickFromId id
  have hup : ∀ tick seq : Nat, new.toInt = tick * 2 ^ 31 + seq → seq < 2 ^ 10 →
      id.toInt < tick * 2 ^ 31 + seq → WellFormed new ∧ id < new := by
    intro tick seq hval hseq habove
    exact ⟨⟨by omega, by omega⟩, Int64.lt_iff_toInt_lt.2 (by omega)⟩
  rw [nextId] at hnext
  split at hnext
  next hlater =>
      -- the tick of the clock, and the first number
      obtain rfl := Option.some.inj hnext
      rw [Int64.lt_iff_toInt_lt, hclock, htick] at hlater
      obtain ⟨tick, htick'⟩ := Int.eq_ofNat_of_zero_le hnow
      have hid : (buildFileId (tickFromTimestamp nowTs) 0).toInt = tick * 2 ^ 31 + (0 : Nat) :=
        toInt_buildFileId (by omega) rfl (by omega) (by omega)
      exact hup tick 0 hid (by omega) (by omega)
  next =>
      -- the same tick, and the next number
      split at hnext
      next => cases hnext
      next hmax =>
          obtain rfl := Option.some.inj hnext
          have hseq := h.toInt_seq
          rw [ge_iff_le, Int64.le_iff_toInt_le, hseq, show maxSeq.toInt = 0x3FF from rfl] at hmax
          obtain ⟨tick, htick'⟩ :=
            Int.eq_ofNat_of_zero_le (show 0 ≤ id.toInt / 2 ^ 31 by omega)
          obtain ⟨seq, hseq'⟩ :=
            Int.eq_ofNat_of_zero_le (show 0 ≤ id.toInt % 2 ^ 31 + 1 by omega)
          have hlt63 := Int64.toInt_lt id
          have hid : (buildFileId (tickFromId id) (seqFromId id + 1)).toInt =
              tick * 2 ^ 31 + seq :=
            toInt_buildFileId (by omega) (by omega) (by omega) (by omega)
          exact hup tick seq hid (by omega) (by omega)

/-- In every run whose clock readings stay below the sign bit the ids are distinct, and go up
in the order of the exchanges. -/
theorem ids_unique {s : CompareExchange.Shared Int64}
    (hr : generateId.system.Run (fun _ a => a.Given FitsUnsigned) s) :
    IdsUnique s.exchanged := by
  have hgrow := CompareExchange.Loop.increasing (I := WellFormed) (r := fun a b => a < b)
    (fun _ _ _ => Int64.lt_trans) ⟨by decide, by decide⟩
    (fun _ _ _ hgood hfits hnext => nextId_spec hgood hfits hnext) hr
  have hup := (List.pairwise_append.1 hgrow.up).1
  exact ⟨hup.imp fun hlt => (Int64.ne_of_lt hlt).symm, hup⟩

/-- One caller that gets an id, and another one from it. -/
def twoCalls (nowTs first : Int64) : List (CompareExchange.Act Int64 Int64) :=
  [.load 0 0, .compute 0 nowTs, .exchange 0 false,
   .load 0 first, .compute 0 nowTs, .exchange 0 false]

/-- Two ids of the second `1700000000`. -/
theorem ids_unique_now :
    IdsUnique [buildFileId 1700000000 1, buildFileId 1700000000 0] :=
  have hr : generateId.system.Run (fun _ a => a.Given FitsUnsigned)
      (((Transition.exec generateId.step { word := 0 }
        (twoCalls 1700000000000 (buildFileId 1700000000 0))).get rfl)) :=
    Transition.exec_run (.start rfl) (by decide) (Option.some_get rfl).symm
  ids_unique hr

/-- The second `2 ^ 32` sets the sign bit, and its first id comes again and again. -/
theorem late_clock_repeats : ¬ ∀ s, generateId.system.Run (fun _ a => a.Given Fits) s →
    IdsUnique s.exchanged := by
  intro h
  have hr : generateId.system.Run (fun _ a => a.Given Fits)
      ((Transition.exec generateId.step { word := 0 }
        (twoCalls 4294967296000 (buildFileId 4294967296 0))).get rfl) :=
    Transition.exec_run (.start rfl) (by decide) (Option.some_get rfl).symm
  have hdistinct : [buildFileId 4294967296 0, buildFileId 4294967296 0].Nodup :=
    (h _ hr).distinct
  exact absurd hdistinct (by decide)

end Ofs.Master
