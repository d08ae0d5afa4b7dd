import Mathlib.Data.Nat.Bitwise

/-!
# Fields in a word

A field of a word is the bits from some position on.  `put` writes a number into one that is
clear, as an *or* with the number shifted there, and `get` reads it again with a shift and a
mask.  The shift fills up with the sign, which the mask takes away.  Where the number fits,
`get` returns it (`get_put`), and the mask of the other bits returns the word that the field
was clear in (`clear_put`).
-/

namespace BitField

variable {w start width : Nat}

/-- The lowest bits of a word. -/
def low (w width : Nat) : BitVec w := BitVec.ofNat w (2 ^ width - 1)

/-- The bits of a field. -/
def mask (w start width : Nat) : BitVec w := low w width <<< start

/-- A number in a field that was clear. -/
def put (start width : Nat) (x y : BitVec w) : BitVec w := x ||| ((y &&& low w width) <<< start)

/-- What is in a field. -/
def get (start width : Nat) (x : BitVec w) : BitVec w := x.sshiftRight start &&& low w width

/-- No bit of a field is set. -/
def Clear (start width : Nat) (x : BitVec w) : Prop := x &&& mask w start width = 0

/-! ## Bits -/

theorem getLsbD_low (i : Nat) :
    (low w width).getLsbD i = (decide (i < w) && decide (i < width)) := by
  rw [low, BitVec.getLsbD_ofNat, Nat.testBit_two_pow_sub_one]

theorem getLsbD_mask (i : Nat) : (mask w start width).getLsbD i =
    (decide (i < w) && decide (start ≤ i) && decide (i < start + width)) := by
  rw [mask, BitVec.getLsbD_shiftLeft, getLsbD_low]
  grind

theorem getLsbD_put (x y : BitVec w) (i : Nat) : (put start width x y).getLsbD i =
    (x.getLsbD i || ((mask w start width).getLsbD i && y.getLsbD (i - start))) := by
  rw [put, BitVec.getLsbD_or, BitVec.getLsbD_shiftLeft, BitVec.getLsbD_and, getLsbD_low,
    getLsbD_mask]
  grind

theorem Clear.getLsbD {x : BitVec w} (h : Clear start width x) {i : Nat} (hi : i < w)
    (hstart : start ≤ i) (hend : i < start + width) : x.getLsbD i = false := by
  have hbit : (x &&& mask w start width).getLsbD i = (0#w).getLsbD i := congrArg (·.getLsbD i) h
  rw [BitVec.getLsbD_and, getLsbD_mask, BitVec.getLsbD_zero] at hbit
  simpa [hi, hstart, hend] using hbit

theorem clear_of_getLsbD {x : BitVec w}
    (h : ∀ i, start ≤ i → i < start + width → x.getLsbD i = false) : Clear start width x := by
  refine BitVec.eq_of_getLsbD_eq fun i hi => ?_
  rw [BitVec.getLsbD_and, getLsbD_mask]
  cases hin : decide (start ≤ i) && decide (i < start + width) with
  | false => simp [hin, Bool.and_assoc]
  | true =>
      rw [Bool.and_eq_true, decide_eq_true_eq, decide_eq_true_eq] at hin
      simp [h i hin.1 hin.2]

/-! ## What is written is read -/

/-- A number that fits is read from its field. -/
theorem get_put {x y : BitVec w} (clear : Clear start width x) (small : y.toNat < 2 ^ width)
    (fits : start + width ≤ w) : get start width (put start width x y) = y := by
  refine BitVec.eq_of_getLsbD_eq fun i hi => ?_
  rw [get, BitVec.getLsbD_and, getLsbD_low, BitVec.getLsbD_sshiftRight]
  rcases Nat.lt_or_ge i width with hlt | hge
  · have hclear : x.getLsbD (start + i) = false := clear.getLsbD (by omega) (by omega) (by omega)
    have hin : (mask w start width).getLsbD (start + i) = true := by
      rw [getLsbD_mask]
      simp only [Bool.and_eq_true, decide_eq_true_eq]
      omega
    rw [if_pos (show start + i < w by omega), getLsbD_put, hclear, hin, Nat.add_sub_cancel_left]
    simp [hi, hlt]
  · have hhigh : y.getLsbD i = false :=
      Nat.testBit_lt_two_pow (small.trans_le (Nat.pow_le_pow_right (by decide) hge))
    simp [hhigh, Nat.not_lt.2 hge]

/-- The other bits are those of the word. -/
theorem clear_put {x y : BitVec w} (clear : Clear start width x) :
    put start width x y &&& ~~~mask w start width = x := by
  refine BitVec.eq_of_getLsbD_eq fun i hi => ?_
  rw [BitVec.getLsbD_and, getLsbD_put, BitVec.getLsbD_not]
  cases hin : (mask w start width).getLsbD i with
  | false => simp [hi]
  | true =>
      rw [getLsbD_mask] at hin
      simp only [Bool.and_eq_true, decide_eq_true_eq] at hin
      simp [clear.getLsbD hi hin.1.2 hin.2]

end BitField
