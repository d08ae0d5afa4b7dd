import Mathlib.Tactic.Ring

/-!
# Byte layouts

`Bytes.ofNat` and `Bytes.toNat` are the little-endian bytes of a number and
back.  A `Codec` lays a value out in a fixed number of bytes and reads it back,
and carries the proof that it does.  Integers of the widths in use have
one each, and packed records are built from theirs with `pair`, `map` and
`array`.

`Codec.read` takes a value off the front of a stream, as the reader of a socket
or of a file does.
-/

abbrev Bytes := List UInt8

namespace Bytes

/-- The `width` bytes of a number, least significant first. -/
def ofNat : Nat → Nat → Bytes
  | 0, _ => []
  | width + 1, n => UInt8.ofNat n :: ofNat width (n / 256)

/-- The number with the given bytes. -/
def toNat : Bytes → Nat
  | [] => 0
  | b :: bs => b.toNat + 256 * toNat bs

@[simp] theorem length_ofNat (width n : Nat) : (ofNat width n).length = width := by
  induction width generalizing n with
  | zero => rfl
  | succ width ih => simp [ofNat, ih]

/-- The bytes between separators are all but these. -/
theorem mem_splitOn {bs : Bytes} {a b : UInt8} :
    (∃ piece ∈ bs.splitOn a, b ∈ piece) ↔ b ∈ bs ∧ b ≠ a := by
  induction bs with
  | nil => simp
  | cons c bs ih =>
      rw [List.splitOn_cons_eq_if_modifyHead]
      cases hsplit : bs.splitOn a with
      | nil => exact absurd hsplit (List.splitOn_ne_nil _ _)
      | cons first others =>
          rw [hsplit] at ih
          simp only [List.mem_cons, exists_eq_or_imp] at ih
          split
          next heq =>
              rw [beq_iff_eq] at heq
              simp only [List.mem_cons, exists_eq_or_imp, ih, List.not_mem_nil, false_or]
              constructor
              · rintro ⟨hmem, hne⟩
                exact ⟨.inr hmem, hne⟩
              · rintro ⟨rfl | hmem, hne⟩
                · exact absurd heq hne
                · exact ⟨hmem, hne⟩
          next hne =>
              rw [beq_iff_eq] at hne
              simp only [List.modifyHead_cons, List.mem_cons, exists_eq_or_imp, or_assoc, ih]
              constructor
              · rintro (rfl | ⟨hmem, hneq⟩)
                · exact ⟨.inl rfl, hne⟩
                · exact ⟨.inr hmem, hneq⟩
              · rintro ⟨rfl | hmem, hneq⟩
                · exact .inl rfl
                · exact .inr ⟨hmem, hneq⟩

theorem toNat_ofNat (width n : Nat) : toNat (ofNat width n) = n % 256 ^ width := by
  induction width generalizing n with
  | zero => simp [ofNat, toNat, Nat.mod_one]
  | succ width ih =>
      have hlow : (UInt8.ofNat n).toNat = n % 256 := by simp
      rw [ofNat, toNat, ih, hlow, Nat.pow_succ', Nat.mod_mul]

theorem toNat_lt (bs : Bytes) : toNat bs < 256 ^ bs.length := by
  induction bs with
  | nil => exact Nat.one_pos
  | cons b bs ih =>
      have hb := b.toNat_lt
      rw [toNat, List.length_cons, Nat.pow_succ']
      omega

end Bytes

/-- A layout of `α` in `size` bytes. -/
structure Codec (α : Type) where
  size : Nat
  encode : α → Bytes
  decode : Bytes → α
  length_encode : ∀ a, (encode a).length = size
  decode_encode : ∀ a, decode (encode a) = a

namespace Codec

variable {α β : Type}

attribute [simp] length_encode decode_encode

/-- The layout of a record, from that of the tuple of its fields. -/
def map (c : Codec α) (toRecord : α → β) (ofRecord : β → α)
    (h : ∀ b, toRecord (ofRecord b) = b) : Codec β where
  size := c.size
  encode b := c.encode (ofRecord b)
  decode bs := toRecord (c.decode bs)
  length_encode b := c.length_encode _
  decode_encode b := by rw [c.decode_encode, h]

/-! ## Integers -/

/-- A bit vector of whole bytes. -/
def bitVec (width : Nat) : Codec (BitVec (8 * width)) where
  size := width
  encode x := Bytes.ofNat width x.toNat
  decode bs := BitVec.ofNat _ (Bytes.toNat bs)
  length_encode x := Bytes.length_ofNat _ _
  decode_encode x := by
    have hlt : x.toNat < 256 ^ width := by
      have h := x.isLt
      rwa [Nat.pow_mul] at h
    rw [Bytes.toNat_ofNat, Nat.mod_eq_of_lt hlt, BitVec.ofNat_toNat, BitVec.setWidth_eq]

def int8 : Codec Int8 := (bitVec 1).map (fun x => ⟨⟨x⟩⟩) Int8.toBitVec fun _ => rfl

def int16 : Codec Int16 := (bitVec 2).map (fun x => ⟨⟨x⟩⟩) Int16.toBitVec fun _ => rfl

def int32 : Codec Int32 := (bitVec 4).map (fun x => ⟨⟨x⟩⟩) Int32.toBitVec fun _ => rfl

def int64 : Codec Int64 := (bitVec 8).map (fun x => ⟨⟨x⟩⟩) Int64.toBitVec fun _ => rfl

def uint16 : Codec UInt16 := (bitVec 2).map (fun x => ⟨x⟩) UInt16.toBitVec fun _ => rfl

def uint32 : Codec UInt32 := (bitVec 4).map (fun x => ⟨x⟩) UInt32.toBitVec fun _ => rfl

/-- A `bool` is a byte. -/
def bool : Codec Bool where
  size := 1
  encode b := [if b then 1 else 0]
  decode bs := bs.headD 0 ≠ 0
  length_encode _ := rfl
  decode_encode b := by cases b <;> rfl

/-! ## Packed records -/

/-- Two values, one after the other. -/
def pair (c : Codec α) (d : Codec β) : Codec (α × β) where
  size := c.size + d.size
  encode x := c.encode x.1 ++ d.encode x.2
  decode bs := (c.decode (bs.take c.size), d.decode (bs.drop c.size))
  length_encode x := by simp
  decode_encode x := by
    rw [List.take_left' (c.length_encode _), List.drop_left' (c.length_encode _)]
    simp

/-- The value at position `i` of consecutive values. -/
def slot (c : Codec α) (i : Nat) (bs : Bytes) : α := c.decode ((bs.drop (i * c.size)).take c.size)

theorem length_flatMap_encode (c : Codec α) (xs : List α) :
    (xs.flatMap c.encode).length = xs.length * c.size := by
  induction xs with
  | nil => simp
  | cons x xs ih =>
      simp only [List.flatMap_cons, List.length_append, length_encode, ih, List.length_cons]
      ring

theorem slot_flatMap (c : Codec α) (xs : List α) (i : Nat) (h : i < xs.length) :
    c.slot i (xs.flatMap c.encode) = xs[i] := by
  induction xs generalizing i with
  | nil => cases h
  | cons x xs ih =>
      have hlen : (c.encode x).length = c.size := c.length_encode x
      cases i with
      | zero => simp [slot, List.take_left' hlen]
      | succ i =>
          have hdrop : ((x :: xs).flatMap c.encode).drop ((i + 1) * c.size) =
              (xs.flatMap c.encode).drop (i * c.size) := by
            rw [List.flatMap_cons, Nat.succ_mul, Nat.add_comm, ← List.drop_drop,
              List.drop_left' hlen]
          rw [slot]
          rw [hdrop]
          exact ih i (by simpa using h)

/-- A packed array. -/
def array (c : Codec α) (n : Nat) : Codec (Vector α n) where
  size := n * c.size
  encode xs := xs.toList.flatMap c.encode
  decode bs := Vector.ofFn fun i => c.slot i bs
  length_encode xs := by rw [length_flatMap_encode, Vector.length_toList]
  decode_encode xs := by
    ext i hi
    rw [Vector.getElem_ofFn, slot_flatMap c xs.toList i (by simpa using hi)]
    simp

/-! ## Streams -/

/-- Take a value off the front of a stream. -/
def read (c : Codec α) (bs : Bytes) : Option (α × Bytes) :=
  if bs.length < c.size then none else some (c.decode (bs.take c.size), bs.drop c.size)

@[simp] theorem read_encode (c : Codec α) (a : α) (rest : Bytes) :
    c.read (c.encode a ++ rest) = some (a, rest) := by
  have hlen : (c.encode a).length = c.size := c.length_encode a
  rw [read]
  rw [if_neg (by simp [hlen]), List.take_left' hlen, List.drop_left' hlen, decode_encode]

end Codec
