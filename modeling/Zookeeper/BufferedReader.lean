import Zookeeper.Bytes

/-!
# Reading through a buffer of fixed size

A `Reading` asks for values one by one, each by its length, and goes on with what it
gets.  It runs on a `Buffer`, which hands out the bytes it holds and, when they are too
few, moves them to the front and asks the file for as many bytes as the buffer is long.
Where those and the ones moved do not fit into it together, the run is lost, as it is
where a value is longer than what there is.

A reading that follows a list of values reads them back from their concatenation
exactly if their lengths fit (`Reading.Follows.run`): they can be cut into pieces
as long as the buffer, and at most two pieces at the end that are no longer.
-/

/-- A program that reads values of given lengths. -/
inductive Reading (α : Type) where
  | done (a : α)
  | fail
  | read (len : Nat) (next : Bytes → Reading α)

namespace Reading

variable {α β : Type}

def bind : Reading α → (α → Reading β) → Reading β
  | .done a, k => k a
  | .fail, _ => .fail
  | .read len next, k => .read len fun bs => (next bs).bind k

instance : Monad Reading where
  pure := .done
  bind := bind

/-- Read a value with a layout. -/
def value (c : Codec α) : Reading α := .read c.size fun bs => .done (c.decode bs)

/-- Given the values in order, the reading returns `a`. -/
inductive Follows : Reading α → List Bytes → α → Prop where
  | done {a : α} : Follows (.done a) [] a
  | read {len : Nat} {next : Bytes → Reading α} {v : Bytes} {vs : List Bytes} {a : α} :
      v.length = len → Follows (next v) vs a → Follows (.read len next) (v :: vs) a

namespace Follows

theorem pure (a : α) : Follows (Pure.pure a : Reading α) [] a := .done

theorem bind {r : Reading α} {k : α → Reading β} {vs ws : List Bytes} {a : α} {b : β}
    (h : Follows r vs a) (hk : Follows (k a) ws b) : Follows (r >>= k) (vs ++ ws) b := by
  induction h with
  | done => exact hk
  | read hlen _ ih => exact .read hlen (ih hk)

theorem value (c : Codec α) (a : α) : Follows (value c) [c.encode a] a := by
  refine .read (c.length_encode a) ?_
  rw [c.decode_encode]
  exact .done

end Follows

/-- Whatever the values are, a result has the property. -/
def Returns (P : α → Prop) : Reading α → Prop
  | .done a => P a
  | .fail => True
  | .read len next => ∀ v : Bytes, v.length = len → (next v).Returns P

theorem Returns.bind {P : α → Prop} {Q : β → Prop} {r : Reading α} {k : α → Reading β}
    (h : r.Returns P) (hk : ∀ a, P a → (k a).Returns Q) : (r >>= k).Returns Q := by
  induction r with
  | done a => exact hk a h
  | fail => trivial
  | read len next ih => exact fun v hv => ih v (h v hv)

theorem returns_value (c : Codec α) : (value c).Returns fun _ => True := fun _ _ => trivial

end Reading

/-! ## The buffer -/

/-- The bytes in a buffer that are not read, and the rest of its file. -/
structure Buffer where
  content : Bytes := []
  file : Bytes

namespace Buffer

/-- Read a value of a length through a buffer of a size. -/
def read (size : Nat) (b : Buffer) (len : Nat) : Option (Bytes × Buffer) :=
  if len ≤ b.content.length then
    some (b.content.take len, { b with content := b.content.drop len })
  else
    let chunk := b.file.take size
    -- the chunk is put behind the bytes left, whatever room there is
    if size < b.content.length + chunk.length then none
    else
      let content := b.content ++ chunk
      if content.length < len then none
      else some (content.take len, { content := content.drop len, file := b.file.drop size })

/-- Run a reading. -/
def run {α : Type} (size : Nat) : Reading α → Buffer → Option α
  | .done a, _ => some a
  | .fail, _ => none
  | .read len next, b =>
      match b.read size len with
      | some (v, b') => run size (next v) b'
      | none => none

theorem run_returns {α : Type} {P : α → Prop} {size : Nat} {r : Reading α} (h : r.Returns P)
    {b : Buffer} {a : α} (hrun : run size r b = some a) : P a := by
  induction r generalizing b with
  | done a' =>
      obtain rfl := Option.some.inj hrun
      exact h
  | fail => cases hrun
  | read len next ih =>
      rw [run] at hrun
      split at hrun
      next v b' hread =>
        refine ih v (h v ?_) hrun
        rw [Buffer.read] at hread
        split at hread
        next hle =>
          cases hread
          exact List.length_take_of_le hle
        next =>
          simp only at hread
          split at hread
          next => cases hread
          next =>
            split at hread
            next => cases hread
            next hlen =>
              cases hread
              exact List.length_take_of_le (Nat.le_of_not_lt hlen)
      next => cases hrun

/-! ## Lengths that fit -/

/-- Lengths in pieces of exactly the size of the buffer, and at most two at the end that
are no longer. -/
inductive Fits (size : Nat) : List Nat → Prop where
  | short {a b : List Nat} : a.sum ≤ size → b.sum ≤ size → Fits size (a ++ b)
  | piece {a b : List Nat} : a.sum = size → Fits size b → Fits size (a ++ b)

/-- The same with some bytes of the first piece in the buffer. -/
def FitsFrom (size held : Nat) (lens : List Nat) : Prop :=
  (∃ a b, lens = a ++ b ∧ a.sum ≤ held ∧ b.sum ≤ size) ∨
    ∃ a b, lens = a ++ b ∧ a.sum = held ∧ Fits size b

section Fits

variable {size held n : Nat} {ns : List Nat}

theorem fits_cons_zero (pos : 0 < size) : Fits size (0 :: ns) ↔ Fits size ns := by
  constructor
  · generalize hlens : 0 :: ns = lens
    intro h
    cases h with
    | @short a b ha hb =>
        cases a with
        | nil =>
            subst hlens
            exact .short (a := []) (Nat.zero_le _) (by simpa using hb)
        | cons m a =>
            rw [List.cons_append, List.cons.injEq] at hlens
            obtain ⟨rfl, rfl⟩ := hlens
            exact .short (by simpa using ha) hb
    | @piece a b ha hb =>
        cases a with
        | nil => exact absurd ha pos.ne
        | cons m a =>
            rw [List.cons_append, List.cons.injEq] at hlens
            obtain ⟨rfl, rfl⟩ := hlens
            exact .piece (by simpa using ha) hb
  · intro h
    cases h with
    | @short a b ha hb => exact .short (a := 0 :: a) (by simpa using ha) hb
    | @piece a b ha hb => exact .piece (a := 0 :: a) (by simpa using ha) hb

/-- What is all in the buffer fits. -/
theorem FitsFrom.all (h : ns.sum ≤ held) : FitsFrom size held ns :=
  .inl ⟨ns, [], (List.append_nil ns).symm, h, Nat.zero_le _⟩

/-- With nothing in the buffer. -/
theorem fitsFrom_zero (pos : 0 < size) : FitsFrom size 0 ns ↔ Fits size ns := by
  refine ⟨?_, fun h => .inr ⟨[], ns, rfl, rfl, h⟩⟩
  rintro (⟨a, b, rfl, ha, hb⟩ | ⟨a, b, rfl, ha, hb⟩)
  · exact .short (ha.trans (Nat.zero_le _)) hb
  · induction a with
    | nil => exact hb
    | cons m a ih =>
        rw [List.sum_cons, Nat.add_eq_zero_iff] at ha
        obtain ⟨rfl, ha⟩ := ha
        exact (fits_cons_zero pos).2 (ih ha)

/-- A value that is in the buffer. -/
theorem fitsFrom_held (pos : 0 < size) (h : n ≤ held) :
    FitsFrom size held (n :: ns) ↔ FitsFrom size (held - n) ns := by
  constructor
  · rintro (⟨a, b, hlens, ha, hb⟩ | ⟨a, b, hlens, ha, hb⟩)
    · cases a with
      | nil =>
          subst hlens
          rw [List.sum_cons] at hb
          exact .inl ⟨[], ns, rfl, Nat.zero_le _, by omega⟩
      | cons m a =>
          rw [List.cons_append, List.cons.injEq] at hlens
          obtain ⟨rfl, rfl⟩ := hlens
          rw [List.sum_cons] at ha
          exact .inl ⟨a, b, rfl, by omega, hb⟩
    · cases a with
      | nil =>
          subst hlens
          obtain rfl : held = 0 := ha.symm
          obtain rfl : n = 0 := Nat.le_zero.1 h
          exact .inr ⟨[], ns, rfl, rfl, (fits_cons_zero pos).1 hb⟩
      | cons m a =>
          rw [List.cons_append, List.cons.injEq] at hlens
          obtain ⟨rfl, rfl⟩ := hlens
          rw [List.sum_cons] at ha
          exact .inr ⟨a, b, rfl, by omega, hb⟩
  · rintro (⟨a, b, rfl, ha, hb⟩ | ⟨a, b, rfl, ha, hb⟩)
    · exact .inl ⟨n :: a, b, rfl, by rw [List.sum_cons]; omega, hb⟩
    · exact .inr ⟨n :: a, b, rfl, by rw [List.sum_cons]; omega, hb⟩

/-- A value that is asked for with nothing in the buffer. -/
theorem fitsFrom_refill (ns : List Nat) (pos : 0 < size) (some : 0 < n) :
    FitsFrom size 0 (n :: ns) ↔
      n ≤ size ∧ FitsFrom size (min size (n + ns.sum) - n) ns := by
  rw [fitsFrom_zero pos]
  constructor
  · generalize hlens : n :: ns = lens
    intro h
    have hall : n + ns.sum ≤ size → n ≤ size ∧ FitsFrom size (min size (n + ns.sum) - n) ns :=
      fun hle => ⟨by omega, .all (by omega)⟩
    cases h with
    | @short a b ha hb =>
        cases a with
        | nil =>
            subst hlens
            exact hall (by simpa using hb)
        | cons m a =>
            rw [List.cons_append, List.cons.injEq] at hlens
            obtain ⟨rfl, rfl⟩ := hlens
            rw [List.sum_cons] at ha
            refine ⟨by omega, .inl ⟨a, b, rfl, ?_, hb⟩⟩
            rw [List.sum_append]
            omega
    | @piece a b ha hb =>
        cases a with
        | nil => exact absurd ha pos.ne
        | cons m a =>
            rw [List.cons_append, List.cons.injEq] at hlens
            obtain ⟨rfl, rfl⟩ := hlens
            rw [List.sum_cons] at ha
            refine ⟨by omega, .inr ⟨a, b, rfl, ?_, hb⟩⟩
            rw [List.sum_append]
            omega
  · rintro ⟨hle, ⟨a, b, rfl, ha, hb⟩ | ⟨a, b, rfl, ha, hb⟩⟩
    · exact .short (a := n :: a) (by rw [List.sum_cons]; omega) hb
    · rw [List.sum_append] at ha
      by_cases hfull : size ≤ n + (a.sum + b.sum)
      · exact .piece (a := n :: a) (by rw [List.sum_cons]; omega) hb
      · exact .short (a := n :: a) (by rw [List.sum_cons]; omega) (by omega)

/-- A value that is only partly in the buffer. -/
theorem fitsFrom_straddle (ns : List Nat) (some : 0 < held) (h : held < n) :
    FitsFrom size held (n :: ns) ↔ n + ns.sum ≤ size := by
  constructor
  · rintro (⟨a, b, hlens, ha, hb⟩ | ⟨a, b, hlens, ha, hb⟩)
    · cases a with
      | nil =>
          subst hlens
          simpa using hb
      | cons m a =>
          rw [List.cons_append, List.cons.injEq] at hlens
          obtain ⟨rfl, rfl⟩ := hlens
          rw [List.sum_cons] at ha
          omega
    · cases a with
      | nil => exact absurd ha some.ne
      | cons m a =>
          rw [List.cons_append, List.cons.injEq] at hlens
          obtain ⟨rfl, rfl⟩ := hlens
          rw [List.sum_cons] at ha
          omega
  · exact fun hle => .inl ⟨[], n :: ns, rfl, Nat.zero_le _, by rwa [List.sum_cons]⟩

end Fits

/-! ## Reading values back -/

variable {size : Nat}

/-- A read for which the buffer holds too little. -/
theorem read_refill {b : Buffer} {len : Nat} (h : ¬ len ≤ b.content.length) :
    b.read size len =
      if size < b.content.length + (b.file.take size).length ∨
          (b.content ++ b.file.take size).length < len then none
      else some ((b.content ++ b.file.take size).take len,
        ⟨(b.content ++ b.file.take size).drop len, b.file.drop size⟩) := by
  rw [read, if_neg h]
  simp only
  split
  next hover => rw [if_pos (.inl hover)]
  next hover =>
    split
    next hlong => rw [if_pos (.inr hlong)]
    next hlong => rw [if_neg (not_or.2 ⟨hover, hlong⟩)]

theorem split_front {x y v w : Bytes} (h : x ++ y = v ++ w) (hle : v.length ≤ x.length) :
    x.take v.length = v ∧ x.drop v.length ++ y = w := by
  constructor
  · have htake := congrArg (List.take v.length) h
    rwa [List.take_append_of_le_length hle, List.take_left] at htake
  · have hdrop := congrArg (List.drop v.length) h
    rwa [List.drop_append_of_le_length hle, List.drop_left] at hdrop

/-- A buffer in front of values. -/
structure Holds (size : Nat) (b : Buffer) (vs : List Bytes) : Prop where
  bytes : b.content ++ b.file = vs.flatten
  room : b.content.length ≤ size

theorem Holds.length {b : Buffer} {vs : List Bytes} (h : b.Holds size vs) :
    b.content.length + b.file.length = (vs.map List.length).sum := by
  rw [← List.length_append, h.bytes, List.length_flatten]

/-- The next value is read, with the buffer in front of the rest, or the lengths do not
fit. -/
theorem Holds.read (pos : 0 < size) {b : Buffer} {v : Bytes} {vs : List Bytes}
    (h : b.Holds size (v :: vs)) :
    (∃ b', b.read size v.length = some (v, b') ∧ b'.Holds size vs ∧
      (FitsFrom size b.content.length ((v :: vs).map List.length) ↔
        FitsFrom size b'.content.length (vs.map List.length))) ∨
    b.read size v.length = none ∧
      ¬ FitsFrom size b.content.length ((v :: vs).map List.length) := by
  have hlength := h.length
  have hroom := h.room
  have hbytes := h.bytes
  rw [List.flatten_cons] at hbytes
  rw [List.map_cons] at hlength ⊢
  rw [List.sum_cons] at hlength
  by_cases hheld : v.length ≤ b.content.length
  · rw [Buffer.read, if_pos hheld]
    obtain ⟨htake, hrest⟩ := split_front hbytes hheld
    refine .inl ⟨_, by rw [htake], ⟨hrest, ?_⟩, ?_⟩
    · show (b.content.drop v.length).length ≤ size
      rw [List.length_drop]
      omega
    · show _ ↔ FitsFrom size (b.content.drop v.length).length _
      rw [List.length_drop]
      exact fitsFrom_held pos hheld
  · have hchunk : (b.file.take size).length = min size b.file.length := List.length_take
    have hboth : (b.content ++ b.file.take size).length =
        b.content.length + min size b.file.length := by
      rw [List.length_append, hchunk]
    have hstraddle := fun hsome =>
      @fitsFrom_straddle size _ _ (vs.map List.length) hsome (Nat.lt_of_not_le hheld)
    have hrefill := fitsFrom_refill (n := v.length) (vs.map List.length) pos
    rw [read_refill hheld]
    split
    next hlost =>
      refine .inr ⟨rfl, fun hfits => ?_⟩
      by_cases hempty : b.content.length = 0
      · -- nothing is moved, so the chunk has room and the value is too long
        rw [hempty, hrefill (by omega)] at hfits
        omega
      · -- the rest of the file has no room behind the bytes moved
        have hwhole := (hstraddle (Nat.pos_of_ne_zero hempty)).1 hfits
        omega
    next hread =>
      have hsplit : b.content ++ b.file.take size ++ b.file.drop size = v ++ vs.flatten := by
        rw [List.append_assoc, List.take_append_drop, hbytes]
      obtain ⟨htake, hrest⟩ := split_front hsplit (by omega)
      have hleft : ((b.content ++ b.file.take size).drop v.length).length =
          b.content.length + min size b.file.length - v.length := by
        rw [List.length_drop, hboth]
      refine .inl ⟨⟨_, _⟩, by rw [htake], ⟨hrest, ?_⟩, ?_⟩
      · show ((b.content ++ b.file.take size).drop v.length).length ≤ size
        omega
      · show _ ↔ FitsFrom size ((b.content ++ b.file.take size).drop v.length).length _
        rw [hleft]
        by_cases hempty : b.content.length = 0
        · have hfile : b.file.length = v.length + (vs.map List.length).sum := by omega
          rw [hempty, hrefill (by omega), hfile, Nat.zero_add]
          exact and_iff_right (by omega)
        · rw [hstraddle (Nat.pos_of_ne_zero hempty)]
          exact iff_of_true (by omega) (.all (by omega))

/-- A reading reads its values back exactly if their lengths fit. -/
theorem Holds.run (pos : 0 < size) {α : Type} {r : Reading α} {vs : List Bytes} {a : α}
    (h : r.Follows vs a) {b : Buffer} (hb : b.Holds size vs) :
    (FitsFrom size b.content.length (vs.map List.length) → run size r b = some a) ∧
      (¬ FitsFrom size b.content.length (vs.map List.length) → run size r b = none) := by
  induction h generalizing b with
  | done => exact ⟨fun _ => rfl, fun h => absurd (.all (Nat.zero_le _)) h⟩
  | @read len next v vs a hlen _ ih =>
      subst hlen
      rw [Buffer.run]
      rcases hb.read pos with ⟨b', hread, hb', hiff⟩ | ⟨hread, hnot⟩
      · rw [hread, hiff]
        exact ih hb'
      · rw [hread]
        exact ⟨fun hfits => absurd hfits hnot, fun _ => rfl⟩

end Buffer

/-- Reading values back from the file that holds them. -/
theorem Reading.Follows.run {α : Type} {size : Nat} (pos : 0 < size) {r : Reading α}
    {vs : List Bytes} {a : α} (h : r.Follows vs a) :
    (Buffer.Fits size (vs.map List.length) → Buffer.run size r { file := vs.flatten } = some a) ∧
      (¬ Buffer.Fits size (vs.map List.length) →
        Buffer.run size r { file := vs.flatten } = none) := by
  have hholds : ({ file := vs.flatten } : Buffer).Holds size vs := ⟨rfl, Nat.zero_le _⟩
  rw [← Buffer.fitsFrom_zero pos]
  exact hholds.run pos h
