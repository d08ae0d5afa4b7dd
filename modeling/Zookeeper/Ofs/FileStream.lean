import Zookeeper.BufferedReader

/-!
# Reading a file through `BufferFileStream`

`olib::BufferFileStream` has a buffer `_content` of fixed size, of which `_size` bytes are
filled and `_pos` are read.  A read for which too few are left moves those to the front
and reads as many bytes from the file as the buffer is long, behind them.  So it writes
past the buffer where some bytes were left and the file goes on for long enough.
The end of the file is taken to be where the buffer ends.

`plainReads_iff` says for which files and reads the stream does what plain reads of the
file do.  `read_buffer` relates it to the `Buffer` that the archivers read through.
-/

namespace Ofs

/-- `olib::BufferFileStream`: the bytes of `_content` up to `_size`, `_pos`, what the file
still has, and the state of the stream. -/
structure BufferFileStream where
  content : Bytes := []
  pos : Nat := 0
  file : Bytes
  bad : Bool := false
  eof : Bool := false
deriving DecidableEq, Repr

namespace BufferFileStream

/-- `BufferFileStream::read_from_stream`.  There is no result where it writes past
`_content`. -/
def readFromStream (size : Nat) (s : BufferFileStream) : Option BufferFileStream :=
  let left := s.content.drop s.pos
  let chunk := s.file.take size
  if left.length + chunk.length ≤ size then
    some { s with content := left ++ chunk, pos := 0, file := s.file.drop size }
  else none

/-- `BufferFileStream::read` behind the refill, with the bytes it copies. -/
def copy (s : BufferFileStream) (len : Nat) : Option Bytes × BufferFileStream :=
  if s.content.length < s.pos + len then (none, { s with bad := true })
  else
    (some ((s.content.drop s.pos).take len),
      { s with pos := s.pos + len, eof := s.eof || s.pos + len == s.content.length })

/-- `BufferFileStream::read`. -/
def read (size : Nat) (s : BufferFileStream) (len : Nat) :
    Option (Option Bytes × BufferFileStream) :=
  if s.content.length < s.pos + len then (s.readFromStream size).map fun s => s.copy len
  else some (s.copy len)

/-! ## Plain reads -/

/-- What a plain read leaves of the bytes ahead.  One that asks for more takes nothing. -/
def plainLeft (left : Bytes) (len : Nat) : Bytes :=
  if len ≤ left.length then left.drop len else left

/-- A read does what a plain one does with the bytes ahead. -/
structure PlainRead (size : Nat) (left : Bytes) (len : Nat) (s : BufferFileStream)
    (out : Option Bytes) (s' : BufferFileStream) : Prop where
  bytes : out = if len ≤ left.length then some (left.take len) else none
  bad : s'.bad = (s.bad || decide (left.length < len))
  eof : s'.eof = true → s.eof = true ∨ plainLeft left len = []
  pos : s'.pos ≤ s'.content.length
  room : s'.content.length ≤ size

/-- What matters of the stream before a read is its state. -/
theorem PlainRead.of_state {size len : Nat} {left : Bytes} {s t s' : BufferFileStream}
    {out : Option Bytes} (h : PlainRead size left len t out s') (bad : s.bad = t.bad)
    (eof : s.eof = t.eof) : PlainRead size left len s out s' where
  bytes := h.bytes
  bad := bad ▸ h.bad
  eof := eof ▸ h.eof
  pos := h.pos
  room := h.room

/-- A sequence of reads does what plain ones do, and none writes past the buffer. -/
def PlainReads (size : Nat) : BufferFileStream → Bytes → List Nat → Prop
  | _, _, [] => True
  | s, left, len :: lens =>
      match s.read size len with
      | some (out, s') => PlainRead size left len s out s' ∧
          PlainReads size s' (plainLeft left len) lens
      | none => False

/-- From a position in a full buffer, with `more` bytes behind it: no read ends where the
buffer does, and the one that goes on behind it does not start before as many bytes are
read from the buffer as are behind it. -/
def AlignedFrom (size pos more : Nat) (lens : List Nat) : Prop :=
  ∀ before len after, lens = before ++ len :: after → pos + before.sum < size →
    pos + before.sum + len ≠ size ∧ (size < pos + before.sum + len → more ≤ pos + before.sum)

/-- The first read asks for something, unless the file is empty, and the file fits into
the buffer or the reads are aligned. -/
def Aligned (size length : Nat) (lens : List Nat) : Prop :=
  (lens.head? = some 0 → length = 0) ∧ (length ≤ size ∨ AlignedFrom size 0 (length - size) lens)

theorem alignedFrom_of_le {size pos : Nat} (more : Nat) (lens : List Nat) (h : size ≤ pos) :
    AlignedFrom size pos more lens := fun _ _ _ _ hlt => by omega

theorem alignedFrom_nil (size pos more : Nat) : AlignedFrom size pos more [] :=
  fun _ _ _ hsplit => absurd hsplit.symm
    (List.append_ne_nil_of_right_ne_nil _ (List.cons_ne_nil _ _))

theorem alignedFrom_cons {size pos more len : Nat} {lens : List Nat} :
    AlignedFrom size pos more (len :: lens) ↔
      (pos < size → pos + len ≠ size ∧ (size < pos + len → more ≤ pos)) ∧
        AlignedFrom size (pos + len) more lens := by
  constructor
  · intro h
    refine ⟨fun hlt => h [] len lens rfl hlt, ?_⟩
    rintro before n after rfl hlt
    have hsum : (len :: before).sum = len + before.sum := List.sum_cons
    have hn := h (len :: before) n after rfl
    rw [hsum, ← Nat.add_assoc] at hn
    exact hn hlt
  · rintro ⟨hfirst, hrest⟩ before n after hsplit hlt
    cases before with
    | nil =>
        rw [List.nil_append, List.cons.injEq] at hsplit
        obtain ⟨rfl, rfl⟩ := hsplit
        exact hfirst hlt
    | cons m before =>
        rw [List.cons_append, List.cons.injEq] at hsplit
        obtain ⟨rfl, rfl⟩ := hsplit
        rw [List.sum_cons, ← Nat.add_assoc] at hlt ⊢
        exact hrest before n after rfl hlt

theorem plainLeft_of_le {left : Bytes} {len : Nat} (h : len ≤ left.length) :
    plainLeft left len = left.drop len := if_pos h

theorem plainLeft_of_lt {left : Bytes} {len : Nat} (h : left.length < len) :
    plainLeft left len = left := if_neg (Nat.not_le.2 h)

/-! ## A stream in its file -/

/-- The bytes ahead are those left in the buffer and in the file. -/
structure Ahead (size : Nat) (s : BufferFileStream) (left : Bytes) : Prop where
  bytes : s.content.drop s.pos ++ s.file = left
  pos : s.pos ≤ s.content.length
  room : s.content.length ≤ size

section Steps

variable {size len : Nat} {s : BufferFileStream} {left : Bytes}

namespace Ahead

theorem length (h : s.Ahead size left) :
    s.content.length - s.pos + s.file.length = left.length := by
  rw [← h.bytes, List.length_append, List.length_drop]

/-- A refill that has room. -/
theorem refill (h : s.Ahead size left)
    (fits : s.content.length - s.pos + min size s.file.length ≤ size) :
    s.readFromStream size = some { s with
      content := s.content.drop s.pos ++ s.file.take size, pos := 0,
      file := s.file.drop size } ∧
    Ahead size { s with
      content := s.content.drop s.pos ++ s.file.take size, pos := 0,
      file := s.file.drop size } left := by
  have hlength : (s.content.drop s.pos).length + (s.file.take size).length ≤ size := by
    rw [List.length_drop, List.length_take]
    exact fits
  refine ⟨if_pos hlength, ?_, Nat.zero_le _, ?_⟩
  · show (s.content.drop s.pos ++ s.file.take size).drop 0 ++ s.file.drop size = left
    rw [List.drop_zero, List.append_assoc, List.take_append_drop, h.bytes]
  · show (s.content.drop s.pos ++ s.file.take size).length ≤ size
    rwa [List.length_append]

/-- The bytes copied are the next ones, unless all that the file has are too few. -/
theorem copy (h : s.Ahead size left)
    (whole : s.content.length < s.pos + len → s.file = []) :
    (s.copy len).1 = (if len ≤ left.length then some (left.take len) else none) ∧
    (s.copy len).2.bad = (s.bad || decide (left.length < len)) ∧
    Ahead size (s.copy len).2 (plainLeft left len) := by
  have hlength := h.length
  have hpos := h.pos
  rw [BufferFileStream.copy]
  split
  next short =>
    rw [whole short, List.length_nil] at hlength
    have hlt : left.length < len := by omega
    rw [if_neg (Nat.not_le.2 hlt), plainLeft_of_lt hlt, decide_eq_true hlt, Bool.or_true]
    exact ⟨rfl, rfl, h.bytes, h.pos, h.room⟩
  next held =>
    have hle : len ≤ left.length := by omega
    have hin : len ≤ (s.content.drop s.pos).length := by
      rw [List.length_drop]
      omega
    rw [if_pos hle, plainLeft_of_le hle, decide_eq_false (Nat.not_lt.2 hle), Bool.or_false]
    refine ⟨?_, rfl, ?_, Nat.le_of_not_lt held, h.room⟩
    · rw [← h.bytes, List.take_append_of_le_length hin]
    · show s.content.drop (s.pos + len) ++ s.file = left.drop len
      rw [← h.bytes, List.drop_append_of_le_length hin, List.drop_drop]

/-- The copy is plain if the file has nothing left where too few bytes are in the buffer
and where they are the last ones of it. -/
theorem plain (h : s.Ahead size left) (whole : s.content.length ≤ s.pos + len → s.file = []) :
    PlainRead size left len s (s.copy len).1 (s.copy len).2 := by
  have hshort : s.content.length < s.pos + len → s.file = [] := fun hlt => whole hlt.le
  obtain ⟨hbytes, hbad, hnext⟩ := h.copy hshort
  refine ⟨hbytes, hbad, fun heof => ?_, hnext.pos, hnext.room⟩
  have hlength := h.length
  have hpos := h.pos
  rw [BufferFileStream.copy] at heof
  split at heof
  next => exact .inl heof
  next held =>
    refine (Bool.or_eq_true_iff.1 heof).imp id fun hend => ?_
    rw [whole (beq_iff_eq.1 hend).ge, List.length_nil] at hlength
    have hall := beq_iff_eq.1 hend
    rw [plainLeft_of_le (by omega), List.drop_eq_nil_iff]
    omega

end Ahead

theorem file_copy : (s.copy len).2.file = s.file := by
  rw [copy]
  split <;> rfl

/-- A copy that leaves something in the buffer. -/
theorem copy_inside (h : s.pos + len < s.content.length) :
    (s.copy len).2 = { s with pos := s.pos + len } := by
  have hend : (s.pos + len == s.content.length) = false := beq_eq_false_iff_ne.2 h.ne
  rw [copy, if_neg (Nat.not_lt.2 h.le), hend, Bool.or_false]

theorem read_held (h : s.pos + len ≤ s.content.length) : s.read size len = some (s.copy len) :=
  if_neg (Nat.not_lt.2 h)

/-- A read that writes past the buffer. -/
theorem read_overrun (short : s.content.length < s.pos + len)
    (overrun : size < s.content.length - s.pos + min size s.file.length) :
    s.read size len = none := by
  have hlength : ¬ (s.content.drop s.pos).length + (s.file.take size).length ≤ size := by
    rw [List.length_drop, List.length_take]
    exact Nat.not_le.2 overrun
  rw [read, if_pos short, readFromStream]
  simp only [if_neg hlength, Option.map_none]

/-- A read behind a refill. -/
theorem Ahead.read_refill (h : s.Ahead size left) (short : s.content.length < s.pos + len)
    (fits : s.content.length - s.pos + min size s.file.length ≤ size) :
    s.read size len = some (BufferFileStream.copy { s with
      content := s.content.drop s.pos ++ s.file.take size, pos := 0,
      file := s.file.drop size } len) := by
  rw [read, if_pos short, (h.refill fits).1, Option.map_some]

/-! ## The last bytes of the file -/

/-- Once the file has nothing left, reads are plain. -/
theorem plainReads_whole (lens : List Nat) (h : s.Ahead size left) (whole : s.file = []) :
    PlainReads size s left lens := by
  induction lens generalizing s left with
  | nil => trivial
  | cons len lens ih =>
      rw [PlainReads]
      by_cases held : s.pos + len ≤ s.content.length
      · rw [read_held held]
        exact ⟨h.plain fun _ => whole, ih (h.copy fun _ => whole).2.2 (file_copy.trans whole)⟩
      · -- what is left is moved to the front, and nothing comes behind it
        have hroom := h.room
        have hfits : s.content.length - s.pos + min size s.file.length ≤ size := by
          rw [whole, List.length_nil]
          omega
        have hnil : s.file.drop size = [] := by rw [whole, List.drop_nil]
        have hfront := (h.refill hfits).2
        rw [h.read_refill (Nat.lt_of_not_le held) hfits]
        exact ⟨(hfront.plain fun _ => hnil).of_state rfl rfl,
          ih (hfront.copy fun _ => hnil).2.2 (file_copy.trans hnil)⟩

/-- The reads from one on that reads the file to its end. -/
theorem plainReads_last (lens : List Nat) (h : s.Ahead size left)
    (short : s.content.length < s.pos + len)
    (fits : s.content.length - s.pos + min size s.file.length ≤ size)
    (ends : s.file.length ≤ size) : PlainReads size s left (len :: lens) := by
  have hnil : s.file.drop size = [] := List.drop_eq_nil_iff.2 ends
  have hfront := (h.refill fits).2
  rw [PlainReads, h.read_refill short fits]
  exact ⟨(hfront.plain fun _ => hnil).of_state rfl rfl,
    plainReads_whole lens (hfront.copy fun _ => hnil).2.2 (file_copy.trans hnil)⟩

/-! ## The first bytes of the file -/

/-- From a full buffer, with more of the file behind it. -/
theorem plainReads_full (lens : List Nat) (h : s.Ahead size left) (start : s.eof = false)
    (full : s.content.length = size) (inside : s.pos < size) (more : s.file ≠ []) :
    PlainReads size s left lens ↔ AlignedFrom size s.pos s.file.length lens := by
  induction lens generalizing s left with
  | nil => exact iff_of_true trivial (alignedFrom_nil _ _ _)
  | cons len lens ih =>
      have hlength := h.length
      rw [alignedFrom_cons]
      rcases Nat.lt_trichotomy (s.pos + len) size with hlt | hend | hgt
      · have hinside : s.pos + len < s.content.length := full.symm ▸ hlt
        have hshort : s.content.length ≤ s.pos + len → s.file = [] := fun hge =>
          absurd hge (Nat.not_le.2 hinside)
        have hnext := (h.copy fun hge => hshort hge.le).2.2
        rw [copy_inside hinside] at hnext
        have hrest : PlainReads size (s.copy len).2 (plainLeft left len) lens ↔
            AlignedFrom size (s.pos + len) s.file.length lens := by
          rw [copy_inside hinside]
          exact ih hnext start full hlt more
        rw [PlainReads, read_held hinside.le]
        show PlainRead size left len s (s.copy len).1 (s.copy len).2 ∧
          PlainReads size (s.copy len).2 (plainLeft left len) lens ↔ _
        rw [hrest]
        refine and_congr_left' (iff_of_true (h.plain hshort) ?_)
        exact fun _ => ⟨hlt.ne, fun hgt => absurd hgt hlt.not_gt⟩
      · -- the end of the buffer is taken for that of the file
        refine iff_of_false ?_ fun haligned => (haligned.1 inside).1 hend
        have hfile := List.length_pos_iff.2 more
        rw [PlainReads, read_held (hend.trans full.symm).le]
        rintro ⟨hplain, -⟩
        have heof : (s.copy len).2.eof = true := by
          rw [copy, if_neg (by omega), full, hend, beq_self_eq_true, Bool.or_true]
        rcases hplain.eof heof with hstart | hnil
        · exact absurd hstart (Bool.eq_false_iff.1 start)
        · rw [plainLeft_of_le (by omega), List.drop_eq_nil_iff] at hnil
          omega
      · have hshort : s.content.length < s.pos + len := full.symm ▸ hgt
        by_cases hroom : s.file.length ≤ s.pos
        · refine iff_of_true ?_ ⟨fun _ => ⟨hgt.ne', fun _ => hroom⟩, alignedFrom_of_le _ _ hgt.le⟩
          exact plainReads_last lens h hshort (by omega) (by omega)
        · refine iff_of_false ?_ fun haligned => hroom ((haligned.1 inside).2 hgt)
          rw [PlainReads, read_overrun hshort (by omega)]
          exact not_false

end Steps

/-! ## Any file -/

/-- The reads of a sequence return what plain reads of the file do, with the stream bad
where these fall short and at its end where these are, and stay in the buffer, exactly if
they are aligned. -/
theorem plainReads_iff (size : Nat) (file : Bytes) (lens : List Nat)
    (short : ∀ len ∈ lens, len ≤ size) :
    PlainReads size { file := file } file lens ↔ Aligned size file.length lens := by
  have hstart : Ahead size { file := file } file := ⟨rfl, Nat.zero_le _, Nat.zero_le _⟩
  cases lens with
  | nil =>
      have haligned : Aligned size file.length [] := by
        refine ⟨fun hhead => ?_, .inr (alignedFrom_nil _ _ _)⟩
        cases hhead
      exact iff_of_true trivial haligned
  | cons len lens =>
      have hle := short len List.mem_cons_self
      rcases Nat.eq_zero_or_pos len with rfl | hpos
      · -- nothing is asked for, and the empty buffer is at its end
        rw [Aligned]
        cases file with
        | nil => exact iff_of_true (plainReads_whole _ hstart rfl) ⟨fun _ => rfl, .inl (by simp)⟩
        | cons b file =>
            refine iff_of_false ?_ fun haligned => Nat.succ_ne_zero _ (haligned.1 rfl)
            rw [PlainReads, read_held (Nat.le_refl 0)]
            rintro ⟨hplain, -⟩
            rcases hplain.eof rfl with hstart | hnil
            · exact Bool.false_ne_true hstart
            · rw [plainLeft_of_le (Nat.zero_le _), List.drop_zero] at hnil
              exact List.cons_ne_nil _ _ hnil
      · have hhead : (len :: lens).head? = some 0 → file.length = 0 := fun hhead =>
          absurd (Option.some.inj hhead) hpos.ne'
        rw [Aligned, and_iff_right hhead]
        have hempty : ({ file := file } : BufferFileStream).content.length < 0 + len := by
          rwa [Nat.zero_add]
        have hfits : 0 - 0 + min size file.length ≤ size := by omega
        by_cases hwhole : file.length ≤ size
        · exact iff_of_true (plainReads_last lens hstart hempty hfits hwhole) (.inl hwhole)
        · -- the reads are those from the full buffer on
          have hmore : file.drop size ≠ [] := mt List.drop_eq_nil_iff.1 hwhole
          have hlength : (file.take size).length = size :=
            List.length_take_of_le (Nat.le_of_not_le hwhole)
          have hfull := plainReads_full (len :: lens) (hstart.refill hfits).2 rfl hlength
            (Nat.lt_of_lt_of_le hpos hle) hmore
          rw [List.length_drop] at hfull
          have hheld : 0 + len ≤ (file.take size).length := by
            rwa [Nat.zero_add, hlength]
          rw [or_iff_right hwhole, ← hfull, PlainReads, PlainReads,
            hstart.read_refill hempty hfits, read_held hheld]
          exact and_congr_left' ⟨fun h => h.of_state rfl rfl, fun h => h.of_state rfl rfl⟩

/-- The second read goes on behind the buffer, and the third finds too little. -/
theorem plainReads_seven : PlainReads 4 { file := [1, 2, 3, 4, 5, 6, 7] } [1, 2, 3, 4, 5, 6, 7]
    [3, 4, 1] := by
  refine (plainReads_iff 4 [1, 2, 3, 4, 5, 6, 7] [3, 4, 1] (by decide)).2 ?_
  simp [Aligned, alignedFrom_cons, alignedFrom_nil]

/-- The second read writes two bytes past the buffer. -/
theorem straddling_read_overruns : ¬ ∀ (size : Nat) (file : Bytes) (lens : List Nat),
    (∀ len ∈ lens, len ≤ size) → PlainReads size { file := file } file lens := by
  intro h
  exact (h 4 [1, 2, 3, 4, 5, 6, 7, 8, 9] [3, 3] (by decide)).2

/-! ## The buffer of the archivers -/

/-- The stream as a `Buffer`. -/
def buffer (s : BufferFileStream) : Buffer := { content := s.content.drop s.pos, file := s.file }

/-- The stream reads what its buffer does, with a read that falls short for one that is
lost. -/
theorem read_buffer {size : Nat} {s : BufferFileStream} {left : Bytes}
    (h : s.Ahead size left) (len : Nat) :
    s.buffer.read size len =
      (s.read size len).bind fun r => r.1.map fun bytes => (bytes, r.2.buffer) := by
  have hpos := h.pos
  have hheld : s.buffer.content.length = s.content.length - s.pos := List.length_drop
  by_cases held : s.pos + len ≤ s.content.length
  · rw [read_held held, Buffer.read, if_pos (by omega), Option.bind_some, copy,
      if_neg (Nat.not_lt.2 held)]
    simp only [Option.map_some, buffer, List.drop_drop]
  · have hshort := Nat.lt_of_not_le held
    have hchunk : (s.buffer.file.take size).length = min size s.file.length := List.length_take
    rw [Buffer.read_refill (by omega), List.length_append, hchunk, hheld]
    by_cases hfits : s.content.length - s.pos + min size s.file.length ≤ size
    · rw [h.read_refill hshort hfits, Option.bind_some, copy]
      have hlength : (s.content.drop s.pos ++ s.file.take size).length =
          s.content.length - s.pos + min size s.file.length := by
        rw [List.length_append, List.length_drop, List.length_take]
      simp only [hlength, Nat.zero_add]
      split
      next hlost => rw [if_pos (by omega), Option.map_none]
      next hread =>
        rw [if_neg (by omega)]
        rfl
    · rw [read_overrun hshort (Nat.lt_of_not_le hfits), if_pos (.inl (Nat.lt_of_not_le hfits))]
      rfl

end BufferFileStream

end Ofs
