import Zookeeper.Ofs.NodeBlock

/-!
# Files read and written at an offset

`olib::RandomAccessFile` moves bytes with at most five calls to the system.  Each may be
left pending, fail, or move some of the bytes asked for, and the next one goes on behind
those.  Seeking to a negative position fails, and the file stays where it is.  That is
the branch for Windows, the one that compiles.

What a call touches is a list of `Access`es.  They lie one behind the other from the
offset on, if that is not negative (`transferLoop_spec`).
-/

namespace Ofs.Node

/-- `RandomAccessFileResult`. -/
inductive RandomAccessFileResult where
  | success
  | fileOpenFailed
  | opFailed
  | opIncomplete
  | opOutOfRange
deriving DecidableEq, Repr

/-- How `ReadFile` or `WriteFile` ends. -/
inductive Transfer where
  | pending
  | error
  | moved (n : Nat)
deriving DecidableEq, Repr

/-- What the system does to one call: whether the file opens, and how its transfers end. -/
structure FileIo where
  opens : Bool := true
  transfers : List Transfer := []
deriving DecidableEq, Repr

/-- Bytes of a buffer, from one of them on, and where in the file they are. -/
structure Access where
  pos : Nat
  start : Nat
  count : Nat
deriving DecidableEq, Repr

/-- `SetFilePointerEx`. -/
def seek (pointer : Nat) (target : Int) : Nat := if 0 ≤ target then target.toNat else pointer

/-- The loop of `Read`, `Write` and `Append`, for the tries left.  They differ in what they
return when no byte is moved. -/
def transferLoop (atEnd : RandomAccessFileResult) (offset : Int) :
    Nat → List Transfer → Nat → Nat → Nat → RandomAccessFileResult × List Access
  | 0, _, _, _, left => (if 0 < left then .opIncomplete else .success, [])
  | tries + 1, ts, pointer, moved, left =>
      if left = 0 then (.success, [])
      else
        let pos := seek pointer (offset + moved)
        match ts.headD .error with
        | .pending => transferLoop atEnd offset tries ts.tail pos moved left
        | .error => (.opFailed, [])
        | .moved n =>
            if min n left = 0 then (atEnd, [])
            else
              let r := transferLoop atEnd offset tries ts.tail (pos + min n left)
                (moved + min n left) (left - min n left)
              (r.1, ⟨pos, moved, min n left⟩ :: r.2)

namespace RandomAccessFile

/-- A call on a file that is not open yet. -/
def transfer (atEnd : RandomAccessFileResult) (offset : Int) (size : Nat) (io : FileIo) :
    RandomAccessFileResult × List Access :=
  if size = 0 then (.success, [])
  else if io.opens then transferLoop atEnd offset 5 io.transfers 0 0 size
  else (.fileOpenFailed, [])

/-- `RandomAccessFile::Read`. -/
def read (offset : Int) (size : Nat) (io : FileIo) : RandomAccessFileResult × List Access :=
  transfer .opOutOfRange offset size io

/-- `RandomAccessFile::Write`. -/
def write (offset : Int) (size : Nat) (io : FileIo) : RandomAccessFileResult × List Access :=
  transfer .opIncomplete offset size io

/-- `RandomAccessFile::Append`, of a file that is so long.  The length goes through an
`int32_t`. -/
def append (length size : Nat) (io : FileIo) : RandomAccessFileResult × List Access :=
  transfer .opIncomplete (Int32.ofNat length).toInt size io

end RandomAccessFile

/-- The file after the bytes of an access are written. -/
def Access.put (data : Bytes) (file : Bytes) (a : Access) : Bytes :=
  overwrite file a.pos ((data.drop a.start).take a.count)

/-- The file after a call that writes. -/
def written (data file : Bytes) (accesses : List Access) : Bytes :=
  accesses.foldl (Access.put data) file

/-! ## Writing pieces -/

theorem length_overwrite (file : Bytes) (pos : Nat) {buf : Bytes} (h : buf ≠ []) :
    (overwrite file pos buf).length = max file.length (pos + buf.length) := by
  rw [overwrite, if_neg h]
  simp only [List.length_append, List.length_take, List.length_replicate, List.length_drop]
  omega

/-- A piece that ends in the file leaves its length. -/
theorem length_overwrite_le {file : Bytes} {pos : Nat} {buf : Bytes}
    (h : pos + buf.length ≤ file.length) : (overwrite file pos buf).length = file.length := by
  by_cases hnil : buf = []
  · rw [hnil, overwrite_nil]
  · rw [length_overwrite _ _ hnil, Nat.max_eq_left h]

/-- In a piece that ends in the file there are its bytes, and the file is around it. -/
theorem getElem?_overwrite {file buf : Bytes} {pos : Nat} (h : pos + buf.length ≤ file.length)
    (j : Nat) : (overwrite file pos buf)[j]? =
      if pos ≤ j ∧ j < pos + buf.length then buf[j - pos]? else file[j]? := by
  by_cases hnil : buf = []
  · rw [hnil, overwrite_nil, List.length_nil, if_neg (by omega)]
  · have hfront : (file.take pos).length = pos := by
      rw [List.length_take]
      omega
    rw [overwrite, if_neg hnil, Nat.sub_eq_zero_of_le (by omega), List.replicate_zero,
      List.append_nil, List.append_assoc, List.getElem?_append, hfront]
    split
    next hlt => rw [List.getElem?_take_of_lt hlt, if_neg (by omega)]
    next hge =>
      rw [List.getElem?_append]
      split
      next hin => rw [if_pos (by omega)]
      next hout =>
        rw [if_neg (by omega), List.getElem?_drop]
        congr 1
        omega

/-- Two pieces, one behind the other. -/
theorem overwrite_overwrite (file : Bytes) (pos : Nat) (a b : Bytes) :
    overwrite (overwrite file pos a) (pos + a.length) b = overwrite file pos (a ++ b) := by
  by_cases ha : a = []
  · subst ha
    rw [overwrite_nil]
    rfl
  by_cases hb : b = []
  · subst hb
    rw [overwrite_nil, List.append_nil]
  have hfront : (file.take pos ++ List.replicate (pos - file.length) 0 ++ a).length =
      pos + a.length := by
    simp only [List.length_append, List.length_take, List.length_replicate]
    omega
  have hlength := length_overwrite file pos ha
  rw [overwrite, if_neg hb, Nat.sub_eq_zero_of_le (by omega), List.replicate_zero, List.append_nil,
    overwrite, if_neg ha, overwrite, if_neg (List.append_ne_nil_of_left_ne_nil ha b)]
  rw [← hfront, List.take_left, List.drop_length_add_append, hfront, List.drop_drop,
    List.length_append]
  simp only [List.append_assoc, Nat.add_assoc]

theorem written_nil (data file : Bytes) : written data file [] = file := rfl

theorem written_cons (data file : Bytes) (a : Access) (as : List Access) :
    written data file (a :: as) = written data (a.put data file) as := rfl

/-- Accesses that end in the file leave its length. -/
theorem length_written_le {data file : Bytes} {as : List Access}
    (h : ∀ a ∈ as, a.pos + a.count ≤ file.length) :
    (written data file as).length = file.length := by
  induction as generalizing file with
  | nil => rfl
  | cons a as ih =>
      have hput : (a.put data file).length = file.length := by
        refine length_overwrite_le (Nat.le_trans ?_ (h a List.mem_cons_self))
        rw [List.length_take]
        omega
      rw [written_cons, ih, hput]
      intro a' ha'
      rw [hput]
      exact h a' (List.mem_cons_of_mem _ ha')

/-! ## Where a call touches the file -/

section Loop

variable {atEnd : RandomAccessFileResult} {tries : Nat} {ts : List Transfer}
  {pointer moved left : Nat}

/-- From an offset on, what is touched lies in the range asked for. -/
theorem transferLoop_inside {offset : Nat} {a : Access}
    (h : a ∈ (transferLoop atEnd offset tries ts pointer moved left).2) :
    offset + moved ≤ a.pos ∧ a.pos + a.count ≤ offset + moved + left := by
  induction tries generalizing ts pointer moved left with
  | zero => exact absurd h List.not_mem_nil
  | succ tries ih =>
      rw [transferLoop] at h
      split at h
      next => exact absurd h List.not_mem_nil
      next =>
        have hpos : seek pointer ((offset : Int) + moved) = offset + moved := by
          rw [seek, if_pos (by omega)]
          omega
        simp only [hpos] at h
        split at h
        next => exact ih h
        next => exact absurd h List.not_mem_nil
        next =>
          split at h
          next => exact absurd h List.not_mem_nil
          next =>
            rcases List.mem_cons.1 h with rfl | hrest
            · exact ⟨Nat.le_refl _, by dsimp only; omega⟩
            · have hin := ih hrest
              omega

/-- From a negative offset on, it ends before as many bytes as are asked for. -/
theorem transferLoop_negative {offset : Int} (neg : offset < 0) (behind : pointer ≤ moved)
    {a : Access} (h : a ∈ (transferLoop atEnd offset tries ts pointer moved left).2) :
    a.pos + a.count ≤ moved + left := by
  induction tries generalizing ts pointer moved left with
  | zero => exact absurd h List.not_mem_nil
  | succ tries ih =>
      rw [transferLoop] at h
      split at h
      next => exact absurd h List.not_mem_nil
      next =>
        have hpos : seek pointer (offset + moved) ≤ moved := by
          rw [seek]
          split <;> omega
        simp only at h
        split at h
        next => exact ih hpos h
        next => exact absurd h List.not_mem_nil
        next =>
          split at h
          next => exact absurd h List.not_mem_nil
          next =>
            rcases List.mem_cons.1 h with rfl | hrest
            · dsimp only
              omega
            · have hin := ih (by omega) hrest
              omega

/-- From an offset on, a call writes a piece of what is left, all of it if it succeeds. -/
theorem transferLoop_written {offset : Nat} {data file : Bytes}
    (all : moved + left = data.length) :
    ∃ k ≤ left,
      written data file (transferLoop .opIncomplete offset tries ts pointer moved left).2 =
        overwrite file (offset + moved) ((data.drop moved).take k) ∧
      ((transferLoop .opIncomplete offset tries ts pointer moved left).1 = .success ↔
        k = left) := by
  induction tries generalizing ts pointer moved left file with
  | zero =>
      refine ⟨0, Nat.zero_le _, ?_, ?_⟩
      · rw [List.take_zero, overwrite_nil]
        rfl
      · rw [transferLoop]
        split
        next hleft => exact iff_of_false (by decide) hleft.ne
        next hleft => exact iff_of_true rfl (by omega)
  | succ tries ih =>
      rw [transferLoop]
      split
      next hzero =>
        refine ⟨0, Nat.zero_le _, ?_, iff_of_true rfl hzero.symm⟩
        rw [List.take_zero, overwrite_nil]
        rfl
      next hleft =>
        have hpos : seek pointer ((offset : Int) + moved) = offset + moved := by
          rw [seek, if_pos (by omega)]
          omega
        have hnothing : ∀ r : RandomAccessFileResult, r ≠ .success → ∃ k ≤ left,
            written data file [] = overwrite file (offset + moved) ((data.drop moved).take k) ∧
            (r = .success ↔ k = left) := by
          intro r hr
          refine ⟨0, Nat.zero_le _, ?_, iff_of_false hr (Ne.symm hleft)⟩
          rw [List.take_zero, overwrite_nil]
          rfl
        simp only [hpos]
        split
        next => exact ih all
        next => exact hnothing _ (by decide)
        next n _ =>
          split
          next => exact hnothing _ (by decide)
          next =>
            have hall : moved + min n left + (left - min n left) = data.length := by omega
            obtain ⟨k, hk, hwritten, hsuccess⟩ := @ih ts.tail (offset + moved + min n left) _ _
              (overwrite file (offset + moved) ((data.drop moved).take (min n left))) hall
            refine ⟨min n left + k, by omega, ?_, hsuccess.trans (by omega)⟩
            have hlength : ((data.drop moved).take (min n left)).length = min n left := by
              rw [List.length_take, List.length_drop]
              omega
            rw [written_cons, Access.put, hwritten, List.take_add, ← overwrite_overwrite, hlength,
              List.drop_drop, Nat.add_assoc]

/-- The loop of a call that writes succeeds, fails or gives up. -/
theorem transferLoop_result (offset : Int) :
    (transferLoop .opIncomplete offset tries ts pointer moved left).1 ∈
      [RandomAccessFileResult.success, .opFailed, .opIncomplete] := by
  induction tries generalizing ts pointer moved left with
  | zero =>
      rw [transferLoop]
      split <;> decide
  | succ tries ih =>
      rw [transferLoop]
      split
      next => decide
      next =>
        simp only
        split
        next => exact ih
        next => decide
        next =>
          split
          next => decide
          next => exact ih

end Loop

namespace RandomAccessFile

variable {atEnd : RandomAccessFileResult} {size : Nat} {io : FileIo}

theorem transfer_inside {offset : Nat} {a : Access} (h : a ∈ (transfer atEnd offset size io).2) :
    offset ≤ a.pos ∧ a.pos + a.count ≤ offset + size := by
  rw [transfer] at h
  split at h
  next => exact absurd h List.not_mem_nil
  next =>
    split at h
    next => simpa using transferLoop_inside h
    next => exact absurd h List.not_mem_nil

theorem transfer_negative {offset : Int} (neg : offset < 0) {a : Access}
    (h : a ∈ (transfer atEnd offset size io).2) : a.pos + a.count ≤ size := by
  rw [transfer] at h
  split at h
  next => exact absurd h List.not_mem_nil
  next =>
    split at h
    next => simpa using transferLoop_negative neg (Nat.le_refl 0) h
    next => exact absurd h List.not_mem_nil

/-- A call writes a piece of its bytes, all of them if it succeeds. -/
theorem write_written (offset : Nat) (data file : Bytes) (io : FileIo) :
    ∃ k ≤ data.length,
      written data file (write offset data.length io).2 = overwrite file offset (data.take k) ∧
      ((write offset data.length io).1 = .success ↔ k = data.length) := by
  rw [write, transfer]
  split
  next hzero =>
    refine ⟨0, Nat.zero_le _, ?_, iff_of_true rfl hzero.symm⟩
    rw [List.take_zero, overwrite_nil]
    rfl
  next hsome =>
    split
    next =>
      have hloop := @transferLoop_written 5 io.transfers 0 0 data.length offset data file
        (Nat.zero_add _)
      simpa using hloop
    next =>
      refine ⟨0, Nat.zero_le _, ?_, iff_of_false (by decide) (Ne.symm hsome)⟩
      rw [List.take_zero, overwrite_nil]
      rfl

/-- A call that writes succeeds, fails or gives up, or the file does not open and is not
touched. -/
theorem write_result (offset : Int) (size : Nat) (io : FileIo) :
    (write offset size io).1 ∈ [RandomAccessFileResult.success, .opFailed, .opIncomplete] ∨
      write offset size io = (.fileOpenFailed, []) := by
  rw [write, transfer]
  split
  next => exact .inl (by decide)
  next =>
    split
    next => exact .inl (transferLoop_result offset)
    next => exact .inr rfl

/-- A file whose length an `int32_t` can hold is appended to at its end. -/
theorem append_eq_write {length : Nat} (short : length < 2 ^ 31) (size : Nat) (io : FileIo) :
    append length size io = write length size io := by
  rw [append, write, Int32.toInt_ofNat_of_lt short]

end RandomAccessFile

end Ofs.Node
