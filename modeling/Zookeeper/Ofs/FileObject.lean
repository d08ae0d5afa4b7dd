import Mathlib.Data.List.Basic
import Zookeeper.Ofs.RandomAccess

/-!
# One file object for many calls

An `olib::RandomAccessFile` opens its file at the first call that moves a byte, and keeps
it.  `Append` learns the length of the file from opening it, in an `int32_t`, and has the
offset 0 where the object is open.

The object stands for its file, an array of bytes.  `meets_of_placed` is the specification
of a call, and `calls_meet` is that of a sequence of calls.
-/

namespace Ofs.Node

/-- A `RandomAccessFile` for reading and writing, with its file and the pointer in it. -/
structure FileObject where
  file : Bytes
  opened : Bool := false
  pointer : Nat := 0
deriving DecidableEq, Repr

/-- A call. -/
inductive FileCall where
  | read (offset : Int) (size : Nat)
  | write (offset : Int) (buf : Bytes)
  | append (buf : Bytes)
deriving DecidableEq, Repr

/-- What a call returns and leaves: the bytes it has moved are counted, and those that were
read are in the buffer. -/
structure FileOutcome where
  result : RandomAccessFileResult
  object : FileObject
  moved : Nat := 0
  data : Bytes := []
deriving DecidableEq, Repr

namespace FileObject

/-- `Open`, if the file is not open.  The pointer of a new handle is at the start. -/
def ensureOpen (o : FileObject) (opens : Bool) : Option FileObject :=
  if o.opened then some o
  else if opens then some { o with opened := true, pointer := 0 }
  else none

/-- The loop of `Read`, for the tries left, behind the bytes it has read. -/
def readLoop (offset : Int) : Nat → List Transfer → FileObject → Bytes → Nat → FileOutcome
  | 0, _, o, data, left => ⟨if 0 < left then .opIncomplete else .success, o, data.length, data⟩
  | tries + 1, ts, o, data, left =>
      if left = 0 then ⟨.success, o, data.length, data⟩
      else
        let pos := seek o.pointer (offset + data.length)
        match ts.headD .error with
        | .pending => readLoop offset tries ts.tail { o with pointer := pos } data left
        | .error => ⟨.opFailed, { o with pointer := pos }, data.length, data⟩
        | .moved n =>
            let len := min (min n left) (o.file.length - pos)
            if len = 0 then ⟨.opOutOfRange, { o with pointer := pos }, data.length, data⟩
            else
              readLoop offset tries ts.tail { o with pointer := pos + len }
                (data ++ (o.file.drop pos).take len) (left - len)

/-- The loop of `Write` and `Append`, for the tries left, behind the bytes it has written. -/
def writeLoop (offset : Int) (buf : Bytes) : Nat → List Transfer → FileObject → Nat → FileOutcome
  | 0, _, o, moved => ⟨if 0 < buf.length - moved then .opIncomplete else .success, o, moved, []⟩
  | tries + 1, ts, o, moved =>
      if buf.length - moved = 0 then ⟨.success, o, moved, []⟩
      else
        let pos := seek o.pointer (offset + moved)
        match ts.headD .error with
        | .pending => writeLoop offset buf tries ts.tail { o with pointer := pos } moved
        | .error => ⟨.opFailed, { o with pointer := pos }, moved, []⟩
        | .moved n =>
            let len := min n (buf.length - moved)
            if len = 0 then ⟨.opIncomplete, { o with pointer := pos }, moved, []⟩
            else
              writeLoop offset buf tries ts.tail
                { o with pointer := pos + len,
                         file := overwrite o.file pos ((buf.drop moved).take len) } (moved + len)

/-- `RandomAccessFile::Read`. -/
def read (o : FileObject) (offset : Int) (size : Nat) (io : FileIo) : FileOutcome :=
  if size = 0 then ⟨.success, o, 0, []⟩
  else
    match o.ensureOpen io.opens with
    | some o => readLoop offset 5 io.transfers o [] size
    | none => ⟨.fileOpenFailed, o, 0, []⟩

/-- `RandomAccessFile::Write`. -/
def write (o : FileObject) (offset : Int) (buf : Bytes) (io : FileIo) : FileOutcome :=
  if buf.length = 0 then ⟨.success, o, 0, []⟩
  else
    match o.ensureOpen io.opens with
    | some o => writeLoop offset buf 5 io.transfers o 0
    | none => ⟨.fileOpenFailed, o, 0, []⟩

/-- The offset of `Append`: the length of the file, if it is opened by this call. -/
def appendOffset (o : FileObject) : Int :=
  if o.opened then 0 else (Int32.ofNat o.file.length).toInt

/-- `RandomAccessFile::Append`. -/
def append (o : FileObject) (buf : Bytes) (io : FileIo) : FileOutcome :=
  o.write o.appendOffset buf io

def call (o : FileObject) (io : FileIo) : FileCall → FileOutcome
  | .read offset size => o.read offset size io
  | .write offset buf => o.write offset buf io
  | .append buf => o.append buf io

end FileObject

/-! ## An array of bytes -/

/-- The number of bytes a call is to move. -/
def FileCall.size : FileCall → Nat
  | .read _ size => size
  | .write _ buf => buf.length
  | .append buf => buf.length

/-- What a call means for an array of bytes: what it reads, and the array it leaves.  There
are no bytes at negative positions. -/
def FileCall.Does (array : Bytes) : FileCall → Bytes → Bytes → Prop
  | .read offset size, data, after =>
      (0 < size → 0 ≤ offset ∧ offset.toNat + size ≤ array.length) ∧
        data = (array.drop offset.toNat).take size ∧ after = array
  | .write offset buf, _, after =>
      (buf ≠ [] → 0 ≤ offset) ∧ after = overwrite array offset.toNat buf
  | .append buf, _, after => after = array ++ buf

/-- A call that succeeds has moved all bytes, and has done what it means. -/
def FileOutcome.Meets (before : FileObject) (c : FileCall) (out : FileOutcome) : Prop :=
  out.result = .success → out.moved = c.size ∧ c.Does before.file out.data out.object.file

/-- A call on an object. -/
structure Answered where
  before : FileObject
  call : FileCall
  outcome : FileOutcome

def Answered.Meets (d : Answered) : Prop := d.outcome.Meets d.before d.call

/-- The calls on an object, one after the other. -/
def transcript : FileObject → List (FileCall × FileIo) → List Answered
  | _, [] => []
  | o, (c, io) :: calls => ⟨o, c, o.call io c⟩ :: transcript (o.call io c).object calls

/-- No byte is read or written at a negative offset, and bytes are appended by the call that
opens the file, the length of which fits into an `int32_t`, or to an empty file. -/
def FileCall.Placed (o : FileObject) : FileCall → Prop
  | .read offset size => size = 0 ∨ 0 ≤ offset
  | .write offset buf => buf = [] ∨ 0 ≤ offset
  | .append buf => buf = [] ∨ if o.opened then o.file = [] else o.file.length < 2 ^ 31

instance (o : FileObject) : DecidablePred (FileCall.Placed o)
  | .read offset size => inferInstanceAs (Decidable (size = 0 ∨ 0 ≤ offset))
  | .write offset buf => inferInstanceAs (Decidable (buf = [] ∨ 0 ≤ offset))
  | .append buf =>
      inferInstanceAs
        (Decidable (buf = [] ∨ if o.opened then o.file = [] else o.file.length < 2 ^ 31))

/-! ## The loops -/

namespace FileObject

/-- What the loop writes and returns is what `transferLoop` says it touches. -/
theorem writeLoop_eq (offset : Int) (buf : Bytes) (tries : Nat) (ts : List Transfer)
    (o : FileObject) (moved : Nat) :
    (writeLoop offset buf tries ts o moved).result =
        (transferLoop .opIncomplete offset tries ts o.pointer moved (buf.length - moved)).1 ∧
      (writeLoop offset buf tries ts o moved).object.file = written buf o.file
        (transferLoop .opIncomplete offset tries ts o.pointer moved (buf.length - moved)).2 := by
  induction tries generalizing ts o moved with
  | zero => exact ⟨rfl, rfl⟩
  | succ tries ih =>
      rw [writeLoop, transferLoop]
      split
      next => exact ⟨rfl, rfl⟩
      next =>
        dsimp only
        cases ts.headD .error with
        | pending => exact ih _ _ _
        | error => exact ⟨rfl, rfl⟩
        | moved n =>
            dsimp only
            split
            next => exact ⟨rfl, rfl⟩
            next =>
              have hnext := ih ts.tail { o with
                pointer := seek o.pointer (offset + moved) + min n (buf.length - moved),
                file := overwrite o.file (seek o.pointer (offset + moved))
                  ((buf.drop moved).take (min n (buf.length - moved))) }
                (moved + min n (buf.length - moved))
              rw [← Nat.sub_sub] at hnext
              exact hnext

/-- The loop that writes succeeds with all bytes. -/
theorem writeLoop_moved {offset : Int} {buf : Bytes} {tries : Nat} {ts : List Transfer}
    {o : FileObject} {moved : Nat} (hmoved : moved ≤ buf.length)
    (h : (writeLoop offset buf tries ts o moved).result = .success) :
    (writeLoop offset buf tries ts o moved).moved = buf.length := by
  induction tries generalizing ts o moved with
  | zero =>
      rw [writeLoop] at h ⊢
      dsimp only at h ⊢
      split at h
      next => cases h
      next => omega
  | succ tries ih =>
      rw [writeLoop] at h ⊢
      split at h
      next hdone =>
          rw [if_pos hdone]
          dsimp only
          omega
      next hleft =>
          rw [if_neg hleft]
          dsimp only at h ⊢
          cases hend : ts.headD .error with
          | pending =>
              rw [hend] at h
              exact ih hmoved h
          | error =>
              rw [hend] at h
              cases h
          | moved n =>
              rw [hend] at h
              dsimp only at h ⊢
              split at h
              next => cases h
              next hlen =>
                  rw [if_neg hlen]
                  exact ih (by omega) h

/-- From an offset on, the loop that writes puts all bytes there, if it succeeds. -/
theorem writeLoop_written {offset : Nat} {buf : Bytes} {tries : Nat} {ts : List Transfer}
    {o : FileObject} (h : (writeLoop offset buf tries ts o 0).result = .success) :
    (writeLoop offset buf tries ts o 0).object.file = overwrite o.file offset buf := by
  obtain ⟨hresult, hfile⟩ := writeLoop_eq offset buf tries ts o 0
  obtain ⟨k, -, hwritten, hsuccess⟩ := @transferLoop_written tries ts o.pointer 0 buf.length offset
    buf o.file (Nat.zero_add _)
  rw [Nat.sub_zero] at hresult hfile
  rw [hfile, hwritten, hsuccess.1 (hresult ▸ h), Nat.add_zero, List.drop_zero, List.take_length]

/-- From an offset on, the loop that reads has read the bytes there, all that are asked for if
it succeeds. -/
theorem readLoop_spec {offset : Nat} {tries : Nat} {ts : List Transfer} {o : FileObject}
    {data : Bytes} {left : Nat} (hdata : data = (o.file.drop offset).take data.length)
    (h : (readLoop offset tries ts o data left).result = .success) :
    (readLoop offset tries ts o data left).moved = data.length + left ∧
      (readLoop offset tries ts o data left).object.file = o.file ∧
      (readLoop offset tries ts o data left).data = (o.file.drop offset).take (data.length + left) ∧
      ((readLoop offset tries ts o data left).data).length = data.length + left := by
  induction tries generalizing ts o data left with
  | zero =>
      rw [readLoop] at h ⊢
      dsimp only at h ⊢
      split at h
      next => cases h
      next hleft =>
          obtain rfl : left = 0 := by omega
          exact ⟨rfl, rfl, hdata, rfl⟩
  | succ tries ih =>
      rw [readLoop] at h ⊢
      split at h
      next hdone =>
          subst hdone
          rw [if_pos rfl]
          exact ⟨rfl, rfl, hdata, rfl⟩
      next hleft =>
          have hpos : seek o.pointer ((offset : Int) + data.length) = offset + data.length := by
            rw [seek, if_pos (by omega)]
            omega
          rw [if_neg hleft]
          simp only [hpos] at h ⊢
          cases hend : ts.headD .error with
          | pending =>
              rw [hend] at h
              exact ih hdata h
          | error =>
              rw [hend] at h
              cases h
          | moved n =>
              rw [hend] at h
              dsimp only at h ⊢
              split at h
              next => cases h
              next hlen =>
                  rw [if_neg hlen]
                  obtain ⟨len, hlen'⟩ : ∃ len, min (min n left)
                      (o.file.length - (offset + data.length)) = len := ⟨_, rfl⟩
                  rw [hlen'] at h ⊢
                  have hpiece : ((o.file.drop (offset + data.length)).take len).length = len := by
                    rw [List.length_take, List.length_drop]
                    omega
                  have hmore : data ++ (o.file.drop (offset + data.length)).take len =
                      (o.file.drop offset).take (data.length + len) := by
                    rw [List.take_add, List.drop_drop, ← hdata]
                  have hlength : (data ++ (o.file.drop (offset + data.length)).take len).length =
                      data.length + len := by
                    rw [List.length_append, hpiece]
                  have hrest := @ih ts.tail { o with pointer := offset + data.length + len }
                    (data ++ (o.file.drop (offset + data.length)).take len) (left - len)
                    (by rw [hlength]; exact hmore) h
                  have hsum : data.length + len + (left - len) = data.length + left := by omega
                  rw [hlength, hsum] at hrest
                  exact hrest

/-- An object that opens has the same file. -/
theorem file_of_ensureOpen {o o' : FileObject} {opens : Bool}
    (h : o.ensureOpen opens = some o') : o'.file = o.file := by
  rw [ensureOpen] at h
  split at h
  next =>
      obtain rfl := Option.some.inj h
      rfl
  next =>
      rw [Option.ite_none_right_eq_some] at h
      obtain ⟨-, h⟩ := h
      obtain rfl := Option.some.inj h
      rfl

/-- A read from an offset on. -/
theorem read_spec {o : FileObject} {offset : Nat} {size : Nat} {io : FileIo}
    (h : (o.read offset size io).result = .success) :
    (o.read offset size io).moved = size ∧ (o.read offset size io).object.file = o.file ∧
      (o.read offset size io).data = (o.file.drop offset).take size ∧
      (o.read offset size io).data.length = size := by
  rw [read] at h ⊢
  split at h
  next hzero =>
      subst hzero
      rw [if_pos rfl]
      exact ⟨rfl, rfl, rfl, rfl⟩
  next hsize =>
      rw [if_neg hsize]
      cases hopen : o.ensureOpen io.opens with
      | none =>
          rw [hopen] at h
          cases h
      | some o' =>
          rw [hopen] at h
          have hspec := readLoop_spec (by rw [List.length_nil, List.take_zero]) h
          rw [file_of_ensureOpen hopen, List.length_nil, Nat.zero_add] at hspec
          exact hspec

/-- A write from an offset on. -/
theorem write_spec {o : FileObject} {offset : Nat} {buf : Bytes} {io : FileIo}
    (h : (o.write offset buf io).result = .success) :
    (o.write offset buf io).moved = buf.length ∧
      (o.write offset buf io).object.file = overwrite o.file offset buf := by
  rw [write] at h ⊢
  split at h
  next hzero =>
      obtain rfl := List.length_eq_zero_iff.1 hzero
      exact ⟨rfl, (overwrite_nil _ _).symm⟩
  next hsize =>
      rw [if_neg hsize]
      cases hopen : o.ensureOpen io.opens with
      | none =>
          rw [hopen] at h
          cases h
      | some o' =>
          rw [hopen] at h
          have hwritten := writeLoop_written h
          rw [file_of_ensureOpen hopen] at hwritten
          exact ⟨writeLoop_moved (Nat.zero_le _) h, hwritten⟩

theorem appendOffset_eq {o : FileObject}
    (h : if o.opened then o.file = [] else o.file.length < 2 ^ 31) :
    o.appendOffset = o.file.length := by
  rw [appendOffset]
  cases hopened : o.opened with
  | true =>
      rw [hopened, if_pos rfl] at h
      rw [if_pos rfl, h]
      rfl
  | false =>
      rw [hopened, if_neg Bool.false_ne_true] at h
      rw [if_neg Bool.false_ne_true]
      exact Int32.toInt_ofNat_of_lt h

end FileObject

theorem overwrite_length (file buf : Bytes) : overwrite file file.length buf = file ++ buf := by
  have hend := overwrite_end file buf
  rwa [List.take_length] at hend

/-- A call that is placed does what it means, if it succeeds. -/
theorem meets_of_placed {o : FileObject} {c : FileCall} (h : c.Placed o) (io : FileIo) :
    (o.call io c).Meets o c := by
  intro hsuccess
  cases c with
  | read offset size =>
      rcases h with rfl | hpos
      · exact ⟨rfl, fun hlt => absurd hlt (Nat.lt_irrefl _),
          by simp [FileObject.call, FileObject.read], rfl⟩
      · obtain ⟨n, rfl⟩ := Int.eq_ofNat_of_zero_le hpos
        obtain ⟨hmoved, hfile, hdata, hlength⟩ := FileObject.read_spec hsuccess
        refine ⟨hmoved, fun hlt => ⟨hpos, ?_⟩, hdata, hfile⟩
        rw [hdata, List.length_take, List.length_drop] at hlength
        show n + size ≤ o.file.length
        omega
  | write offset buf =>
      rcases h with rfl | hpos
      · exact ⟨rfl, fun hne => absurd rfl hne, (overwrite_nil _ _).symm⟩
      · obtain ⟨n, rfl⟩ := Int.eq_ofNat_of_zero_le hpos
        obtain ⟨hmoved, hfile⟩ := FileObject.write_spec hsuccess
        exact ⟨hmoved, fun _ => hpos, hfile⟩
  | append buf =>
      rcases h with rfl | hopen
      · exact ⟨rfl, (List.append_nil _).symm⟩
      · have hoffset := FileObject.appendOffset_eq hopen
        rw [FileObject.call, FileObject.append, hoffset] at hsuccess ⊢
        obtain ⟨hmoved, hfile⟩ := FileObject.write_spec hsuccess
        exact ⟨hmoved, hfile.trans (overwrite_length _ _)⟩

/-- In every sequence of calls that are all placed, each does what it means if it succeeds. -/
theorem calls_meet {o : FileObject} {calls : List (FileCall × FileIo)}
    (h : ∀ d ∈ transcript o calls, d.call.Placed d.before) :
    ∀ d ∈ transcript o calls, d.Meets := by
  induction calls generalizing o with
  | nil => exact List.forall_mem_nil _
  | cons first calls ih =>
      obtain ⟨hfirst, hrest⟩ := List.forall_mem_cons.1 h
      exact List.forall_mem_cons.2 ⟨meets_of_placed hfirst first.2, ih hrest⟩

/-! ## Calls that are not placed -/

/-- All bytes move at once. -/
def atOnce (size : Nat) : FileIo := { transfers := [.moved size] }

/-- A write that moves all bytes at once puts them where the pointer is after seeking. -/
theorem write_whole {o : FileObject} (offset : Int) {buf : Bytes} (h : buf ≠ []) :
    (o.write offset buf (atOnce buf.length)).result = .success ∧
      (o.write offset buf (atOnce buf.length)).object.file =
        overwrite o.file (seek (if o.opened then o.pointer else 0) offset) buf := by
  have hlength := List.length_pos_iff.2 h
  have hopen : o.ensureOpen true =
      some { o with opened := true, pointer := if o.opened then o.pointer else 0 } := by
    rw [FileObject.ensureOpen]
    split
    next hopened => rw [← hopened]
    next => rfl
  rw [FileObject.write, if_neg hlength.ne']
  simp only [atOnce, hopen]
  rw [FileObject.writeLoop, if_neg (by omega)]
  simp only [List.headD_cons, Nat.sub_zero, Nat.min_self, List.drop_zero, List.take_length]
  rw [if_neg hlength.ne', FileObject.writeLoop, if_pos (by omega)]
  exact ⟨rfl, by rw [Int.natCast_zero, Int.add_zero]⟩

/-- A call that writes is placed if it does what it means however its bytes are moved. -/
theorem placed_of_meets {o : FileObject} {c : FileCall}
    (hwrites : ∀ offset size, c ≠ .read offset size)
    (h : ∀ io, (o.call io c).Meets o c) : c.Placed o := by
  by_contra hnot
  cases c with
  | read offset size => exact hwrites offset size rfl
  | write offset buf =>
      obtain ⟨hbuf, hneg⟩ := not_or.1 hnot
      obtain ⟨hsuccess, -⟩ := write_whole (o := o) offset hbuf
      exact hneg ((h _ hsuccess).2.1 hbuf)
  | append buf =>
      obtain ⟨hbuf, hopen⟩ := not_or.1 hnot
      obtain ⟨hsuccess, hfile⟩ := write_whole (o := o) o.appendOffset hbuf
      have hafter : _ = o.file ++ buf := (h _ hsuccess).2
      -- the bytes come to lie before the end of the file
      have hbefore : seek (if o.opened then o.pointer else 0) o.appendOffset < o.file.length := by
        rw [seek, FileObject.appendOffset]
        cases hopened : o.opened with
        | true =>
            rw [hopened, if_pos rfl] at hopen
            simpa using List.length_pos_iff.2 hopen
        | false =>
            rw [hopened, if_neg Bool.false_ne_true] at hopen
            have hlt := Int32.toInt_lt (Int32.ofNat o.file.length)
            simp only [Bool.false_eq_true, if_false]
            split <;> omega
      have hlength := congrArg List.length (hfile.symm.trans hafter)
      have hpos := List.length_pos_iff.2 hbuf
      rw [length_overwrite _ _ hbuf, List.length_append] at hlength
      omega

/-- An object that opens with an append of two bytes, one by one, and reads them. -/
theorem calls_meet_append : List.Forall Answered.Meets (transcript { file := [1] }
    [(.append [2, 3], { transfers := [.moved 1, .pending, .moved 1] }),
      (.read 0 3, { transfers := [.moved 3] })]) :=
  List.forall_iff_forall_mem.2 (calls_meet (by decide))

/-- The second of two appends overwrites the file from its start. -/
theorem second_append_overwrites : ¬ ∀ (file : Bytes) (calls : List (FileCall × FileIo)),
    ∀ d ∈ transcript { file := file } calls, d.Meets := by
  intro h
  have hsecond := h [1] [(.append [2], atOnce 1), (.append [3], atOnce 1)] _
    (List.mem_cons_of_mem _ List.mem_cons_self) rfl
  have hafter : ([3, 2] : Bytes) = [1, 2] ++ [3] := hsecond.2
  exact absurd hafter (by decide)

end Ofs.Node
