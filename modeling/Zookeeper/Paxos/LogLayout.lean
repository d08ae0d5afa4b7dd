import Mathlib.Data.List.Forall2
import Zookeeper.Paxos.LogFile

/-!
# What a log file holds

A log file *holds* a list of bills if the slots of its header point, one after the
other, at their data behind the header (`FileHolds`).  The byte-level operations of
`Zookeeper.Paxos.LogFile` are operations on that list: `LoadLogData` replays it
(`loadLogData_holds`), `SaveLogData` appends to it (`FileHolds.writeBill`), and
`TruncFile` cuts it (`FileHolds.trunc`).

A directory is *intact* if each of its log files holds bills, named by the first one,
with ids that grow within a file and from file to file.
-/

namespace Paxos

/-! ## Bytes of a file -/

section Bytes

variable {contents buf : Bytes} {pos : Nat}

theorem getElem?_fwrite (h : pos ≤ contents.length) (k : Nat) :
    (fwrite contents pos buf)[k]? =
      if k < pos then contents[k]?
      else if k < pos + buf.length then buf[k - pos]?
      else contents[k]? := by
  have hgap : pos - contents.length = 0 := Nat.sub_eq_zero_of_le h
  have htake : (contents.take pos).length = pos := List.length_take_of_le h
  rw [fwrite]
  rw [hgap, List.replicate_zero, List.append_nil, List.append_assoc, List.getElem?_append, htake]
  split
  next hlt => exact List.getElem?_take_of_lt hlt
  next hge =>
    rw [List.getElem?_append]
    by_cases hin : k < pos + buf.length
    · rw [if_pos (by omega), if_pos hin]
    · rw [if_neg (by omega), if_neg hin, List.getElem?_drop]
      congr 1
      omega

theorem length_fwrite (h : pos ≤ contents.length) :
    (fwrite contents pos buf).length = max contents.length (pos + buf.length) := by
  rw [fwrite]
  simp only [List.length_append, List.length_take, List.length_replicate, List.length_drop]
  omega

/-- An item is read from its bytes only. -/
theorem fread_congr {contents' : Bytes} {offset size : Int32}
    (h : ∀ k : Nat, offset.toInt ≤ k → (k : Int) < offset.toInt + size.toInt →
      contents[k]? = contents'[k]?) :
    fread contents offset size = fread contents' offset size := by
  unfold fread
  split
  next => rfl
  next hpos =>
    rw [not_or, Int32.not_lt, Int32.not_le, Int32.le_iff_toInt_le, Int32.lt_iff_toInt_lt,
      Int32.toInt_zero] at hpos
    have hitem : (contents.drop offset.toNatClampNeg).take size.toNatClampNeg =
        (contents'.drop offset.toNatClampNeg).take size.toNatClampNeg := by
      refine List.ext_getElem? fun k => ?_
      rw [List.getElem?_take, List.getElem?_take]
      split
      next hlt =>
        rw [List.getElem?_drop, List.getElem?_drop]
        rw [← Int32.toNat_toInt] at hlt ⊢
        exact h _ (by omega) (by omega)
      next => rfl
    simp only [hitem]

/-- The item that a write has put there. -/
theorem fread_fwrite {offset : Int32} (hpos : 0 ≤ offset.toInt)
    (h : offset.toInt.toNat ≤ contents.length) (hne : buf ≠ []) (hsize : buf.length < 2 ^ 31) :
    fread (fwrite contents offset.toInt.toNat buf) offset (Int32.ofNat buf.length) = some buf := by
  have hlen : 0 < buf.length := List.length_pos_iff.mpr hne
  have hto : (Int32.ofNat buf.length).toInt = buf.length := Int32.toInt_ofNat_of_lt hsize
  have hnat : (Int32.ofNat buf.length).toNatClampNeg = buf.length :=
    Int32.toNatClampNeg_ofNat_of_lt hsize
  have hitem : ((fwrite contents offset.toInt.toNat buf).drop offset.toInt.toNat).take
      buf.length = buf := by
    refine List.ext_getElem? fun k => ?_
    rw [List.getElem?_take]
    split
    next hlt =>
      rw [List.getElem?_drop, getElem?_fwrite h, if_neg (by omega), if_pos (by omega)]
      congr 1
      omega
    next hge => rw [List.getElem?_eq_none (by omega)]
  rw [fread]
  rw [if_neg, hnat, ← Int32.toNat_toInt, hitem]
  · simp
  · rw [not_or, Int32.not_lt, Int32.not_le, Int32.le_iff_toInt_le, Int32.lt_iff_toInt_lt, hto,
      Int32.toInt_zero]
    omega

/-- An item that is read lies in the file. -/
theorem fread_some {offset size : Int32} {item : Bytes}
    (h : fread contents offset size = some item) :
    0 ≤ offset.toInt ∧ 0 < size.toInt ∧ offset.toInt + size.toInt ≤ contents.length ∧
      item.length = size.toInt := by
  rw [fread] at h
  split at h
  next => cases h
  next hpos =>
    rw [not_or, Int32.not_lt, Int32.not_le, Int32.le_iff_toInt_le, Int32.lt_iff_toInt_lt,
      Int32.toInt_zero] at hpos
    dsimp only at h
    split at h
    next => cases h
    next hlen =>
      cases h
      rw [List.length_take, List.length_drop] at hlen ⊢
      rw [← Int32.toNat_toInt, ← Int32.toNat_toInt] at hlen ⊢
      omega

end Bytes

/-! ## Bills in a file -/

theorem getD_setIfInBounds {α : Type} {n : Nat} (xs : Vector α n) (i j : Nat) (x d : α) :
    (xs.setIfInBounds i x).getD j d = if j = i ∧ i < n then x else xs.getD j d := by
  have hget : ∀ ys : Vector α n, ys.getD j d = ys[j]?.getD d := fun ys => by
    rw [Vector.getD, Array.getD_eq_getD_getElem?, Vector.getElem?_toArray]
  rw [hget, hget, Vector.getElem?_setIfInBounds]
  by_cases hij : i = j
  · subst hij
    by_cases hi : i < n <;> simp [hi]
  · simp [hij, Ne.symm hij]

/-- The next count of a header with room is not zero. -/
theorem count_succ {count : Int32} {k : Nat} (h : count = Int32.ofNat k) (hk : k < 100) :
    count + 1 = Int32.ofNat (k + 1) ∧ count + 1 ≠ 0 := by
  have hsucc : count + 1 = Int32.ofNat (k + 1) := by
    rw [h, Int32.ofNat_add]
    rfl
  refine ⟨hsucc, fun hzero => ?_⟩
  have hint := congrArg Int32.toInt (hsucc.symm.trans hzero)
  rw [Int32.toInt_ofNat_of_lt (by omega), Int32.toInt_zero] at hint
  omega

/-- A slot points at the data of a bill, behind the header. -/
structure SlotHolds (contents : Bytes) (slot : LogDesc) (bill : Bill) : Prop where
  zxId : slot.zxId = bill.zxId
  ne_zero : bill.zxId ≠ 0
  behind : 1612 ≤ slot.offset.toInt
  data : fread contents slot.offset slot.size = some bill.data

/-- Where the data of a slot ends. -/
def LogDesc.stop (slot : LogDesc) : Int := slot.offset.toInt + slot.size.toInt

/-- A log file with its header holds the bills, one behind the other. -/
structure FileHolds (contents : Bytes) (h : LogHeader) (bills : List Bill) : Prop where
  read : ∃ rest, LogHeader.codec.read contents = some (h, rest)
  ne_nil : bills ≠ []
  count : h.count = Int32.ofNat bills.length
  le : bills.length ≤ singleLogFileCount
  slots : ∀ i bill, bills[i]? = some bill → SlotHolds contents (h.logs.getD i {}) bill
  apart : ∀ i j, i < j → j < bills.length →
    (h.logs.getD i {}).stop ≤ (h.logs.getD j {}).offset.toInt
  small : contents.length < 2 ^ 31

/-- The bills that are newer than an id, and than those in front of them. -/
def newer : List Bill → Int64 → List Bill
  | [], _ => []
  | bill :: bills, zxId =>
      if zxId < bill.zxId then bill :: newer bills bill.zxId else newer bills zxId

/-- The id reached behind them. -/
def reached (bills : List Bill) (zxId : Int64) : Int64 :=
  bills.foldl (fun zxId bill => if zxId < bill.zxId then bill.zxId else zxId) zxId

theorem newer_append (bills more : List Bill) (zxId : Int64) :
    newer (bills ++ more) zxId = newer bills zxId ++ newer more (reached bills zxId) := by
  induction bills generalizing zxId with
  | nil => rfl
  | cons bill bills ih =>
      rw [List.cons_append, newer, newer, reached, List.foldl_cons, ← reached]
      split
      · rw [ih, List.cons_append]
      · exact ih zxId

theorem reached_append (bills more : List Bill) (zxId : Int64) :
    reached (bills ++ more) zxId = reached more (reached bills zxId) :=
  List.foldl_append

theorem readSlots_holds {contents : Bytes} {slots : List LogDesc} {bills : List Bill}
    (h : List.Forall₂ (SlotHolds contents) slots bills) (zxId : Int64) :
    readSlots contents slots zxId = (newer bills zxId, reached bills zxId, true) := by
  induction h generalizing zxId with
  | nil => rfl
  | @cons slot bill slots bills hslot _ ih =>
      have hne : slot.zxId ≠ 0 := hslot.zxId ▸ hslot.ne_zero
      rw [readSlots, if_neg hne, hslot.zxId, newer, reached, List.foldl_cons, ← reached]
      split
      next =>
        rw [hslot.data]
        simp only [ih]
      next => exact ih zxId

namespace FileHolds

variable {contents : Bytes} {h : LogHeader} {bills : List Bill}

theorem header_le (hf : FileHolds contents h bills) : 1612 ≤ contents.length := by
  obtain ⟨rest, hread⟩ := hf.read
  rw [Codec.read] at hread
  split at hread
  next => cases hread
  next hlen =>
    rw [LogHeader.codec_size] at hlen
    omega

theorem toNat_count (hf : FileHolds contents h bills) : h.count.toNatClampNeg = bills.length := by
  have hle := hf.le
  rw [singleLogFileCount] at hle
  rw [hf.count]
  exact Int32.toNatClampNeg_ofNat_of_lt (by omega)

/-- The slots of the header, one for each bill. -/
theorem forall₂ (hf : FileHolds contents h bills) :
    List.Forall₂ (SlotHolds contents) (h.logs.toList.take h.count.toNatClampNeg) bills := by
  have hle := hf.le
  rw [hf.toNat_count]
  refine List.forall₂_iff_get.mpr ⟨?_, fun i hi hb => ?_⟩
  · rw [List.length_take, Vector.length_toList]
    omega
  · have hslot := hf.slots i _ (List.getElem?_eq_getElem hb)
    have hlogs : i < singleLogFileCount := by omega
    simpa [Vector.getD, hlogs] using hslot

theorem exists_last (hf : FileHolds contents h bills) : ∃ k, bills.length = k + 1 := by
  have hlen : 0 < bills.length := List.length_pos_iff.mpr hf.ne_nil
  exact ⟨bills.length - 1, by omega⟩

/-- A slot has data between the header and the end of the file. -/
theorem bounds (hf : FileHolds contents h bills) {i : Nat} (hi : i < bills.length) :
    1612 ≤ (h.logs.getD i {}).offset.toInt ∧
      (h.logs.getD i {}).offset.toInt < (h.logs.getD i {}).stop ∧
      (h.logs.getD i {}).stop ≤ contents.length := by
  have hslot := hf.slots i _ (List.getElem?_eq_getElem hi)
  have hread := fread_some hslot.data
  have hbehind := hslot.behind
  rw [LogDesc.stop]
  omega

/-- The last slot ends last. -/
theorem stop_le_last (hf : FileHolds contents h bills) {i k : Nat} (hk : bills.length = k + 1)
    (hi : i < bills.length) : (h.logs.getD i {}).stop ≤ (h.logs.getD k {}).stop := by
  rcases Nat.lt_or_eq_of_le (show i ≤ k by omega) with hlt | rfl
  · have happart := hf.apart i k hlt (by omega)
    have hbounds := hf.bounds (show k < bills.length by omega)
    omega
  · exact Int.le_refl _

/-- The header is read back behind its write. -/
theorem read_fwrite (contents : Bytes) (h : LogHeader) :
    ∃ rest, LogHeader.codec.read (fwrite contents 0 (LogHeader.codec.encode h)) =
      some (h, rest) := by
  refine ⟨contents.drop (0 + (LogHeader.codec.encode h).length), ?_⟩
  rw [fwrite]
  simp only [List.take_zero, Nat.zero_sub, List.replicate_zero, List.nil_append]
  exact Codec.read_encode _ _ _

theorem length_fwrite_header (hlen : 1612 ≤ contents.length) (h : LogHeader) :
    (fwrite contents 0 (LogHeader.codec.encode h)).length = contents.length := by
  rw [length_fwrite (Nat.zero_le _), Codec.length_encode, LogHeader.codec_size]
  omega

/-- A new header does not touch the data. -/
theorem fread_fwrite_header {offset size : Int32} (hbehind : 1612 ≤ offset.toInt)
    (h : LogHeader) : fread (fwrite contents 0 (LogHeader.codec.encode h)) offset size =
      fread contents offset size := by
  refine fread_congr fun k hk _ => ?_
  rw [getElem?_fwrite (Nat.zero_le _), Codec.length_encode, LogHeader.codec_size,
    if_neg (by omega), if_neg (by omega)]

/-! ## `SaveLogData` -/

/-- The slot a bill is given. -/
theorem getD_fillSlot (hf : FileHolds contents h bills)
    (hroom : bills.length < singleLogFileCount) (bill : Bill) (i : Nat) :
    (Disk.fillSlot h bill).logs.getD i {} =
      if i = bills.length then
        ⟨bill.zxId, h.endBefore bills.length, Int32.ofNat bill.data.length⟩
      else h.logs.getD i {} := by
  have hlen : 0 < bills.length := List.length_pos_iff.mpr hf.ne_nil
  obtain ⟨_, hne⟩ := count_succ hf.count hroom
  have hend : LogHeader.endBefore { h with count := h.count + 1 } bills.length =
      h.endBefore bills.length := by
    obtain ⟨k, hk⟩ : ∃ k, bills.length = k + 1 := ⟨bills.length - 1, by omega⟩
    rw [hk]
    rfl
  rw [Disk.fillSlot]
  simp only [hf.toNat_count, if_neg hne, getD_setIfInBounds, hroom, and_true, hend]

/-- Where the data of the next bill goes: behind the last. -/
theorem toInt_endBefore (hf : FileHolds contents h bills) {k : Nat} (hk : bills.length = k + 1) :
    (h.endBefore bills.length).toInt = (h.logs.getD k {}).stop := by
  obtain ⟨hbehind, hlt, hle⟩ := hf.bounds (show k < bills.length by omega)
  have hsmall := hf.small
  unfold LogDesc.stop at hlt hle ⊢
  rw [hk, LogHeader.endBefore, Int32.toInt_add]
  exact Int.bmod_eq_of_le (by omega) (by omega)

/-- The next bill goes into the file. -/
theorem endBefore_le (hf : FileHolds contents h bills) :
    1612 ≤ (h.endBefore bills.length).toInt ∧
      (h.endBefore bills.length).toNatClampNeg ≤ contents.length := by
  obtain ⟨k, hk⟩ := hf.exists_last
  obtain ⟨hbehind, hlt, hle⟩ := hf.bounds (show k < bills.length by omega)
  rw [← Int32.toNat_toInt, hf.toInt_endBefore hk]
  omega

theorem length_writeBill (hf : FileHolds contents h bills) (data : Bytes) (header : LogHeader) :
    (fwrite (fwrite contents (h.endBefore bills.length).toNatClampNeg data) 0
      (LogHeader.codec.encode header)).length ≤ contents.length + data.length := by
  obtain ⟨_, hpos⟩ := hf.endBefore_le
  have hheader := hf.header_le
  have hlong : 1612 ≤ (fwrite contents (h.endBefore bills.length).toNatClampNeg data).length := by
    rw [length_fwrite hpos]
    omega
  rw [length_fwrite_header hlong, length_fwrite hpos]
  omega

/-- `SaveLogData` appends the bill. -/
theorem writeBill (hf : FileHolds contents h bills) (hroom : bills.length < singleLogFileCount)
    {bill : Bill} (hne : bill.data ≠ []) (hid : bill.zxId ≠ 0)
    (hsmall : contents.length + bill.data.length < 2 ^ 31) :
    FileHolds
      (fwrite (fwrite contents (h.endBefore bills.length).toNatClampNeg bill.data) 0
        (LogHeader.codec.encode (Disk.fillSlot h bill)))
      (Disk.fillSlot h bill) (bills ++ [bill]) := by
  obtain ⟨k, hk⟩ := hf.exists_last
  have hend := hf.toInt_endBefore hk
  obtain ⟨hoffset, hpos⟩ := hf.endBefore_le
  constructor
  case read => exact read_fwrite _ _
  case ne_nil => simp
  case count =>
    rw [List.length_append, List.length_singleton]
    exact (count_succ hf.count hroom).1
  case le =>
    rw [List.length_append, List.length_singleton]
    exact hroom
  case small => exact Nat.lt_of_le_of_lt (hf.length_writeBill _ _) hsmall
  case apart =>
    intro i j hij hj
    rw [List.length_append, List.length_singleton] at hj
    have hi : i < bills.length := by omega
    rw [getD_fillSlot hf hroom, getD_fillSlot hf hroom, if_neg (by omega)]
    split
    next =>
      change (h.logs.getD i {}).stop ≤ (h.endBefore bills.length).toInt
      rw [hend]
      exact hf.stop_le_last hk hi
    next => exact hf.apart i j hij (by omega)
  case slots =>
    intro i b hb
    rw [getD_fillSlot hf hroom]
    split
    next hi =>
      subst hi
      rw [List.getElem?_concat_length, Option.some.injEq] at hb
      subst hb
      refine ⟨rfl, hid, hoffset, ?_⟩
      rw [fread_fwrite_header hoffset]
      exact fread_fwrite (by omega) (by rw [Int32.toNat_toInt]; exact hpos) hne (by omega)
    next hi =>
      have hlt : i < bills.length := by
        have := (List.getElem?_eq_some_iff.mp hb).1
        rw [List.length_append, List.length_singleton] at this
        omega
      rw [List.getElem?_append_left hlt] at hb
      have hslot := hf.slots i b hb
      have hlast := hf.stop_le_last hk hlt
      refine ⟨hslot.zxId, hslot.ne_zero, hslot.behind, ?_⟩
      rw [fread_fwrite_header hslot.behind, ← hslot.data]
      refine fread_congr fun k _ hk => ?_
      rw [getElem?_fwrite hpos, if_pos]
      rw [← Int32.toNat_toInt]
      unfold LogDesc.stop at hlast hend
      omega

/-! ## `TruncFile` -/

theorem truncSlots_keep {start : Int64} (is js : List Nat) (h : LogHeader) (k : Nat)
    (hall : ∀ i ∈ is, (h.logs.getD i {}).zxId ≠ 0 ∧ (h.logs.getD i {}).zxId ≤ start) :
    Disk.truncSlots start (is ++ js) h (Int32.ofNat k) =
      Disk.truncSlots start js h (Int32.ofNat (k + is.length)) := by
  induction is generalizing k with
  | nil => rfl
  | cons i is ih =>
      obtain ⟨hne, hle⟩ := hall i (.head _)
      have hsucc : Int32.ofNat k + 1 = Int32.ofNat (k + 1) := (Int32.ofNat_add k 1).symm
      rw [List.cons_append, Disk.truncSlots, if_neg hne, if_neg (Std.not_lt.mpr hle), hsucc,
        ih (k + 1) fun j hj => hall j (.tail _ hj), List.length_cons]
      congr 2
      omega

/-- Clearing slots changes no others. -/
theorem truncSlots_cut {start : Int64} (is : List Nat) (h : LogHeader) (count : Int32)
    (hnodup : is.Nodup)
    (hall : ∀ i ∈ is, (h.logs.getD i {}).zxId ≠ 0 ∧ start < (h.logs.getD i {}).zxId) :
    (Disk.truncSlots start is h count).2 = count ∧
      ∀ j, j ∉ is → (Disk.truncSlots start is h count).1.logs.getD j {} = h.logs.getD j {} := by
  induction is generalizing h with
  | nil => exact ⟨rfl, fun _ _ => rfl⟩
  | cons i is ih =>
      obtain ⟨hnot, hnodup⟩ := List.nodup_cons.mp hnodup
      obtain ⟨hne, hlt⟩ := hall i (.head _)
      have hother : ∀ j, j ≠ i → (h.logs.setIfInBounds i
          { h.logs.getD i {} with zxId := 0 }).getD j {} = h.logs.getD j {} := by
        intro j hj
        rw [getD_setIfInBounds, if_neg fun heq => hj heq.1]
      rw [Disk.truncSlots, if_neg hne, if_pos hlt]
      obtain ⟨hcount, hslots⟩ := ih
        { h with logs := h.logs.setIfInBounds i { h.logs.getD i {} with zxId := 0 } } hnodup
        (fun j hj => by
          rw [hother j fun heq => hnot (heq ▸ hj)]
          exact hall j (.tail _ hj))
      refine ⟨hcount, fun j hj => ?_⟩
      rw [List.mem_cons, not_or] at hj
      rw [hslots j hj.2, hother j hj.1]

/-- `TruncFile` leaves the bills up to `start`. -/
theorem trunc {kept gone : List Bill} (hf : FileHolds contents h (kept ++ gone)) {start : Int64}
    (hne : kept ≠ []) (hkept : ∀ bill ∈ kept, bill.zxId ≤ start)
    (hgone : ∀ bill ∈ gone, start < bill.zxId) {header : LogHeader} {count : Int32}
    (htrunc : Disk.truncSlots start (List.range h.count.toNatClampNeg) h 0 = (header, count)) :
    FileHolds (fwrite contents 0 (LogHeader.codec.encode { header with count := count }))
      { header with count := count } kept := by
  have hlen : (kept ++ gone).length = kept.length + gone.length := List.length_append
  have hslot : ∀ i, i < (kept ++ gone).length → ∃ bill, (kept ++ gone)[i]? = some bill ∧
      (h.logs.getD i {}).zxId = bill.zxId ∧ (h.logs.getD i {}).zxId ≠ 0 := by
    intro i hi
    have hs := hf.slots i _ (List.getElem?_eq_getElem hi)
    exact ⟨_, List.getElem?_eq_getElem hi, hs.zxId, hs.zxId ▸ hs.ne_zero⟩
  have hfirst : ∀ i ∈ List.range kept.length,
      (h.logs.getD i {}).zxId ≠ 0 ∧ (h.logs.getD i {}).zxId ≤ start := by
    intro i hi
    rw [List.mem_range] at hi
    obtain ⟨bill, hbill, hid, hne⟩ := hslot i (by omega)
    rw [List.getElem?_append_left hi] at hbill
    exact ⟨hne, hid ▸ hkept bill (List.mem_of_getElem? hbill)⟩
  have hlast : ∀ i ∈ (List.range gone.length).map (kept.length + ·),
      (h.logs.getD i {}).zxId ≠ 0 ∧ start < (h.logs.getD i {}).zxId := by
    intro i hi
    obtain ⟨j, hj, rfl⟩ := List.mem_map.mp hi
    rw [List.mem_range] at hj
    obtain ⟨bill, hbill, hid, hne⟩ := hslot (kept.length + j) (by omega)
    rw [List.getElem?_append_right (by omega)] at hbill
    exact ⟨hne, hid ▸ hgone bill (List.mem_of_getElem? hbill)⟩
  have hnodup : ((List.range gone.length).map (kept.length + ·)).Nodup :=
    List.nodup_range.map fun _ _ heq => Nat.add_left_cancel heq
  have hzero : (0 : Int32) = Int32.ofNat 0 := rfl
  rw [hf.toNat_count, hlen, List.range_add, hzero, truncSlots_keep _ _ _ _ hfirst,
    List.length_range, Nat.zero_add] at htrunc
  obtain ⟨hcount, hslots⟩ := truncSlots_cut _ h (Int32.ofNat kept.length) hnodup hlast
  rw [htrunc] at hcount hslots
  have hsame : ∀ i, i < kept.length → header.logs.getD i {} = h.logs.getD i {} := by
    refine fun i hi => hslots i fun hmem => ?_
    obtain ⟨j, _, heq⟩ := List.mem_map.mp hmem
    omega
  constructor
  case read => exact read_fwrite _ _
  case ne_nil => exact hne
  case count => exact hcount
  case le => exact Nat.le_trans (by omega) hf.le
  case small =>
    rw [length_fwrite_header hf.header_le]
    exact hf.small
  case apart =>
    intro i j hij hj
    change (header.logs.getD i {}).stop ≤ (header.logs.getD j {}).offset.toInt
    rw [hsame i (by omega), hsame j hj]
    exact hf.apart i j hij (by omega)
  case slots =>
    intro i bill hbill
    have hi := (List.getElem?_eq_some_iff.mp hbill).1
    have hs := hf.slots i bill (by rw [List.getElem?_append_left hi]; exact hbill)
    change SlotHolds _ (header.logs.getD i {}) bill
    rw [hsame i hi]
    refine ⟨hs.zxId, hs.ne_zero, hs.behind, ?_⟩
    rw [fread_fwrite_header hs.behind]
    exact hs.data

/-! ## A file of one bill -/

/-- The header of a file with one bill. -/
def oneHeader (bill : Bill) : LogHeader where
  start := bill.zxId
  count := 1
  logs := (Vector.replicate _ {}).setIfInBounds 0
    ⟨bill.zxId, 1612, Int32.ofNat bill.data.length⟩

/-- The file. -/
def oneFile (bill : Bill) : Bytes := LogHeader.codec.encode (oneHeader bill) ++ bill.data

theorem one {bill : Bill} (hne : bill.data ≠ []) (hid : bill.zxId ≠ 0)
    (hsmall : 1612 + bill.data.length < 2 ^ 31) :
    FileHolds (oneFile bill) (oneHeader bill) [bill] := by
  have hheader : (LogHeader.codec.encode (oneHeader bill)).length = 1612 := by
    rw [Codec.length_encode, LogHeader.codec_size]
  have hlen : (oneFile bill).length = 1612 + bill.data.length := by
    rw [oneFile, List.length_append, hheader]
  have hfile : fwrite (oneFile bill) 1612 bill.data = oneFile bill := by
    rw [fwrite, hlen, Nat.sub_eq_zero_of_le (Nat.le_add_right ..), oneFile, List.replicate_zero,
      List.append_nil, List.take_left' hheader, List.drop_of_length_le, List.append_nil]
    rw [List.length_append, hheader]
  have hslot : (oneHeader bill).logs.getD 0 {} =
      ⟨bill.zxId, 1612, Int32.ofNat bill.data.length⟩ := by
    rw [oneHeader, getD_setIfInBounds, if_pos ⟨rfl, by decide⟩]
  constructor
  case read => exact ⟨bill.data, Codec.read_encode _ _ _⟩
  case ne_nil => exact List.cons_ne_nil _ _
  case count => rfl
  case le => exact (by decide : 1 ≤ 100)
  case small => omega
  case apart =>
    intro i j hij hj
    rw [List.length_singleton] at hj
    omega
  case slots =>
    intro i b hb
    cases i with
    | succ i => cases hb
    | zero =>
        cases hb
        rw [hslot]
        have hbehind : 1612 ≤ (1612 : Int32).toInt := by decide
        have hpos : 0 ≤ (1612 : Int32).toInt := by decide
        refine ⟨rfl, hid, hbehind, ?_⟩
        rw [← hfile]
        exact fread_fwrite hpos (by rw [hlen]; exact Nat.le_add_right ..) hne (by omega)

end FileHolds

end Paxos
