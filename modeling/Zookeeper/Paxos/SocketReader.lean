import Zookeeper.Paxos.Wire

/-!
# Reading from a connection

`olib::SocketReader` reads records of a fixed size and blocks of a given one from a
connection (`olib/include/socket_helper.h`).  Every reader calls `hn_recv` until it has
all the bytes it wants.  `hn_recv` returns what is there, and at least one byte, so a
connection is the list of the chunks it will still return.

`Consumes r data a` says that a reader takes exactly `data` off a connection, however
it is cut into chunks, and returns `a`.  Readers are put together with
`Consumes.bind`.
-/

namespace Paxos

/-- A reader of a connection. -/
abbrev SocketM := StateT (List Bytes) (Except ReadEnd)

namespace SocketReader

variable {α β : Type}

/-- A byte. -/
def byte : Codec UInt8 where
  size := 1
  encode b := [b]
  decode bs := bs.headD 0
  length_encode _ := rfl
  decode_encode _ := rfl

/-- `hn_recv` of at most `n` bytes.  Without a chunk it waits. -/
def recv (n : Nat) : List Bytes → Option (Bytes × List Bytes)
  | [] => none
  | chunk :: chunks =>
      some (if chunk.length ≤ n then (chunk, chunks) else (chunk.take n, chunk.drop n :: chunks))

/-- The loop of the readers, with `left` bytes to go.  The fuel is a bound on the
calls of `hn_recv`. -/
def readLoop : Nat → Nat → List Bytes → Except ReadEnd (Bytes × List Bytes)
  | _, 0, chunks => .ok ([], chunks)
  | 0, _ + 1, _ => .error .waits
  | fuel + 1, left + 1, chunks =>
      match recv (left + 1) chunks with
      | none => .error .waits
      | some ([], _) => .error .throws
      | some (bytes, chunks) =>
          (readLoop fuel (left + 1 - bytes.length) chunks).map fun r => (bytes ++ r.1, r.2)

def readBytes (size : Nat) : SocketM Bytes := fun chunks => readLoop size size chunks

/-- `ReadType`. -/
def readType (c : Codec α) : SocketM α := c.decode <$> readBytes c.size

/-- `ReadRest`, for the fields `c` behind the type. -/
def readRest (c : Codec α) : SocketM α := c.decode <$> readBytes c.size

/-- `ReadMessage` with `T` a byte: the type is read, and the fields of the record are
left as they are in memory. -/
def readMessage (type : UInt8) : SocketM Unit := do
  let bytes ← readBytes 1
  if bytes = [type] then pure () else throw .throws

/-- `ReadBlock`.  A negative size is no size for a string. -/
def readBlock (size : Int32) : SocketM Bytes :=
  if size < 0 then throw .throws else readBytes size.toNatClampNeg

/-- A reader in two steps returns where both do. -/
theorem bind_ok {r : SocketM α} {f : α → SocketM β} {chunks : List Bytes} {p : β × List Bytes}
    (h : (r >>= f) chunks = .ok p) :
    ∃ a chunks', r chunks = .ok (a, chunks') ∧ f a chunks' = .ok p := by
  change ((r chunks).bind fun p => f p.1 p.2) = _ at h
  cases hr : r chunks with
  | error e =>
      rw [hr] at h
      cases h
  | ok q =>
      rw [hr] at h
      exact ⟨q.1, q.2, rfl, h⟩

/-! ## What a reader consumes -/

/-- The reader takes `data` off any connection that starts with it, and returns `a`. -/
def Consumes (r : SocketM α) (data : Bytes) (a : α) : Prop :=
  ∀ chunks rest, (∀ chunk ∈ chunks, chunk ≠ []) → chunks.flatten = data ++ rest →
    ∃ chunks', r chunks = .ok (a, chunks') ∧ chunks'.flatten = rest ∧
      ∀ chunk ∈ chunks', chunk ≠ []

namespace Consumes

theorem pure (a : α) : Consumes (Pure.pure a) [] a :=
  fun chunks _ hne h => ⟨chunks, rfl, h, hne⟩

theorem bind {r : SocketM α} {f : α → SocketM β} {data data' : Bytes} {a : α} {b : β}
    (h : Consumes r data a) (h' : Consumes (f a) data' b) :
    Consumes (r >>= f) (data ++ data') b := by
  intro chunks rest hne hflat
  obtain ⟨chunks', hr, hflat', hne'⟩ := h chunks (data' ++ rest) hne (by simpa using hflat)
  obtain ⟨chunks'', hf, hflat'', hne''⟩ := h' chunks' rest hne' hflat'
  refine ⟨chunks'', ?_, hflat'', hne''⟩
  change ((r chunks).bind fun p => f p.1 p.2) = _
  rw [hr]
  exact hf

theorem map {r : SocketM α} {data : Bytes} {a : α} (h : Consumes r data a) (f : α → β) :
    Consumes (f <$> r) data (f a) := by
  intro chunks rest hne hflat
  obtain ⟨chunks', hr, hrest⟩ := h chunks rest hne hflat
  refine ⟨chunks', ?_, hrest⟩
  change ((r chunks).bind fun p => Except.ok (f p.1, p.2)) = _
  rw [hr]
  rfl

/-- What a reader takes and returns is determined by the connection. -/
theorem unique {r : SocketM α} {data rest : Bytes} {a a' : α} {chunks chunks' : List Bytes}
    (h : Consumes r data a) (hne : ∀ chunk ∈ chunks, chunk ≠ [])
    (hflat : chunks.flatten = data ++ rest) (hr : r chunks = .ok (a', chunks')) :
    a' = a ∧ chunks'.flatten = rest ∧ ∀ chunk ∈ chunks', chunk ≠ [] := by
  obtain ⟨chunks'', hr', hrest⟩ := h chunks rest hne hflat
  rw [hr] at hr'
  cases hr'
  exact ⟨rfl, hrest⟩

end Consumes

/-- A call of `hn_recv` returns the bytes at the front. -/
theorem recv_flatten {n : Nat} {chunks : List Bytes} (hne : ∀ chunk ∈ chunks, chunk ≠ [])
    (hn : 0 < n) (hchunks : chunks ≠ []) :
    ∃ bytes chunks', recv n chunks = some (bytes, chunks') ∧ bytes ≠ [] ∧ bytes.length ≤ n ∧
      chunks.flatten = bytes ++ chunks'.flatten ∧ ∀ chunk ∈ chunks', chunk ≠ [] := by
  cases chunks with
  | nil => exact absurd rfl hchunks
  | cons chunk chunks =>
      have hchunk : chunk ≠ [] := hne chunk (.head _)
      simp only [recv]
      split
      next hle => exact ⟨chunk, chunks, rfl, hchunk, hle, rfl, fun c hc => hne c (.tail _ hc)⟩
      next hgt =>
        have hlt : n < chunk.length := Nat.lt_of_not_le hgt
        have hpos : 0 < (chunk.take n).length := by
          rw [List.length_take]
          omega
        refine ⟨chunk.take n, chunk.drop n :: chunks, rfl,
          List.ne_nil_of_length_pos hpos, ?_, ?_, ?_⟩
        · rw [List.length_take]
          omega
        · simp [← List.append_assoc]
        · intro c hc
          rcases List.mem_cons.mp hc with rfl | hc
          · refine List.ne_nil_of_length_pos ?_
            rw [List.length_drop]
            omega
          · exact hne c (.tail _ hc)

theorem readLoop_flatten (fuel left : Nat) (chunks : List Bytes) (data rest : Bytes)
    (hne : ∀ chunk ∈ chunks, chunk ≠ []) (hfuel : left ≤ fuel) (hlen : data.length = left)
    (hflat : chunks.flatten = data ++ rest) :
    ∃ chunks', readLoop fuel left chunks = .ok (data, chunks') ∧ chunks'.flatten = rest ∧
      ∀ chunk ∈ chunks', chunk ≠ [] := by
  induction fuel generalizing left chunks data with
  | zero =>
      obtain rfl := Nat.le_zero.mp hfuel
      obtain rfl := List.length_eq_zero_iff.mp hlen
      exact ⟨chunks, rfl, hflat, hne⟩
  | succ fuel ih =>
      rcases left with _ | left
      · obtain rfl := List.length_eq_zero_iff.mp hlen
        exact ⟨chunks, rfl, hflat, hne⟩
      have hchunks : chunks ≠ [] := by
        rintro rfl
        have := congrArg List.length hflat
        simp only [List.flatten_nil, List.length_nil, List.length_append] at this
        omega
      obtain ⟨bytes, chunks', hrecv, hbytes, hle, hsplit, hne'⟩ :=
        recv_flatten hne (Nat.succ_pos left) hchunks
      have hpos : 0 < bytes.length := List.length_pos_iff.mpr hbytes
      -- what was received is the front of the data
      obtain ⟨data', rfl⟩ : ∃ data', data = bytes ++ data' := by
        rw [hsplit] at hflat
        exact List.append_eq_append_iff.mp hflat |>.elim
          (fun ⟨as, h, _⟩ => ⟨as, h⟩)
          fun ⟨as, h, _⟩ => by
            have hlen' := congrArg List.length h
            rw [List.length_append, hlen] at hlen'
            have has : as = [] := List.length_eq_zero_iff.mp (by omega)
            exact ⟨[], by simp [h, has]⟩
      have hflat' : chunks'.flatten = data' ++ rest := by
        rw [hsplit, List.append_assoc] at hflat
        exact List.append_cancel_left hflat
      rw [List.length_append] at hlen
      obtain ⟨chunks'', hloop, hrest⟩ := ih (left + 1 - bytes.length) chunks' data'
        hne' (by omega) (by omega) hflat'
      refine ⟨chunks'', ?_, hrest⟩
      obtain ⟨b, bs, rfl⟩ := List.exists_cons_of_ne_nil hbytes
      simp only [readLoop, hrecv, hloop]
      rfl

theorem readBytes_consumes (data : Bytes) : Consumes (readBytes data.length) data data :=
  fun chunks rest hne hflat =>
    readLoop_flatten _ _ chunks data rest hne (Nat.le_refl _) rfl hflat

theorem readType_consumes (c : Codec α) (a : α) : Consumes (readType c) (c.encode a) a := by
  have h := (readBytes_consumes (c.encode a)).map c.decode
  rwa [c.length_encode, c.decode_encode] at h

theorem readRest_consumes (c : Codec α) (a : α) : Consumes (readRest c) (c.encode a) a :=
  readType_consumes c a

/-- Of a message, `ReadMessage` takes the type. -/
theorem readMessage_consumes (type : UInt8) : Consumes (readMessage type) [type] () := by
  have hrest : Consumes (if [type] = [type] then Pure.pure () else throw ReadEnd.throws) [] () := by
    rw [if_pos rfl]
    exact Consumes.pure _
  exact (readBytes_consumes [type]).bind hrest

theorem readBlock_consumes {size : Int32} {data : Bytes} (h : size.toInt = data.length) :
    Consumes (readBlock size) data data := by
  have hneg : ¬ size < 0 := by
    rw [Int32.lt_iff_toInt_lt, h]
    exact Int.not_lt.mpr (Int.natCast_nonneg _)
  have hnat : size.toNatClampNeg = data.length := by
    rw [← Int32.toNat_toInt, h, Int.toNat_natCast]
  rw [readBlock, if_neg hneg, hnat]
  exact readBytes_consumes data

/-- A block that is too long for its size field is not read as it was sent. -/
theorem readBlock_wrong {data data' rest : Bytes} {chunks chunks' : List Bytes}
    (hlong : 2 ^ 31 ≤ data.length) (hne : ∀ chunk ∈ chunks, chunk ≠ [])
    (hflat : chunks.flatten = data ++ rest)
    (hr : readBlock (Int32.ofNat data.length) chunks = .ok (data', chunks')) : data' ≠ data := by
  rw [readBlock] at hr
  split at hr
  next => cases hr
  next hneg =>
    have hlt : (Int32.ofNat data.length).toNatClampNeg < 2 ^ 31 := by
      have := (Int32.ofNat data.length).toInt_lt
      rw [← Int32.toNat_toInt]
      omega
    have htake : (data.take (Int32.ofNat data.length).toNatClampNeg).length =
        (Int32.ofNat data.length).toNatClampNeg := by
      rw [List.length_take]
      omega
    have hread := readBytes_consumes (data.take (Int32.ofNat data.length).toNatClampNeg)
    rw [htake] at hread
    have hflat' : chunks.flatten = data.take (Int32.ofNat data.length).toNatClampNeg ++
        (data.drop (Int32.ofNat data.length).toNatClampNeg ++ rest) := by
      rw [hflat, ← List.append_assoc, List.take_append_drop]
    obtain ⟨rfl, _⟩ := hread.unique hne hflat' hr
    intro heq
    have := congrArg List.length heq
    omega

end SocketReader

end Paxos
