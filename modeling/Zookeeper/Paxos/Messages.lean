import Zookeeper.Paxos.DraftFrame
import Zookeeper.Paxos.SocketReader

/-!
# Sending and reading the messages

Everything the two sides of a connection hand to `hn_send`, and the reader that the
other side uses for it (`paxos/paxos/define.h`, `paxos/paxos/lead.cpp`,
`paxos/paxos/follow.cpp`).  The messages of the handshake are expected at one place
and read by `ReadMessage`.  All others go through a `switch` over the type.

`ReadMessage` takes only the type off the connection, so the fields of `FOLLOW_INFO`,
`LEADER_INFO` and `ACK_EPOCH` are neither read nor skipped.  `reads_back_iff` says
which messages are read back and passed exactly, however the connection is cut into
chunks: all but these three, the ping, which is sent as four bytes and read as one,
the draft of a launch, and payloads whose size is lost.
-/

namespace Paxos

open SocketReader

/-- What is handed to `hn_send`. -/
inductive Message where
  /-- The number a follower sends first. -/
  | number (id : Int32)
  | followInfo (peerEpoch : Int32)
  | leaderInfo (peerEpoch : Int32)
  | ackEpoch (lastZxId : Int64) (peerEpoch : Int32)
  | truncDataset (zxId : Int64)
  | snapDataset (zxId : Int64) (data : Bytes) (inPlace : Bool)
  | diffDataset
  | updated
  | newLeader
  | ack
  | request (requestId : Int64) (data : Bytes)
  | requestFail (requestId : Int64)
  /-- An entry that `SyncFollower` sends. -/
  | propose (zxId : Int64) (data : Bytes)
  /-- A draft that `LaunchNextDraft` sends. -/
  | draft (zxId : Int64) (data : Bytes)
  | ackPropose (zxId : Int64)
  | commit (zxId : Int64) (fromId : Int32) (requestId : Int64)
  | ping
  | pong
deriving DecidableEq, Repr

namespace Message

/-- The bytes of a message. -/
def frame : Message → Bytes
  | .number id => Codec.int32.encode id
  | .followInfo peerEpoch => Px.followInfo.code :: Codec.int32.encode peerEpoch
  | .leaderInfo peerEpoch => Px.leaderInfo.code :: Codec.int32.encode peerEpoch
  | .ackEpoch lastZxId peerEpoch =>
      Px.ackEpoch.code :: (Codec.int64.pair Codec.int32).encode (lastZxId, peerEpoch)
  | .truncDataset zxId => truncFrame zxId
  | .snapDataset zxId data inPlace => snapFrame zxId data inPlace
  | .diffDataset => [Px.diffDataset.code]
  | .updated => [Px.updated.code]
  | .newLeader => [Px.newLeader.code]
  | .ack => [Px.ack.code]
  | .request requestId data =>
      Px.request.code :: (sizedCodec.encode (requestId, Int32.ofNat data.length) ++ data)
  | .requestFail requestId => Px.requestFail.code :: Codec.int64.encode requestId
  | .propose zxId data => proposeFrame ⟨zxId, data⟩
  | .draft zxId data => launchFrame zxId data
  | .ackPropose zxId => Px.ackPropose.code :: Codec.int64.encode zxId
  | .commit zxId fromId requestId =>
      Px.commit.code :: commitCodec.encode (zxId, fromId, requestId)
  -- `TickSendPing` sends an `int32_t`
  | .ping => Codec.int32.encode 15
  | .pong => [Px.pong.code]

/-- What a message says. -/
def value : Message → Message
  | .snapDataset zxId data _ => .snapDataset zxId data true
  | .draft zxId data => .propose zxId data
  | m => m

/-- The rest of a message that carries a payload. -/
def readSized (message : Int64 → Bytes → Message) : SocketM (Option Message) := do
  let header ← readRest sizedCodec
  let data ← SocketReader.readBlock header.2
  pure (some (message header.1 data))

/-- The cases of the `switch` over a type.  A type without one is passed over. -/
def readCase : Option Px → SocketM (Option Message)
  | some .truncDataset => (fun zxId => some (.truncDataset zxId)) <$> readRest Codec.int64
  | some .snapDataset => readSized (.snapDataset · · true)
  | some .diffDataset => pure (some .diffDataset)
  | some .updated => pure (some .updated)
  | some .newLeader => pure (some .newLeader)
  | some .request => readSized .request
  | some .requestFail => (fun requestId => some (.requestFail requestId)) <$> readRest Codec.int64
  | some .propose => readSized .propose
  | some .ackPropose => (fun zxId => some (.ackPropose zxId)) <$> readRest Codec.int64
  | some .commit => (fun r => some (.commit r.1 r.2.1 r.2.2)) <$> readRest commitCodec
  | some .ping => pure (some .ping)
  | some .pong => pure (some .pong)
  | _ => pure none

/-- The `switch` over a type. -/
def readSwitch : SocketM (Option Message) := do
  let type ← readType byte
  readCase (Px.ofByte type)

/-- The reader that the other side uses for a message.  `mem` is what is in the memory
of the record that `ReadMessage` is given. -/
def read (mem : Bytes) : Message → SocketM (Option Message)
  | .number _ => (fun id => some (.number id)) <$> readType Codec.int32
  | .followInfo _ => do
      readMessage Px.followInfo.code
      pure (some (.followInfo (Codec.int32.decode mem)))
  | .leaderInfo _ => do
      readMessage Px.leaderInfo.code
      pure (some (.leaderInfo (Codec.int32.decode mem)))
  | .ackEpoch _ _ => do
      readMessage Px.ackEpoch.code
      let r := (Codec.int64.pair Codec.int32).decode mem
      pure (some (.ackEpoch r.1 r.2))
  | .ack => do
      readMessage Px.ack.code
      pure (some .ack)
  | _ => readSwitch

/-- Messages that are read back and passed exactly. -/
def Exact : Message → Prop
  | .followInfo _ | .leaderInfo _ | .ackEpoch _ _ | .draft _ _ | .ping => False
  | .snapDataset _ data inPlace => data.length < 2 ^ 31 ∧ (inPlace = true ∨ data = [])
  | .request _ data | .propose _ data => data.length < 2 ^ 31
  | _ => True

end Message

/-- A sequence of messages is read one by one, each with its own values, and behind
each the next read starts at the next message. -/
def ReadsBack (mem : Message → Bytes) (rest : Bytes) : List Message → List Bytes → Prop
  | [], chunks => chunks.flatten = rest
  | m :: ms, chunks =>
      ∃ chunks', m.read (mem m) chunks = .ok (some m.value, chunks') ∧
        chunks'.flatten = ms.flatMap Message.frame ++ rest ∧ ReadsBack mem rest ms chunks'

namespace Message

/-! ## Exact messages -/

theorem readSized_consumes (message : Int64 → Bytes → Message) (id : Int64) {data : Bytes}
    (h : data.length < 2 ^ 31) :
    Consumes (readSized message) (sizedCodec.encode (id, Int32.ofNat data.length) ++ data)
      (some (message id data)) := by
  refine (readRest_consumes sizedCodec _).bind ?_
  have hblock := (readBlock_consumes (Int32.toInt_ofNat_of_lt h)).bind
    (f := fun data => pure (some (message id data))) (Consumes.pure (some (message id data)))
  rwa [List.append_nil] at hblock

/-- A type and what its case takes. -/
theorem readSwitch_consumes (px : Px) {data : Bytes} {m : Option Message}
    (h : Consumes (readCase (some px)) data m) : Consumes readSwitch (px.code :: data) m := by
  refine (readType_consumes byte px.code).bind ?_
  rw [Px.ofByte_code]
  exact h

/-- An exact message is taken off the connection whole. -/
theorem Exact.consumes {m : Message} (h : m.Exact) (mem : Bytes) :
    Consumes (m.read mem) m.frame (some m.value) := by
  cases m with
  | number id => exact (readType_consumes Codec.int32 id).map _
  | followInfo peerEpoch => exact absurd h id
  | leaderInfo peerEpoch => exact absurd h id
  | ackEpoch lastZxId peerEpoch => exact absurd h id
  | truncDataset zxId =>
      exact readSwitch_consumes .truncDataset ((readRest_consumes Codec.int64 zxId).map _)
  | snapDataset zxId data inPlace =>
      have hsent : (if inPlace then Int32.ofNat data.length else 0) = Int32.ofNat data.length := by
        rcases h.2 with rfl | rfl
        · rfl
        · simp
      have hframe : frame (.snapDataset zxId data inPlace) = Px.snapDataset.code ::
          (sizedCodec.encode (zxId, Int32.ofNat data.length) ++ data) := by
        simp only [frame, snapFrame, hsent]
      rw [hframe]
      exact readSwitch_consumes .snapDataset (readSized_consumes (.snapDataset · · true) zxId h.1)
  | diffDataset => exact readSwitch_consumes .diffDataset (Consumes.pure _)
  | updated => exact readSwitch_consumes .updated (Consumes.pure _)
  | newLeader => exact readSwitch_consumes .newLeader (Consumes.pure _)
  | ack => exact (readMessage_consumes Px.ack.code).bind (Consumes.pure _)
  | request requestId data =>
      exact readSwitch_consumes .request (readSized_consumes .request requestId h)
  | requestFail requestId =>
      exact readSwitch_consumes .requestFail ((readRest_consumes Codec.int64 requestId).map _)
  | propose zxId data => exact readSwitch_consumes .propose (readSized_consumes .propose zxId h)
  | draft zxId data => exact absurd h id
  | ackPropose zxId =>
      exact readSwitch_consumes .ackPropose ((readRest_consumes Codec.int64 zxId).map _)
  | commit zxId fromId requestId =>
      exact readSwitch_consumes .commit
        ((readRest_consumes commitCodec (zxId, fromId, requestId)).map _)
  | ping => exact absurd h id
  | pong => exact readSwitch_consumes .pong (Consumes.pure _)

/-! ## The others -/

section Wrong

variable {chunks chunks' : List Bytes} {rest : Bytes}

/-- A reader that takes less than the message leaves the rest of it. -/
theorem Consumes.leaves {r : SocketM (Option Message)} {data data' : Bytes} {a a' : Option Message}
    (h : Consumes r data a) (hne : ∀ chunk ∈ chunks, chunk ≠ []) (hdata : data' ≠ [])
    (hflat : chunks.flatten = data ++ data' ++ rest) (hr : r chunks = .ok (a', chunks')) :
    chunks'.flatten ≠ rest := by
  rw [List.append_assoc] at hflat
  obtain ⟨-, hleft, -⟩ := h.unique hne hflat hr
  rw [hleft]
  intro heq
  have := congrArg List.length heq
  rw [List.length_append] at this
  exact hdata (List.length_eq_zero_iff.mp (by omega))

/-- A payload that is too long for its size is read differently. -/
theorem readSized_wrong (message : Int64 → Bytes → Message)
    (hinj : ∀ id data data', message id data = message id data' → data = data') {id : Int64}
    {data : Bytes} (hlong : 2 ^ 31 ≤ data.length) (hne : ∀ chunk ∈ chunks, chunk ≠ [])
    (hflat : chunks.flatten = sizedCodec.encode (id, Int32.ofNat data.length) ++ data ++ rest)
    (hr : readSized message chunks = .ok (some (message id data), chunks')) : False := by
  obtain ⟨header, chunks₁, hheader, hr⟩ := bind_ok hr
  obtain ⟨data', chunks₂, hblock, hr⟩ := bind_ok hr
  rw [List.append_assoc] at hflat
  obtain ⟨rfl, hflat', hne'⟩ := (readRest_consumes sizedCodec _).unique hne hflat hheader
  have hwrong := readBlock_wrong hlong hne' hflat' hblock
  have hsame : Except.ok (some (message id data'), chunks₂) = _ := hr
  have hpair := Except.ok.inj hsame
  exact hwrong (hinj _ _ _ (Option.some.inj (congrArg Prod.fst hpair)))

/-- A type is read, and then its case. -/
theorem readSwitch_ok (px : Px) (data : Bytes) {m : Option Message}
    (hne : ∀ chunk ∈ chunks, chunk ≠ []) (hflat : chunks.flatten = px.code :: (data ++ rest))
    (hr : readSwitch chunks = .ok (m, chunks')) :
    ∃ chunks₁, readCase (some px) chunks₁ = .ok (m, chunks') ∧
      chunks₁.flatten = data ++ rest ∧ ∀ chunk ∈ chunks₁, chunk ≠ [] := by
  obtain ⟨type, chunks₁, htype, hr⟩ := bind_ok hr
  obtain ⟨rfl, hrest⟩ := (readType_consumes byte px.code).unique hne hflat htype
  rw [Px.ofByte_code] at hr
  exact ⟨chunks₁, hr, hrest⟩

/-- A message that is not exact is read differently, or not passed as a whole. -/
theorem not_exact {m : Message} (h : ¬ m.Exact) (mem : Bytes)
    (hne : ∀ chunk ∈ chunks, chunk ≠ []) (hflat : chunks.flatten = m.frame ++ rest)
    (hr : m.read mem chunks = .ok (some m.value, chunks')) : chunks'.flatten ≠ rest := by
  cases m with
  | followInfo peerEpoch =>
      have hread := (readMessage_consumes Px.followInfo.code).bind (f := fun _ =>
        pure (some (Message.followInfo (Codec.int32.decode mem)))) (Consumes.pure _)
      exact Consumes.leaves hread hne (List.cons_ne_nil _ _) hflat hr
  | leaderInfo peerEpoch =>
      have hread := (readMessage_consumes Px.leaderInfo.code).bind (f := fun _ =>
        pure (some (Message.leaderInfo (Codec.int32.decode mem)))) (Consumes.pure _)
      exact Consumes.leaves hread hne (List.cons_ne_nil _ _) hflat hr
  | ackEpoch lastZxId peerEpoch =>
      have hread := (readMessage_consumes Px.ackEpoch.code).bind (f := fun _ =>
        pure (some (Message.ackEpoch ((Codec.int64.pair Codec.int32).decode mem).1
          ((Codec.int64.pair Codec.int32).decode mem).2))) (Consumes.pure _)
      exact Consumes.leaves hread hne (List.cons_ne_nil _ _) hflat hr
  | snapDataset zxId data inPlace =>
      exfalso
      cases inPlace with
      | true =>
          have hlong : 2 ^ 31 ≤ data.length := by
            by_contra hlt
            exact h ⟨Nat.lt_of_not_le hlt, .inl rfl⟩
          obtain ⟨chunks₁, hcase, hflat', hne'⟩ := readSwitch_ok .snapDataset
            (sizedCodec.encode (zxId, Int32.ofNat data.length) ++ data) hne hflat hr
          refine readSized_wrong (.snapDataset · · true) (fun _ _ _ heq => ?_) hlong hne' hflat'
            hcase
          cases heq
          rfl
      | false =>
          have hdata : data ≠ [] := by
            rintro rfl
            exact h ⟨by simp, .inr rfl⟩
          -- the size that is sent is zero
          have hempty : ([] : Bytes).length < 2 ^ 31 := by simp
          have hread := readSwitch_consumes .snapDataset
            (readSized_consumes (.snapDataset · · true) zxId hempty)
          have hflat' : chunks.flatten = Px.snapDataset.code ::
              (sizedCodec.encode (zxId, Int32.ofNat 0) ++ []) ++ (data ++ rest) := by
            simpa [frame, snapFrame] using hflat
          obtain ⟨hvalue, -⟩ := hread.unique hne hflat' hr
          cases hvalue
          exact hdata rfl
  | request requestId data =>
      exfalso
      obtain ⟨chunks₁, hcase, hflat', hne'⟩ := readSwitch_ok .request
        (sizedCodec.encode (requestId, Int32.ofNat data.length) ++ data) hne hflat hr
      refine readSized_wrong .request (fun _ _ _ heq => ?_) (Nat.le_of_not_lt h) hne' hflat' hcase
      cases heq
      rfl
  | propose zxId data =>
      exfalso
      obtain ⟨chunks₁, hcase, hflat', hne'⟩ := readSwitch_ok .propose
        (sizedCodec.encode (zxId, Int32.ofNat data.length) ++ data) hne hflat hr
      refine readSized_wrong .propose (fun _ _ _ heq => ?_) (Nat.le_of_not_lt h) hne' hflat' hcase
      cases heq
      rfl
  | draft zxId data =>
      exfalso
      have hread : Consumes readSwitch [Px.none.code] none :=
        readSwitch_consumes .none (Consumes.pure none)
      have hflat' : chunks.flatten = [Px.none.code] ++ (List.replicate 12 0 ++ rest) := hflat
      obtain ⟨hvalue, -⟩ := hread.unique hne hflat' hr
      cases hvalue
  | ping =>
      have hread : Consumes readSwitch [Px.ping.code] (some .ping) :=
        readSwitch_consumes .ping (Consumes.pure (some Message.ping))
      have hzeros : ([0, 0, 0] : Bytes) ≠ [] := by simp
      exact Consumes.leaves hread hne hzeros hflat hr
  | _ => exact absurd trivial h

end Wrong

end Message

/-- A sequence of messages is read back if and only if each of them is exact. -/
theorem reads_back_iff (mem : Message → Bytes) (rest : Bytes) :
    ∀ (ms : List Message) (chunks : List Bytes), (∀ chunk ∈ chunks, chunk ≠ []) →
      chunks.flatten = ms.flatMap Message.frame ++ rest →
      (ReadsBack mem rest ms chunks ↔ ∀ m ∈ ms, m.Exact)
  | [], chunks, _, hflat => by
      simpa [ReadsBack] using hflat
  | m :: ms, chunks, hne, hflat => by
      rw [List.flatMap_cons, List.append_assoc] at hflat
      constructor
      · rintro ⟨chunks', hread, hflat', hback⟩
        have hm : m.Exact := by
          by_contra hwrong
          exact Message.not_exact hwrong (mem m) hne hflat hread hflat'
        obtain ⟨-, -, hne'⟩ := (hm.consumes (mem m)).unique hne hflat hread
        have hms := (reads_back_iff mem rest ms chunks' hne' hflat').mp hback
        intro m' hm'
        rcases List.mem_cons.mp hm' with rfl | hm'
        · exact hm
        · exact hms m' hm'
      · intro hall
        obtain ⟨chunks', hread, hflat', hne'⟩ :=
          (hall m (.head _)).consumes (mem m) chunks _ hne hflat
        exact ⟨chunks', hread, hflat', (reads_back_iff mem rest ms chunks' hne' hflat').mpr
          fun m' hm' => hall m' (.tail _ hm')⟩

/-- The epoch a follower sends is not read. -/
theorem follow_info_unread :
    ¬ ∀ (mem : Message → Bytes) (rest : Bytes) (ms : List Message) (chunks : List Bytes),
      (∀ chunk ∈ chunks, chunk ≠ []) → chunks.flatten = ms.flatMap Message.frame ++ rest →
      ReadsBack mem rest ms chunks := by
  intro h
  have hne : ∀ chunk ∈ [Message.frame (.followInfo 7)], chunk ≠ [] := by simp [Message.frame]
  obtain ⟨chunks', hread, hflat, _⟩ := h (fun _ => []) [] [.followInfo 7]
    [Message.frame (.followInfo 7)] hne (by simp)
  exact Message.not_exact (m := .followInfo 7) id [] hne (by simp) hread hflat

/-- An acknowledgement and a pong, cut in the middle of the first and again in front
of the second. -/
theorem reads_back_ack :
    ReadsBack (fun _ => []) [] [.ackPropose 5, .pong] [[13, 5], [0, 0, 0, 0, 0, 0, 0], [16]] :=
  (reads_back_iff (fun _ => []) [] [.ackPropose 5, .pong] [[13, 5], [0, 0, 0, 0, 0, 0, 0], [16]]
    (by simp) (by decide)).mpr
    (List.forall_mem_cons.mpr ⟨trivial, List.forall_mem_singleton.mpr trivial⟩)

end Paxos
