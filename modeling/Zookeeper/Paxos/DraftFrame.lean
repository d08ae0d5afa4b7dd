import Zookeeper.Paxos.Wire

/-!
# The frame of a draft

`Lead::LaunchNextDraft` builds the `PROPOSE` frame of a draft that it has saved, and
`Follow::ProcossPropose` reads it (`paxos/paxos/lead.cpp`, `paxos/paxos/follow.cpp`).
`FollowHandler::SyncFollower` builds the same frame for an entry it sends again:
that one is `proposeFrame`.

The launch makes room for the frame in one string, writes the header into the other,
which is the draft's data, and sends the first.  So thirteen zeros are sent, whatever
the draft (`launch_frame_wrong`).
-/

namespace Paxos

/-- The packed `paxos_def::Propose`, which the data follows. -/
def proposeHeader (zxId : Int64) (size : Nat) : Bytes :=
  Px.propose.code :: sizedCodec.encode (zxId, Int32.ofNat size)

@[simp] theorem proposeHeader_length (zxId : Int64) (size : Nat) :
    (proposeHeader zxId size).length = 13 := rfl

/-- A record written over the start of a string.  What lies behind the end of a
shorter string is not part of it. -/
def overlay (record data : Bytes) : Bytes := (record ++ data.drop record.length).take data.length

@[simp] theorem overlay_length (record data : Bytes) :
    (overlay record data).length = data.length := by
  simp only [overlay, List.length_take, List.length_append, List.length_drop]
  omega

/-- The strings of `LaunchNextDraft`: `buf`, and the data of the draft. -/
def launchBuffers (zxId : Int64) (data : Bytes) : Bytes × Bytes :=
  let buf := List.replicate 13 0
  -- `propose` is a reference into `data`
  let data := overlay (proposeHeader zxId data.length) data
  let data := data ++ data
  (buf, data)

/-- What `LaunchNextDraft` hands to `hn_send`. -/
def launchFrame (zxId : Int64) (data : Bytes) : Bytes := (launchBuffers zxId data).1

/-- The draft's data behind `LaunchNextDraft`. -/
def launchedData (zxId : Int64) (data : Bytes) : Bytes := (launchBuffers zxId data).2

/-! ## The follower's reader -/

/-- What `ProcossPropose` does with a message. -/
inductive Followed where
  | propose (zxId : Int64) (data : Bytes)
  | commit (zxId : Int64) (fromId : Int32) (requestId : Int64)
  | ping
  | requestFail (requestId : Int64)
  /-- No case of the `switch`. -/
  | skipped
deriving DecidableEq, Repr

/-- One turn of the loop of `Follow::ProcossPropose`, on the bytes that are there. -/
def processNext : Bytes → Except ReadEnd (Followed × Bytes)
  | [] => .error .waits
  | b :: bs =>
      match Px.ofByte b with
      | some .propose =>
          match sizedCodec.read bs with
          | none => .error .waits
          | some ((zxId, size), bs) =>
              (readBlock size bs).map fun (data, bs) => (.propose zxId data, bs)
      | some .commit =>
          match commitCodec.read bs with
          | none => .error .waits
          | some ((zxId, fromId, requestId), bs) => .ok (.commit zxId fromId requestId, bs)
      | some .ping => .ok (.ping, bs)
      | some .requestFail =>
          match Codec.int64.read bs with
          | none => .error .waits
          | some (requestId, bs) => .ok (.requestFail requestId, bs)
      | _ => .ok (.skipped, bs)

/-- The frame that `SyncFollower` sends is read back. -/
theorem processNext_proposeFrame {bill : Bill} (h : bill.data.length < 2 ^ 31) (rest : Bytes) :
    processNext (proposeFrame bill ++ rest) = .ok (.propose bill.zxId bill.data, rest) := by
  have hread := readBlock_append h rest
  simp only [proposeFrame, List.cons_append, List.append_assoc, processNext, Px.ofByte_code,
    Codec.read_encode] at hread ⊢
  rw [hread]
  rfl

/-! ## The launch -/

/-- The encoders and the decoder agree on a draft. -/
structure FrameAgrees (zxId : Int64) (data : Bytes) : Prop where
  decoded : processNext (launchFrame zxId data) = .ok (.propose zxId data, [])
  resent : launchFrame zxId data = proposeFrame ⟨zxId, data⟩
  unchanged : launchedData zxId data = data

/-- The first byte of the frame is no message of the `switch`. -/
theorem processNext_launchFrame (zxId : Int64) (data : Bytes) :
    processNext (launchFrame zxId data) = .ok (.skipped, List.replicate 12 0) := rfl

/-- The launch doubles the draft's data. -/
theorem launchedData_length (zxId : Int64) (data : Bytes) :
    (launchedData zxId data).length = 2 * data.length := by
  simp only [launchedData, launchBuffers, List.length_append, overlay_length]
  omega

theorem launchedData_eq_iff (zxId : Int64) (data : Bytes) :
    launchedData zxId data = data ↔ data = [] := by
  constructor
  · intro h
    have hlen := congrArg List.length h
    rw [launchedData_length] at hlen
    exact List.length_eq_zero_iff.mp (by omega)
  · rintro rfl
    rfl

/-- No draft is decoded, or sent as it is sent again, and only an empty one keeps its
data. -/
theorem launch_frame_wrong (zxId : Int64) (data : Bytes) :
    processNext (launchFrame zxId data) ≠ .ok (.propose zxId data, []) ∧
      launchFrame zxId data ≠ proposeFrame ⟨zxId, data⟩ ∧
      (launchedData zxId data = data ↔ data = []) := by
  refine ⟨?_, ?_, launchedData_eq_iff zxId data⟩
  · rw [processNext_launchFrame]
    simp
  · intro h
    have hhead := congrArg List.head? h
    simp only [launchFrame, launchBuffers, proposeFrame, List.replicate, List.head?_cons,
      Option.some.injEq] at hhead
    exact absurd hhead (by decide)

/-- A draft of two bytes: zeros are sent, and its data becomes part of the header. -/
theorem two_bytes_lost :
    ¬ (∀ zxId data, FrameAgrees zxId data) ∧
      launchFrame (zxIdOf 1 1) [7, 8] = List.replicate 13 0 ∧
      launchedData (zxIdOf 1 1) [7, 8] = [12, 1, 12, 1] := by
  refine ⟨fun h => ?_, rfl, by decide⟩
  exact absurd (h (zxIdOf 1 1) [7, 8]).decoded (by decide)

end Paxos
