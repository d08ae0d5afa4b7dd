import Zookeeper.Paxos.DataSet

/-!
# Messages on the wire

A message is a type byte followed by a packed record, and some carry data behind
the record (`paxos/paxos/define.h`).  Only the messages a follower gets while it
synchronises are laid out here.  `readBlock` is `SocketReader::ReadBlock` on the
bytes that are there.
-/

namespace Paxos

/-- The message types. -/
inductive Px where
  | none
  | followInfo
  | leaderInfo
  | ackEpoch
  | truncDataset
  | snapDataset
  | diffDataset
  | updated
  | newLeader
  | ack
  | request
  | requestFail
  | propose
  | ackPropose
  | commit
  | ping
  | pong
deriving DecidableEq, Repr

/-- The byte of a type. -/
def Px.code : Px → UInt8
  | .none => 0
  | .followInfo => 1
  | .leaderInfo => 2
  | .ackEpoch => 3
  | .truncDataset => 4
  | .snapDataset => 5
  | .diffDataset => 6
  | .updated => 7
  | .newLeader => 8
  | .ack => 9
  | .request => 10
  | .requestFail => 11
  | .propose => 12
  | .ackPropose => 13
  | .commit => 14
  | .ping => 15
  | .pong => 16

/-- The type of a byte, for a `switch` over types. -/
def Px.ofByte (b : UInt8) : Option Px :=
  [.none, .followInfo, .leaderInfo, .ackEpoch, .truncDataset, .snapDataset, .diffDataset, .updated,
    .newLeader, .ack, .request, .requestFail, .propose, .ackPropose, .commit, .ping, .pong].find?
    fun px => px.code = b

@[simp] theorem Px.ofByte_code (px : Px) : Px.ofByte px.code = some px := by
  cases px <;> rfl

/-! ## Frames -/

/-- The rest of `paxos_def::Propose` and of `paxos_def::Snap`: an id and a size. -/
def sizedCodec : Codec (Int64 × Int32) := Codec.int64.pair Codec.int32

/-- The rest of `paxos_def::Commit`: the id, `fromId` and `requestId`. -/
def commitCodec : Codec (Int64 × Int32 × Int64) :=
  Codec.int64.pair (Codec.int32.pair Codec.int64)

/-- `paxos_def::Trunc`. -/
def truncFrame (zxId : Int64) : Bytes := Px.truncDataset.code :: Codec.int64.encode zxId

/-- `paxos_def::Propose` and its data. -/
def proposeFrame (bill : Bill) : Bytes :=
  Px.propose.code :: (sizedCodec.encode (bill.zxId, Int32.ofNat bill.data.length) ++ bill.data)

/-- `paxos_def::Commit` with only the id set. -/
def commitFrame (zxId : Int64) : Bytes := Px.commit.code :: commitCodec.encode (zxId, 0, 0)

/-- The frame of `FollowHandler::Snap`.  The size is stored through a reference
into the string that `GetData` appends to, and is lost if that moves the string. -/
def snapFrame (zxId : Int64) (data : Bytes) (inPlace : Bool) : Bytes :=
  let size := if inPlace then Int32.ofNat data.length else 0
  Px.snapDataset.code :: (sizedCodec.encode (zxId, size) ++ data)

/-! ## Reading -/

/-- What a reader finds. -/
inductive ReadEnd where
  /-- The stream ends, and the reader waits for more. -/
  | waits
  /-- A negative size is no size for a string. -/
  | throws
deriving DecidableEq, Repr

/-- `SocketReader::ReadBlock`. -/
def readBlock (size : Int32) (bs : Bytes) : Except ReadEnd (Bytes × Bytes) :=
  if size < 0 then .error .throws
  else if bs.length < size.toNatClampNeg then .error .waits
  else .ok (bs.take size.toNatClampNeg, bs.drop size.toNatClampNeg)

/-- A block of less than two gigabytes is read back. -/
theorem readBlock_append {data : Bytes} (h : data.length < 2 ^ 31) (rest : Bytes) :
    readBlock (Int32.ofNat data.length) (data ++ rest) = .ok (data, rest) := by
  have hint : (Int32.ofNat data.length).toInt = data.length :=
    Int32.toInt_ofNat_of_lt h
  have hnat : (Int32.ofNat data.length).toNatClampNeg = data.length := by
    rw [← Int32.toNat_toInt, hint, Int.toNat_natCast]
  have hneg : ¬ Int32.ofNat data.length < 0 := by
    rw [Int32.lt_iff_toInt_lt, hint]
    exact Int.not_lt.mpr (Int.natCast_nonneg _)
  rw [readBlock, if_neg hneg, hnat, if_neg (by simp), List.take_left, List.drop_left]

end Paxos
