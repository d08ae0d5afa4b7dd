import Mathlib.Algebra.Ring.Nat
import Mathlib.Logic.Function.Basic
import Zookeeper.Framing
import Zookeeper.Transition

/-!
# Remote calls

All coroutines of a process share one connection to a server.  `OfsRpcChannel::CallMethod`
sends its request under `_writeMutex`, takes `_readMutex` before it gives the first one
up, and reads its reply under the second.  `OfsRpcServer::DealConn` reads one request
after the other and answers each before it reads the next (`ofs/common/rpc/Rpc.cpp`).
There is no number in a request or in a reply that would tell which belong together.

An `Rpc` is the state of all callers, of the server and of the bytes between them.  A
step is an operation on a mutex, a call of `hn_send` or `hn_recv`, or what the server
does with a request.  `hn_recv` returns any part of what has arrived.  What a service
answers, and whether it does, is left to the steps.
-/

namespace Ofs

open Framing

/-- `RpcHeader`. -/
structure RpcHeader where
  size : UInt32
  service : UInt32
  method : UInt16
deriving DecidableEq, Repr

/-- `RpcRet`. -/
structure RpcRet where
  size : UInt32
  failed : Bool
deriving DecidableEq, Repr

/-- The length of the block behind a header.  `ReadBlock` takes an `int32_t`, and no
message is long enough to make a difference. -/
def RpcHeader.block (header : RpcHeader) : Nat := header.size.toNat

/-- The length of the block behind an `RpcRet`. -/
def RpcRet.block (ret : RpcRet) : Nat := ret.size.toNat

/-- The layout of a packed `RpcHeader`. -/
def rpcHeaderCodec : Codec RpcHeader :=
  (Codec.uint32.pair (Codec.uint32.pair Codec.uint16)).map (fun x => ⟨x.1, x.2.1, x.2.2⟩)
    (fun h => (h.size, h.service, h.method)) fun _ => rfl

/-- The layout of a packed `RpcRet`. -/
def rpcRetCodec : Codec RpcRet :=
  (Codec.uint32.pair Codec.bool).map (fun x => ⟨x.1, x.2⟩) (fun r => (r.size, r.failed))
    fun _ => rfl

/-- What `SerializeAsString` returns.  A message of 2 GiB or more is not serialized. -/
structure Serialized where
  bytes : Bytes
  small : bytes.length < 2 ^ 31

/-- A call: the hash of the service, the index of the method and the request. -/
structure RpcRequest where
  service : UInt32
  method : UInt16
  data : Serialized

/-- The header and the data that `CallMethod` sends. -/
def RpcRequest.frame (req : RpcRequest) : RpcHeader × Bytes :=
  (⟨UInt32.ofNat req.data.bytes.length, req.service, req.method⟩, req.data.bytes)

/-- What `DealConn` sends: the response of the service, or that the call failed. -/
def answer : Option Serialized → RpcRet × Bytes
  | some out => (⟨UInt32.ofNat out.bytes.length, false⟩, out.bytes)
  | none => (⟨0, true⟩, [])

/-! ## The parties -/

/-- Where a caller stands in `CallMethod`. -/
inductive CallPhase where
  | idle
  /-- It waits for `_writeMutex`. -/
  | waiting (req : RpcRequest)
  /-- It holds `_writeMutex`, and the header is next. -/
  | sendHeader (req : RpcRequest)
  | sendData (req : RpcRequest)
  /-- It waits for `_readMutex`. -/
  | handOver (req : RpcRequest)
  /-- It holds both, and `writeLock.unlock()` is next. -/
  | unlock (req : RpcRequest)
  /-- It holds `_readMutex`, in `ReadType` or in `ReadBlock`. -/
  | reading (req : RpcRequest) (r : FrameReader RpcRet)

/-- Where the server stands in `DealConn`. -/
inductive ServePhase where
  | reading (r : FrameReader RpcHeader)
  /-- The `RpcRet` of a reply is next. -/
  | sendRet (reply : Option Serialized)
  /-- The response is next. -/
  | sendOut (out : Serialized)

/-- A request as the server has read it, and its reply. -/
structure Served where
  header : RpcHeader
  data : Bytes
  reply : Option Serialized

/-- A call that is over, and what it has read. -/
structure CallResult (ι : Type) where
  caller : ι
  request : RpcRequest
  ret : RpcRet
  out : Bytes

/-- The callers, the server and the connection. -/
structure Rpc (ι : Type) where
  phase : ι → CallPhase := fun _ => .idle
  writeMutex : Option ι := none
  readMutex : Option ι := none
  server : ServePhase := .reading (.atHead [])
  /-- What has been sent and was not received yet. -/
  toServer : Bytes := []
  toClient : Bytes := []
  /-- All that the callers have sent. -/
  sent : Bytes := []
  /-- The calls in the order in which they got `_writeMutex`. -/
  order : List (ι × RpcRequest) := []
  served : List Served := []
  results : List (CallResult ι) := []

inductive RpcAct (ι : Type) where
  /-- `CallMethod` is called. -/
  | call (i : ι) (req : RpcRequest)
  | lockWrite (i : ι)
  /-- A call of `hn_send` in `CallMethod`. -/
  | send (i : ι)
  | lockRead (i : ι)
  | unlockWrite (i : ι)
  /-- A call of `hn_recv` in `CallMethod` returns so many bytes. -/
  | recv (i : ι) (k : Nat)
  /-- The reply is complete, and `readLock.unlock()`. -/
  | finish (i : ι)
  /-- A call of `hn_recv` in `DealConn` returns so many bytes. -/
  | serverRecv (k : Nat)
  /-- A request is complete, and the server makes its reply. -/
  | serve (reply : Option Serialized)
  /-- A call of `hn_send` in `DealConn`. -/
  | serverSend

namespace Rpc

variable {ι : Type} [DecidableEq ι]

def setPhase (s : Rpc ι) (i : ι) (p : CallPhase) : Rpc ι :=
  { s with phase := Function.update s.phase i p }

/-- Bytes go to the server. -/
def sendBytes (s : Rpc ι) (bytes : Bytes) : Rpc ι :=
  { s with toServer := s.toServer ++ bytes, sent := s.sent ++ bytes }

def step (s : Rpc ι) : RpcAct ι → Option (Rpc ι)
  | .call i req =>
      match s.phase i with
      | .idle => some (s.setPhase i (.waiting req))
      | _ => none
  | .lockWrite i =>
      match s.phase i, s.writeMutex with
      | .waiting req, none =>
          some ({ s with
            writeMutex := some i
            order := s.order ++ [(i, req)] }.setPhase i (.sendHeader req))
      | _, _ => none
  | .send i =>
      match s.phase i with
      | .sendHeader req =>
          some ((s.sendBytes (rpcHeaderCodec.encode req.frame.1)).setPhase i (.sendData req))
      | .sendData req => some ((s.sendBytes req.frame.2).setPhase i (.handOver req))
      | _ => none
  | .lockRead i =>
      match s.phase i, s.readMutex with
      | .handOver req, none => some ({ s with readMutex := some i }.setPhase i (.unlock req))
      | _, _ => none
  | .unlockWrite i =>
      match s.phase i with
      | .unlock req =>
          some ({ s with writeMutex := none }.setPhase i (.reading req (.atHead [])))
      | _ => none
  | .recv i k =>
      match s.phase i with
      | .reading req r =>
          if 0 < k ∧ k ≤ r.want rpcRetCodec RpcRet.block ∧ k ≤ s.toClient.length then
            some ({ s with toClient := s.toClient.drop k }.setPhase i
              (.reading req (r.push rpcRetCodec (s.toClient.take k))))
          else none
      | _ => none
  | .finish i =>
      match s.phase i with
      | .reading req (.inBody ret out) =>
          if out.length = RpcRet.block ret then
            some ({ s with
              readMutex := none
              results := s.results ++ [CallResult.mk i req ret out] }.setPhase i .idle)
          else none
      | _ => none
  | .serverRecv k =>
      match s.server with
      | .reading r =>
          if 0 < k ∧ k ≤ r.want rpcHeaderCodec RpcHeader.block ∧ k ≤ s.toServer.length then
            some { s with
              toServer := s.toServer.drop k
              server := .reading (r.push rpcHeaderCodec (s.toServer.take k)) }
          else none
      | _ => none
  | .serve reply =>
      match s.server with
      | .reading (.inBody header data) =>
          if data.length = RpcHeader.block header then
            some { s with
              server := .sendRet reply
              served := s.served ++ [Served.mk header data reply] }
          else none
      | _ => none
  | .serverSend =>
      match s.server with
      | .sendRet reply =>
          some { s with
            toClient := s.toClient ++ rpcRetCodec.encode (answer reply).1
            server :=
              match reply with
              | some out => .sendOut out
              | none => .reading (.atHead []) }
      | .sendOut out =>
          some { s with
            toClient := s.toClient ++ out.bytes
            server := .reading (.atHead []) }
      | _ => none

end Rpc

/-- The callers of one channel and its server. -/
def rpc (ι : Type) [DecidableEq ι] : Transition.System (Rpc ι) (RpcAct ι) :=
  Transition.ofStep (fun s => s = {}) Rpc.step

end Ofs
