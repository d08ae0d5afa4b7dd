import Mathlib.Data.List.Basic
import Zookeeper.Transition

/-!
# The master's view of a block

`Block` is the master-side record of one block: its highest reported version,
the version promised to the next lease holder, and the replicas with the
version, fault flag and lease of each (`ofs/master/block/Block.h`).

The clock, the usability of a chunk server and the placement policy come from
outside the block.  They are arguments: `now`, `useAble`, and the results of
`DataNodeService::Distribute` and `SelectUnnecessary`.  Time stamps are
milliseconds since the epoch.
-/

namespace Ofs.Master

/-- `ofs::Replica`: one chunk server's copy as the master last heard of it. -/
structure Replica where
  /-- The id of `_server`. -/
  server : Nat
  leaseTick : Nat := 0
  version : Int64 := 0
  fault : Bool := false
deriving DecidableEq, Repr

/-- `ofs::Block`. -/
structure Block where
  id : Int64
  version : Int64 := 0
  expectVersion : Int64 := 0
  lease : Nat := 0
  size : Int := 0
  recoverLease : Nat := 0
  chunkServer : List Replica := []
deriving DecidableEq, Repr

/-- The lease times `BlockManager` reads from the configuration, and the wanted
number of replicas. -/
structure Config where
  blockCount : Nat
  writeLease : Nat
  recoverLease : Nat
  recoverAndWriteInterval : Nat

/-- What the master sends to chunk servers about a block. -/
inductive Notice where
  | cleanBlock (server : Nat)
  | recoverBlock (server : Nat) (version : Int64) (lease : Nat) (copyTo : List Nat)
deriving DecidableEq, Repr

/-! ## Leases -/

/-- `Block::NextVersion`: the next multiple of `2 ^ 32` above the version. -/
def Block.nextVersion (b : Block) : Int64 :=
  (((b.version >>> 32) &&& 0xFFFFFFFF) + 1) <<< 32

/-- The loop of `Block::FindMainReplica`, with the position reached, and the
`mainReplica` and `lowerReplca` found so far. -/
def findMainLoop (version : Int64) (useAble : Nat → Bool) (now : Nat) :
    Nat → List Replica → Option Nat → Option Nat → Option Nat
  | _, [], main, lower => main.or lower
  | i, r :: rs, main, lower =>
      if r.version ≠ version then findMainLoop version useAble now (i + 1) rs main lower
      else if main.isSome then main
      else if now < r.leaseTick then
        if useAble r.server then findMainLoop version useAble now (i + 1) rs (some i) lower
        else none
      else if lower = none ∧ useAble r.server = true then
        findMainLoop version useAble now (i + 1) rs main (some i)
      else findMainLoop version useAble now (i + 1) rs main lower

/-- `Block::FindMainReplica`: the position of the replica to write through. -/
def Block.findMainReplica (b : Block) (useAble : Nat → Bool) (now : Nat) : Option Nat :=
  findMainLoop b.version useAble now 0 b.chunkServer none none

/-- The first lines of `Block::Write`: an empty replica list is filled. -/
def Block.place (b : Block) (distributed : List Nat) : Block :=
  if b.chunkServer = [] then
    { b with chunkServer := distributed.map fun s => { server := s } }
  else b

/-- A new lease for the replica at position `i`. -/
def Block.grant (b : Block) (i : Nat) (r : Replica) (tick : Nat) : Block :=
  { b with
    chunkServer := b.chunkServer.set i { r with leaseTick := tick }
    lease := tick
    expectVersion := b.nextVersion }

/-- `Block::Write`: the primary and the other replicas, with the block after.
`distributed` is the result of `Distribute({}, {})`. -/
def Block.write (cfg : Config) (b : Block) (useAble : Nat → Bool) (distributed : List Nat)
    (now : Nat) : Block × Option (Nat × List Nat) :=
  let b := b.place distributed
  match b.findMainReplica useAble now with
  | none => (b, none)
  | some i =>
      match b.chunkServer[i]? with
      | none => (b, none)
      | some main =>
          let others := (b.chunkServer.map Replica.server).filter (· ≠ main.server)
          if main.leaseTick ≤ now then
            (b.grant i main (now + cfg.writeLease), some (main.server, others))
          else (b, some (main.server, others))

/-! ## Reports -/

/-- What a report does once the replica is found at position `i`: the common
body of `UpdateReplica` and `ReportReplica`.  The second component is the new
size, or zero. -/
def Block.note (b : Block) (i : Nat) (version : Int64) (size : Int) (fault : Bool) :
    Block × Int :=
  let b := { b with
    chunkServer := b.chunkServer.modify i fun r => { r with version := version, fault := fault } }
  if fault then (b, 0)
  else
    let b := if version > b.version then { b with version := version } else b
    let b := if version > b.expectVersion then { b with expectVersion := version } else b
    if b.size < size then ({ b with size := size }, size) else (b, 0)

/-- The position of a server's replica. -/
def Block.position (b : Block) (server : Nat) : Option Nat :=
  b.chunkServer.findIdx? fun r => r.server == server

/-- `Block::UpdateReplica`: a chunk server that wrote the block reports it. -/
def Block.updateReplica (b : Block) (server : Nat) (version : Int64) (size : Int)
    (fault : Bool) : Block × Int :=
  match b.position server with
  | some i => b.note i version size fault
  | none => (b, 0)

/-- `Block::ReportReplica`: the same from a periodic report, which may also
introduce the server. -/
def Block.reportReplica (b : Block) (server : Nat) (version : Int64) (size : Int)
    (fault : Bool) : Block × Int :=
  match b.position server with
  | some i => b.note i version size fault
  | none =>
      Block.note { b with chunkServer := b.chunkServer ++ [{ server := server }] }
        b.chunkServer.length version size fault

/-! ## Replica count -/

/-- `bIs` counts towards `has` in `Block::CheckReplica`. -/
def Block.healthy (b : Block) (useAble : Nat → Bool) (r : Replica) : Bool :=
  !r.fault && r.version == b.version && useAble r.server

/-- `Block::CheckReplica`.  `distribute` and `selectUnnecessary` are the
placement policy. -/
def Block.checkReplica (cfg : Config) (b : Block) (useAble : Nat → Bool)
    (distribute : List Nat → List Nat → List Nat) (selectUnnecessary : List Nat → List Nat)
    (now : Nat) : Block × List Notice :=
  if b.recoverLease > now then (b, [])
  else
    match (b.findMainReplica useAble now).bind (b.chunkServer[·]?) with
    | none => (b, [])
    | some main =>
        if main.leaseTick + cfg.recoverAndWriteInterval > now then (b, [])
        else
          let has := (b.chunkServer.filter (b.healthy useAble)).map Replica.server
          let except := (b.chunkServer.filter (!b.healthy useAble ·)).map Replica.server
          let clean := except.map Notice.cleanBlock
          if has.length < cfg.blockCount then
            let servers := distribute has except
            if servers = [] then (b, clean)
            else
              ({ b with
                  recoverLease := now + cfg.recoverLease
                  chunkServer := b.chunkServer ++ servers.map fun s => { server := s } },
                clean ++ [.recoverBlock main.server b.version (now + cfg.recoverLease) servers])
          else if cfg.blockCount < has.length then
            (b, clean ++ ((b.chunkServer.map Replica.server).filter
              (· ∈ selectUnnecessary has)).map Notice.cleanBlock)
          else (b, clean)

end Ofs.Master
