import Zookeeper.Ofs.Directory
import Zookeeper.Ofs.MasterBlock

/-!
# Requests of clients to the master

The file requests of `ofs/master/client/ClientService.cpp`, for a user that is acquired.
Creating, removing, listing, and asking for the status of a node work on the namespace
alone.  Reading asks for the replicas of a block, writing and appending for a lease.

The namespace and the table of blocks are the state.  The clock, the chunk servers, the
placement policy and the id generator are given with a request.  A chunk server stands
for its endpoint.
-/

namespace Ofs.Master

/-! ## Blocks of files -/

/-- `BlockManager::_blocks`. -/
abbrev Blocks := List (Int64 × Block)

/-- A block under its id. -/
def Blocks.put (blocks : Blocks) (id : Int64) (block : Block) : Blocks :=
  (id, block) :: blocks.filter fun e => e.1 ≠ id

/-- `BLOCK_ID`. -/
def blockId (fileId : Int64) (index : Int32) : Int64 :=
  fileId ||| ((index.toInt64 &&& 0x1FFFFF) <<< 10)

/-- `FileSystem::CalcBlockCount`. -/
def calcBlockCount (blockSize size : UInt32) : Int32 :=
  (size / blockSize + if size % blockSize = 0 then 0 else 1).toInt32

/-- `FileSystem::CalcAppendBlock`. -/
def calcAppendBlock (blockSize size : UInt32) : Int32 := (size / blockSize + 1).toInt32

/-- `Block::Read`: the servers with the version of the block. -/
def Block.read (b : Block) : List Nat :=
  (b.chunkServer.filter fun r => r.version == b.version).map Replica.server

/-! ## Requests and responses -/

/-- The state that requests work on. -/
structure State where
  root : Item
  blocks : Blocks := []
deriving DecidableEq, Repr

/-- What is configured. -/
structure Settings where
  block : Config
  blockSize : UInt32

/-- What a request finds outside of the namespace and the table of blocks. -/
structure Outside where
  now : Nat
  useAble : Nat → Bool
  /-- The result of `DataNodeService::Distribute`. -/
  distributed : List Nat
  /-- The result of `IdGenerator::GenerateId`. -/
  nextId : Int64

/-- The requests of `OfsFileService` that need a user. -/
inductive Request where
  | makeDir (directory name : Bytes) (authority : Int32)
  | create (directory name : Bytes) (authority : Int32)
  | list (path : Bytes)
  | remove (path : Bytes)
  | status (path : Bytes)
  | read (path : Bytes) (blockIndex : Int32)
  | write (path : Bytes) (blockIndex : Int32)
  | append (path : Bytes)
deriving DecidableEq, Repr

/-- `api::master::File`. -/
structure FileStatus where
  name : Bytes
  owner : Bytes
  group : Bytes
  authority : Int32
  size : UInt32
  blockSize : UInt32
  createTime : Int64
  updateTime : Int64
  dir : Bool
deriving DecidableEq, Repr

/-- `api::master::BlockLease`. -/
structure BlockLease where
  id : Int64
  expires : Nat
  version : Int64
  newVersion : Int64
  ep : Nat
  chunkServers : List Nat
  key : Bytes := []
deriving DecidableEq, Repr

/-- The responses, in one. -/
structure Response where
  errCode : ErrorCode
  files : List FileStatus := []
  id : Option Int64 := none
  eps : List Nat := []
  lease : Option BlockLease := none
deriving DecidableEq, Repr

/-! ## Handlers -/

/-- `c_str`: a string ends at its first zero byte. -/
def cStr (s : Bytes) : Bytes := s.takeWhile (· ≠ 0)

/-- The fields `List` and `Status` fill in. -/
def Item.status (settings : Settings) (item : Item) : FileStatus :=
  { name := item.node.name, owner := item.node.owner, group := item.node.ownerGroup,
    authority := item.node.authority.toInt32, size := item.node.size,
    blockSize := settings.blockSize, createTime := item.node.createTime,
    updateTime := item.node.updateTime, dir := item.isDir }

/-- `Directory::List` of the directory itself. -/
def Children.list : Children → List Item
  | .empty => []
  | .file node id rest => if node.delete then rest.list else .file node id :: rest.list
  | .directory node children rest =>
      if node.delete then rest.list else .directory node children :: rest.list

/-- What `Directory::List` returns for a node. -/
def Item.list : Item → List Item
  | .file node id => [.file node id]
  | .directory _ children => children.list

/-- The answer of a walk: its own, or the error of one that leads nowhere. -/
def answer (r : Option Response) : Response := r.getD { errCode := .fileNotExist }

/-- The callback of `ClientService::Read`. -/
def readBlock (settings : Settings) (blocks : Blocks) (blockIndex : Int32) : Item → Response
  | .directory .. => { errCode := .isDir }
  | .file node fileId =>
      if blockIndex < 1 ∨ calcBlockCount settings.blockSize node.size < blockIndex then
        { errCode := .outOfRange }
      else
        match blocks.lookup (blockId fileId blockIndex) with
        | none => { errCode := .blockMissing }
        | some block => { errCode := .none, id := some block.id, eps := block.read }

/-- The lease part of the callbacks of `Write` and `Append`. -/
def leaseBlock (settings : Settings) (outside : Outside) (blocks : Blocks) (id : Int64)
    (block : Block) : Response × Blocks :=
  match block.write settings.block outside.useAble outside.distributed outside.now with
  | (block, none) => ({ errCode := .blockNotReady }, blocks.put id block)
  | (block, some (server, replicas)) =>
      ({ errCode := .none
         lease := some
           { id := block.id, expires := block.lease, version := block.version,
             newVersion := block.expectVersion, ep := server, chunkServers := replicas } },
        blocks.put id block)

/-- The callback of `ClientService::Write`. -/
def writeBlock (settings : Settings) (outside : Outside) (blocks : Blocks) (blockIndex : Int32) :
    Item → Response × Blocks
  | .directory .. => ({ errCode := .isDir }, blocks)
  | .file node fileId =>
      if blockIndex < 1 ∨ calcBlockCount settings.blockSize node.size < blockIndex then
        ({ errCode := .outOfRange }, blocks)
      else
        match blocks.lookup (blockId fileId blockIndex) with
        | none => ({ errCode := .blockMissing }, blocks)
        | some block => leaseBlock settings outside blocks (blockId fileId blockIndex) block

/-- `BlockManager::GetOrCreate`. -/
def Blocks.getOrCreate (blocks : Blocks) (id : Int64) : Block :=
  (blocks.lookup id).getD { id := id }

/-- The callback of `ClientService::Append`. -/
def appendBlock (settings : Settings) (outside : Outside) (blocks : Blocks) :
    Item → Response × Blocks
  | .directory .. => ({ errCode := .isDir }, blocks)
  | .file node fileId =>
      let id := blockId fileId (calcAppendBlock settings.blockSize node.size)
      leaseBlock settings outside blocks id (blocks.getOrCreate id)

/-- A request that leaves the namespace as it is: what its callback returns. -/
def Item.ask {α : Type} (root : Item) (path : Bytes) (fn : Item → α) : Option α :=
  (root.queryNode (fun item => (fn item, item)) (cStr path)).1

/-- A request that makes a node. -/
def State.create (s : State) (user : User) (outside : Outside) (directory name : Bytes)
    (authority : Int32) (dir : Bool) : State × Response :=
  let r := s.root.queryNode
    (Item.createNode user (cStr name) authority.toInt16 dir (Int64.ofNat outside.now)
      outside.nextId) (cStr directory)
  ({ s with root := r.2 }, answer (r.1.map fun code => { errCode := code }))

/-- A request that may grant a lease. -/
def State.grant (s : State) (r : Option (Response × Blocks)) : State × Response :=
  ({ s with blocks := (r.map Prod.snd).getD s.blocks }, answer (r.map Prod.fst))

/-- The handlers of `ClientService`, for an acquired user. -/
def State.serve (settings : Settings) (s : State) (user : User) (outside : Outside) :
    Request → State × Response
  | .makeDir directory name authority => s.create user outside directory name authority true
  | .create directory name authority => s.create user outside directory name authority false
  | .list path =>
      (s, { errCode := .none,
            files := (((s.root.ask path Item.list).getD []).map (Item.status settings)) })
  | .remove path =>
      let r := s.root.queryNode (Item.remove user (Int64.ofNat outside.now)) (cStr path)
      ({ s with root := r.2 }, answer (r.1.map fun code => { errCode := code }))
  | .status path =>
      (s, answer (s.root.ask path fun item =>
        { errCode := .none, files := [item.status settings] }))
  | .read path blockIndex =>
      (s, answer (s.root.ask path (readBlock settings s.blocks blockIndex)))
  | .write path blockIndex =>
      s.grant (s.root.ask path (writeBlock settings outside s.blocks blockIndex))
  | .append path => s.grant (s.root.ask path (appendBlock settings outside s.blocks))

end Ofs.Master
