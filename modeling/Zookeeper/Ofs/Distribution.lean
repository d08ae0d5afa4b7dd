import Mathlib.Data.List.Nodup

/-!
# Where the replicas of a block go

`DefaultDataCluster` places replicas (`ofs/master/chunk/cluster/DefaultDataCluster.cpp`).
Chunk servers stand in racks and racks in data centers.  A search starts at a random place
of a vector and goes round it once.  `Distribute` asks for a server anywhere, for one in
another rack of the same data center, for one in that one's rack, and for the rest anywhere.

There is one `DataNode` for each id, so a server is its id here.  `useAble` is `IsUseAble` at
the time of the call, and `rand n` what the `n`-th call of `rand` returns.  The block count is
an `int32_t` that is compared with sizes, so a negative one counts as a large one there and
as a small one in the loop that places the rest.

Every search passes over the servers of `old`, `except` and `add`, so that no server comes
twice and none that the block has (`Draft.Fresh`).
-/

namespace Ofs.Master

/-- `ofs::Rack`, with the id of its data center. -/
structure Rack where
  id : Nat
  dc : Nat
  chunkServers : List Nat
deriving DecidableEq, Repr

/-- `ofs::DataCenter`. -/
structure DataCenter where
  id : Nat
  racks : List Rack
deriving DecidableEq, Repr

/-- `ofs::DefaultDataCluster`. -/
structure DataCluster where
  dataCenters : List DataCenter
deriving DecidableEq, Repr

/-- What a distribution carries along: the servers added, and the calls of `rand` made. -/
structure Draft where
  add : List Nat := []
  calls : Nat := 0
deriving DecidableEq, Repr

/-- The servers registered: those of the racks of the data centers. -/
def DataCenter.servers (dc : DataCenter) : List Nat :=
  dc.racks.flatMap Rack.chunkServers

@[inherit_doc DataCenter.servers]
def DataCluster.servers (c : DataCluster) : List Nat :=
  c.dataCenters.flatMap DataCenter.servers

/-- `ChunkServer::GetRack`.  Every server of the code stands in a rack. -/
def DataCluster.getRack (c : DataCluster) (server : Nat) : Option Rack :=
  (c.dataCenters.flatMap DataCenter.racks).find? (server ∈ ·.chunkServers)

/-- `Rack::GetDataCenter` of a server's rack. -/
def DataCluster.getDataCenter (c : DataCluster) (server : Nat) : Option DataCenter :=
  (c.getRack server).bind fun k => c.dataCenters.find? (·.id = k.dc)

/-- An `int32_t` where it is compared with a `size_t`. -/
def asSize (n : Int32) : Nat :=
  n.toInt64.toUInt64.toNat

section Choose

variable (useAble : Nat → Bool) (rand : Nat → Nat) (old except : List Nat)

/-- The loop of `Rack::ChooseChunkServer`, with the rounds left and the position. -/
def Rack.chooseLoop (servers : List Nat) : Nat → Nat → Draft → Option Nat × Draft
  | 0, _, d => (none, d)
  | c + 1, r, d =>
      let r := (r + 1) % servers.length
      match servers[r]? with
      | none => (none, d)
      | some cs =>
          if cs ∈ old then Rack.chooseLoop servers c r d
          else if cs ∈ except then Rack.chooseLoop servers c r d
          else if cs ∈ d.add then Rack.chooseLoop servers c r d
          else if !useAble cs then Rack.chooseLoop servers c r d
          else (some cs, { d with add := d.add ++ [cs] })

/-- `Rack::ChooseChunkServer`. -/
def Rack.chooseChunkServer (k : Rack) (d : Draft) : Option Nat × Draft :=
  if k.chunkServers = [] then (none, d)
  else
    Rack.chooseLoop useAble old except k.chunkServers k.chunkServers.length
      (rand d.calls % k.chunkServers.length) { d with calls := d.calls + 1 }

/-- The loop that goes round the racks of a data center, or round the data centers: the
excluded one is stepped over where it is met. -/
def chooseLoop {α : Type} [DecidableEq α] (choose : α → Draft → Option Nat × Draft)
    (items : List α) (exclude : Option α) : Nat → Nat → Draft → Option Nat × Draft
  | 0, _, d => (none, d)
  | c + 1, r, d =>
      let r := if items[r]? = exclude then (r + 1) % items.length else r
      match items[r]? with
      | none => (none, d)
      | some item =>
          match choose item d with
          | (some s, d) => (some s, d)
          | (none, d) => chooseLoop choose items exclude c ((r + 1) % items.length) d

/-- The body that `DataCenter::ChooseChunkServer` and `ChooseRandomChunkServer` share. -/
def chooseFrom {α : Type} [DecidableEq α] (choose : α → Draft → Option Nat × Draft)
    (items : List α) (exclude : Option α) (d : Draft) : Option Nat × Draft :=
  if items = [] then (none, d)
  else
    chooseLoop choose items exclude items.length (rand d.calls % items.length)
      { d with calls := d.calls + 1 }

/-- `DataCenter::ChooseChunkServer`. -/
def DataCenter.chooseChunkServer (exclude : Option Rack) (dc : DataCenter) (d : Draft) :
    Option Nat × Draft :=
  chooseFrom rand (Rack.chooseChunkServer useAble rand old except) dc.racks exclude d

namespace DataCluster

variable (c : DataCluster)

/-- `DefaultDataCluster::ChooseRandomChunkServer`. -/
def chooseRandomChunkServer (exclude : Option DataCenter) (d : Draft) : Option Nat × Draft :=
  chooseFrom rand (DataCenter.chooseChunkServer useAble rand old except none) c.dataCenters
    exclude d

/-- `DefaultDataCluster::ChooseLocalChunkServer`. -/
def chooseLocalChunkServer (d : Draft) : Option Nat × Draft :=
  match old with
  | [] => c.chooseRandomChunkServer useAble rand old except none d
  | s :: _ => (some s, d)

/-- `DefaultDataCluster::ChooseLocalRackChunkServer`. -/
def chooseLocalRackChunkServer (blockCount : Int32) (base : Nat) (d : Draft) :
    Option Nat × Draft :=
  let search := match c.getRack base with
    | none => (none, d)
    | some k => k.chooseChunkServer useAble rand old except d
  if 2 ≤ old.length then
    match old.tail.find? fun s => c.getRack s ≠ c.getRack base with
    | some s => (some s, d)
    | none => if asSize blockCount ≤ old.length + d.add.length then (none, d) else search
  else search

/-- `DefaultDataCluster::ChooseRemoteRackChunkServer`. -/
def chooseRemoteRackChunkServer (base : Nat) (d : Draft) : Option Nat × Draft :=
  match c.getDataCenter base with
  | none => (none, d)
  | some dc =>
      match dc.chooseChunkServer useAble rand old except (c.getRack base) d with
      | (some s, d) => (some s, d)
      | (none, d) => c.chooseRandomChunkServer useAble rand old except (some dc) d

/-- The last loop of `DefaultDataCluster::Distribute`. -/
def chooseRest : Nat → Draft → Draft
  | 0, d => d
  | n + 1, d =>
      match c.chooseRandomChunkServer useAble rand old except none d with
      | (none, d) => d
      | (some _, d) => chooseRest n d

/-- `DefaultDataCluster::Distribute`, with the vector returned in `add`. -/
def distributeDraft (blockCount : Int32) : Draft :=
  if asSize blockCount ≤ old.length then {}
  else
    match c.chooseLocalChunkServer useAble rand old except {} with
    | (none, d) => d
    | (some localServer, d) =>
        if blockCount = 1 then d
        else
          match c.chooseRemoteRackChunkServer useAble rand old except localServer d with
          | (none, d) => c.chooseRest useAble rand old except (blockCount.toInt - 3).toNat d
          | (some second, d) =>
              if blockCount = 2 then d
              else
                let third := c.chooseLocalRackChunkServer useAble rand old except blockCount
                  second d
                if third.1.isSome ∧ blockCount = 3 then third.2
                else c.chooseRest useAble rand old except (blockCount.toInt - 3).toNat third.2

/-- `DataNodeService::Distribute`. -/
def distribute (blockCount : Int32) : List Nat :=
  if asSize blockCount ≤ old.length then []
  else (c.distributeDraft useAble rand old except blockCount).add

end DataCluster

end Choose

/-! ## What is added -/

/-- The servers added are distinct, registered, usable, and neither in `old` nor in
`except`. -/
structure Draft.Fresh (servers : List Nat) (useAble : Nat → Bool) (old except : List Nat)
    (d : Draft) : Prop where
  nodup : d.add.Nodup
  new : ∀ s ∈ d.add, s ∉ old ∧ s ∉ except ∧ useAble s = true
  registered : ∀ s ∈ d.add, s ∈ servers

namespace DataCluster

variable (c : DataCluster)

/-- The servers of a server's data center are registered. -/
theorem servers_getDataCenter {base : Nat} {dc : DataCenter} (h : c.getDataCenter base = some dc) :
    dc.servers ⊆ c.servers := by
  obtain ⟨k, -, hk⟩ := Option.bind_eq_some_iff.mp h
  exact fun _ hs => List.mem_flatMap.mpr ⟨dc, List.mem_of_find?_eq_some hk, hs⟩

/-- The servers of a server's rack are registered. -/
theorem servers_getRack {base : Nat} {k : Rack} (h : c.getRack base = some k) :
    k.chunkServers ⊆ c.servers := by
  obtain ⟨dc, hdc, hk⟩ := List.mem_flatMap.mp (List.mem_of_find?_eq_some h)
  exact fun _ hs => List.mem_flatMap.mpr ⟨dc, hdc, List.mem_flatMap.mpr ⟨k, hk, hs⟩⟩

/-- A distribution returns nothing, or what its draft has added. -/
theorem distribute_eq (useAble : Nat → Bool) (rand : Nat → Nat) (old except : List Nat)
    (blockCount : Int32) :
    c.distribute useAble rand old except blockCount =
      (c.distributeDraft useAble rand old except blockCount).add := by
  rw [distribute]
  split
  next h => rw [distributeDraft, if_pos h]
  next => rfl

end DataCluster

end Ofs.Master
