import Mathlib.Data.List.Induction
import Mathlib.Logic.Function.Basic
import Zookeeper.SortedVector

/-!
# The registry of chunk servers

`DefaultDataCluster` has the data centers, these their racks, and these the chunk servers, as
vectors of pointers that are sorted by the ids of the objects.  A rack points back to its data
center and a chunk server to its rack.  `_nodes` has the chunk servers by their ids.

`Register` looks for a server there.  A new one is put into its rack by three searches, each of
which inserts where it finds nothing.  Each searches a vector that the earlier insertions must
have left sorted.  `registry_consistent` says that they do, that the pointers agree, and that
a server that was registered stays where it is.

Every `new` returns the next address.  Objects are never deleted.
-/

namespace Ofs.Master

open SortedVector (Sorted find insert)

/-- Where an object is, as `new` returns it. -/
abbrev Pointer := Nat

/-! ## Objects -/

namespace Registry

/-- `ofs::ChunkServer`. -/
structure ChunkServer where
  id : Int32 := 0
  rack : Pointer := 0
deriving DecidableEq, Repr

/-- `ofs::Rack`. -/
structure Rack where
  id : Int32 := 0
  dc : Pointer := 0
  chunkServers : List Pointer := []
deriving DecidableEq, Repr

/-- `ofs::DataCenter`. -/
structure DataCenter where
  id : Int32 := 0
  racks : List Pointer := []
deriving DecidableEq, Repr

end Registry

/-- `ofs::DefaultDataCluster`, with the objects that it leads to. -/
structure Registry where
  dataCenters : List Pointer := []
  nodes : Int32 → Option Pointer := fun _ => none
  dataCenter : Pointer → Registry.DataCenter := fun _ => {}
  rack : Pointer → Registry.Rack := fun _ => {}
  chunkServer : Pointer → Registry.ChunkServer := fun _ => {}
  /-- Where `new` makes the next object. -/
  next : Pointer := 0

/-- A call of `Register`. -/
structure Registration where
  id : Int32
  rack : Int32
  dc : Int32
deriving DecidableEq, Repr

namespace Registry

variable (c : Registry)

/-! ## Registering -/

/-- `DefaultDataCluster::Get`. -/
def get (id : Int32) : Option Pointer := c.nodes id

/-- The id that `_dataCenters` is sorted by. -/
def dataCenterId (p : Pointer) : Int32 := (c.dataCenter p).id

/-- The id that `DataCenter::_racks` is sorted by. -/
def rackId (q : Pointer) : Int32 := (c.rack q).id

/-- The id that `Rack::_chunkServers` is sorted by. -/
def chunkServerId (s : Pointer) : Int32 := (c.chunkServer s).id

/-- `new DataCenter(dc)`, and the insertion into `_dataCenters`. -/
def newDataCenter (dc : Int32) : Registry :=
  { c with
    dataCenters := insert c.dataCenterId dc c.next c.dataCenters
    dataCenter := Function.update c.dataCenter c.next { id := dc }
    next := c.next + 1 }

/-- The data center that `Register` looks for, or makes. -/
def getDataCenter (dc : Int32) : Pointer × Registry :=
  match find c.dataCenterId dc c.dataCenters with
  | some p => (p, c)
  | none => (c.next, c.newDataCenter dc)

/-- `new Rack(id, this)`, and the insertion into `_racks`. -/
def newRack (p : Pointer) (id : Int32) : Registry :=
  { c with
    dataCenter := Function.update c.dataCenter p
      { c.dataCenter p with racks := insert c.rackId id c.next (c.dataCenter p).racks }
    rack := Function.update c.rack c.next { id, dc := p }
    next := c.next + 1 }

/-- `DataCenter::Get(id, true)` of the data center at `p`. -/
def getRack (p : Pointer) (id : Int32) : Pointer × Registry :=
  match find c.rackId id (c.dataCenter p).racks with
  | some q => (q, c)
  | none => (c.next, c.newRack p id)

/-- `new ChunkServer(id, this)`, and the insertion into `_chunkServers`. -/
def newChunkServer (q : Pointer) (id : Int32) : Registry :=
  { c with
    rack := Function.update c.rack q
      { c.rack q with
        chunkServers := insert c.chunkServerId id c.next (c.rack q).chunkServers }
    chunkServer := Function.update c.chunkServer c.next { id, rack := q }
    next := c.next + 1 }

/-- `Rack::Get(id, true)` of the rack at `q`. -/
def getChunkServer (q : Pointer) (id : Int32) : Pointer × Registry :=
  match find c.chunkServerId id (c.rack q).chunkServers with
  | some s => (s, c)
  | none => (c.next, c.newChunkServer q id)

/-- `_nodes[id] = node`. -/
def setNode (id : Int32) (s : Pointer) : Registry :=
  { c with nodes := Function.update c.nodes id (some s) }

/-- `dataCenter->Get(rack, true)` of `Register`, with the data center it looks for. -/
def seat (rack dc : Int32) : Pointer × Registry :=
  let dataCenter := c.getDataCenter dc
  dataCenter.2.getRack dataCenter.1 rack

/-- `DefaultDataCluster::Register`. -/
def register (r : Registration) : Pointer × Registry :=
  match c.get r.id with
  | some node => (node, c)
  | none =>
      let rack := c.seat r.rack r.dc
      let node := rack.2.getChunkServer rack.1 r.id
      (node.1, node.2.setNode r.id node.1)

/-- A sequence of calls, the first one first. -/
def registerAll (calls : List Registration) : Registry :=
  calls.foldl (fun c r => (c.register r).2) {}

/-! ## What holds of a registry -/

/-- The rack at `q` is in the vector of the data center at `p`. -/
def HasRack (p q : Pointer) : Prop := p ∈ c.dataCenters ∧ q ∈ (c.dataCenter p).racks

/-- The chunk server at `s` is in the vector of the rack at `q`, and that of `p`. -/
def Stands (p q s : Pointer) : Prop := c.HasRack p q ∧ s ∈ (c.rack q).chunkServers

/-- The vectors are sorted, and the pointers lead back. -/
structure Ordered : Prop where
  dataCenters : Sorted c.dataCenterId c.dataCenters
  racks : ∀ p ∈ c.dataCenters, Sorted c.rackId (c.dataCenter p).racks
  chunkServers : ∀ p q, c.HasRack p q → Sorted c.chunkServerId (c.rack q).chunkServers
  getDataCenter : ∀ p q, c.HasRack p q → (c.rack q).dc = p
  getRack : ∀ p q s, c.Stands p q s → (c.chunkServer s).rack = q

/-- `_nodes` has the servers that stand in a rack. -/
def Indexed : Prop :=
  ∀ id s, c.get id = some s ↔ c.chunkServerId s = id ∧ ∃ p q, c.Stands p q s

/-- What a sequence of calls leaves. -/
structure Consistent (calls : List Registration) : Prop extends c.Ordered where
  indexed : c.Indexed
  /-- A server stands in one rack of one data center. -/
  place : ∀ id s, c.get id = some s →
    ∃! place : Pointer × Pointer, c.Stands place.1 place.2 s
  /-- The servers are those that have registered. -/
  registered : ∀ id, (∃ s, c.get id = some s) ↔ ∃ r ∈ calls, r.id = id
  /-- A server stands where its first call has put it. -/
  first : ∀ earlier r later, calls = earlier ++ r :: later → r.id ∉ earlier.map (·.id) →
    ∃ p q s, ((registerAll earlier).register r).1 = s ∧ c.get r.id = some s ∧ c.Stands p q s ∧
      c.dataCenterId p = r.dc ∧ c.rackId q = r.rack

/-- What is there stays as it was. -/
structure Keeps (c c' : Registry) : Prop where
  dataCenter : ∀ p ∈ c.dataCenters, p ∈ c'.dataCenters ∧ c'.dataCenterId p = c.dataCenterId p
  rack : ∀ p q, c.HasRack p q →
    c'.HasRack p q ∧ c'.rackId q = c.rackId q ∧ (c'.rack q).dc = (c.rack q).dc
  chunkServer : ∀ p q s, c.Stands p q s → c'.Stands p q s ∧ c'.chunkServer s = c.chunkServer s
  get : ∀ id s, c.get id = some s → c'.get id = some s

/-- Nothing is where the next object will be. -/
structure Inv : Prop extends c.Ordered where
  dataCenter_lt : ∀ p ∈ c.dataCenters, p < c.next
  rack_lt : ∀ p q, c.HasRack p q → q < c.next
  chunkServer_lt : ∀ p q s, c.Stands p q s → s < c.next

/-- A step that makes a place for a server. -/
structure Prepares (c c' : Registry) : Prop where
  inv : c'.Inv
  keeps : c.Keeps c'
  nodes : c'.nodes = c.nodes
  chunkServer : c'.chunkServer = c.chunkServer
  stands : ∀ p q s, c'.Stands p q s ↔ c.Stands p q s

variable {c} {c' c'' : Registry}

theorem Keeps.refl (c : Registry) : c.Keeps c where
  dataCenter _ hp := ⟨hp, rfl⟩
  rack _ _ hq := ⟨hq, rfl, rfl⟩
  chunkServer _ _ _ hs := ⟨hs, rfl⟩
  get _ _ hs := hs

theorem Keeps.trans (h : c.Keeps c') (h' : c'.Keeps c'') : c.Keeps c'' where
  dataCenter p hp :=
    have hp' := h.dataCenter p hp
    have hp'' := h'.dataCenter p hp'.1
    ⟨hp''.1, hp''.2.trans hp'.2⟩
  rack p q hq :=
    have hq' := h.rack p q hq
    have hq'' := h'.rack p q hq'.1
    ⟨hq''.1, hq''.2.1.trans hq'.2.1, hq''.2.2.trans hq'.2.2⟩
  chunkServer p q s hs :=
    have hs' := h.chunkServer p q s hs
    have hs'' := h'.chunkServer p q s hs'.1
    ⟨hs''.1, hs''.2.trans hs'.2⟩
  get id s hs := h'.get id s (h.get id s hs)

theorem Prepares.refl (h : c.Inv) : c.Prepares c where
  inv := h
  keeps := .refl c
  nodes := rfl
  chunkServer := rfl
  stands _ _ _ := Iff.rfl

theorem Prepares.trans (h : c.Prepares c') (h' : c'.Prepares c'') : c.Prepares c'' where
  inv := h'.inv
  keeps := h.keeps.trans h'.keeps
  nodes := h'.nodes.trans h.nodes
  chunkServer := h'.chunkServer.trans h.chunkServer
  stands p q s := (h'.stands p q s).trans (h.stands p q s)

/-! ## The data center -/

section DataCenter

theorem newDataCenter_self (c : Registry) (dc : Int32) :
    (c.newDataCenter dc).dataCenter c.next = { id := dc } := Function.update_self _ _ _

variable (h : c.Inv) {dc : Int32}
include h

theorem mem_newDataCenter {p : Pointer} :
    p ∈ (c.newDataCenter dc).dataCenters ↔ p = c.next ∨ p ∈ c.dataCenters :=
  h.dataCenters.mem_insert

theorem dataCenter_newDataCenter {p : Pointer} (hp : p ∈ c.dataCenters) :
    (c.newDataCenter dc).dataCenter p = c.dataCenter p :=
  Function.update_of_ne (Nat.ne_of_lt (h.dataCenter_lt p hp)) _ _

theorem hasRack_newDataCenter {p q : Pointer} :
    (c.newDataCenter dc).HasRack p q ↔ c.HasRack p q := by
  rw [HasRack, HasRack, mem_newDataCenter h]
  constructor
  · rintro ⟨rfl | hp, hq⟩
    · rw [newDataCenter_self] at hq
      cases hq
    · exact ⟨hp, dataCenter_newDataCenter h hp ▸ hq⟩
  · rintro ⟨hp, hq⟩
    exact ⟨.inr hp, (dataCenter_newDataCenter h hp).symm ▸ hq⟩

/-- A new data center is empty. -/
theorem prepares_newDataCenter (absent : ∀ p ∈ c.dataCenters, c.dataCenterId p ≠ dc) :
    c.Prepares (c.newDataCenter dc) := by
  have hsame : ∀ p ∈ c.dataCenters, (c.newDataCenter dc).dataCenterId p = c.dataCenterId p :=
    fun p hp => congrArg DataCenter.id (dataCenter_newDataCenter h hp)
  have hstands : ∀ p q s, (c.newDataCenter dc).Stands p q s ↔ c.Stands p q s :=
    fun p q s => and_congr_left fun _ => hasRack_newDataCenter h
  exact {
    inv := {
      dataCenters := h.dataCenters.insert absent hsame
        (congrArg DataCenter.id (newDataCenter_self c dc))
      racks := fun p hp => by
        rcases (mem_newDataCenter h).1 hp with rfl | hp
        · rw [newDataCenter_self]
          exact List.Pairwise.nil
        · rw [dataCenter_newDataCenter h hp]
          exact h.racks p hp
      chunkServers := fun p q hq => h.chunkServers p q ((hasRack_newDataCenter h).1 hq)
      getDataCenter := fun p q hq => h.getDataCenter p q ((hasRack_newDataCenter h).1 hq)
      getRack := fun p q s hs => h.getRack p q s ((hstands p q s).1 hs)
      dataCenter_lt := fun p hp => by
        rcases (mem_newDataCenter h).1 hp with rfl | hp
        · exact Nat.lt_succ_self _
        · exact Nat.lt_succ_of_lt (h.dataCenter_lt p hp)
      rack_lt := fun p q hq => Nat.lt_succ_of_lt (h.rack_lt p q ((hasRack_newDataCenter h).1 hq))
      chunkServer_lt := fun p q s hs =>
        Nat.lt_succ_of_lt (h.chunkServer_lt p q s ((hstands p q s).1 hs)) }
    keeps := {
      dataCenter := fun p hp => ⟨(mem_newDataCenter h).2 (.inr hp), hsame p hp⟩
      rack := fun p q hq => ⟨(hasRack_newDataCenter h).2 hq, rfl, rfl⟩
      chunkServer := fun p q s hs => ⟨(hstands p q s).2 hs, rfl⟩
      get := fun _ _ hs => hs }
    nodes := rfl
    chunkServer := rfl
    stands := hstands }

/-- `Register` has the data center with the id. -/
theorem getDataCenter_spec (dc : Int32) : c.Prepares (c.getDataCenter dc).2 ∧
    (c.getDataCenter dc).1 ∈ (c.getDataCenter dc).2.dataCenters ∧
    (c.getDataCenter dc).2.dataCenterId (c.getDataCenter dc).1 = dc := by
  rw [getDataCenter]
  cases hfind : find c.dataCenterId dc c.dataCenters with
  | some p => exact ⟨.refl h, h.dataCenters.find_eq_some_iff.1 hfind⟩
  | none =>
      exact ⟨prepares_newDataCenter h (h.dataCenters.find_eq_none_iff.1 hfind),
        (mem_newDataCenter h).2 (.inl rfl), congrArg DataCenter.id (newDataCenter_self c dc)⟩

end DataCenter

/-! ## The rack -/

section Rack

variable {p : Pointer} {id : Int32}

theorem newRack_self (c : Registry) (p : Pointer) (id : Int32) :
    (c.newRack p id).rack c.next = { id, dc := p } := Function.update_self _ _ _

theorem dataCenter_newRack (c : Registry) (p : Pointer) (id : Int32) (p' : Pointer) :
    (c.newRack p id).dataCenter p' =
      if p' = p then
        { c.dataCenter p with racks := insert c.rackId id c.next (c.dataCenter p).racks }
      else c.dataCenter p' := Function.update_apply _ _ _ _

theorem dataCenterId_newRack (c : Registry) (p : Pointer) (id : Int32) :
    (c.newRack p id).dataCenterId = c.dataCenterId := by
  funext p'
  rw [dataCenterId, dataCenter_newRack]
  split
  next heq => rw [heq, dataCenterId]
  next => rfl

variable (h : c.Inv)
include h

theorem rack_newRack {p' q : Pointer} (hq : c.HasRack p' q) :
    (c.newRack p id).rack q = c.rack q :=
  Function.update_of_ne (Nat.ne_of_lt (h.rack_lt p' q hq)) _ _

theorem hasRack_newRack (hp : p ∈ c.dataCenters) {p' q : Pointer} :
    (c.newRack p id).HasRack p' q ↔ (p' = p ∧ q = c.next) ∨ c.HasRack p' q := by
  change p' ∈ c.dataCenters ∧ q ∈ ((c.newRack p id).dataCenter p').racks ↔ _
  rw [HasRack, dataCenter_newRack]
  split
  next heq =>
      rw [heq, (h.racks p hp).mem_insert]
      simp [hp]
  next hne => simp [hne]

theorem stands_newRack (hp : p ∈ c.dataCenters) {p' q s : Pointer} :
    (c.newRack p id).Stands p' q s ↔ c.Stands p' q s := by
  rw [Stands, Stands, hasRack_newRack h hp]
  constructor
  · rintro ⟨⟨rfl, rfl⟩ | hq, hs⟩
    · rw [newRack_self] at hs
      cases hs
    · exact ⟨hq, rack_newRack h hq ▸ hs⟩
  · rintro ⟨hq, hs⟩
    exact ⟨.inr hq, (rack_newRack h hq).symm ▸ hs⟩

/-- A new rack is empty, and in its data center. -/
theorem prepares_newRack (hp : p ∈ c.dataCenters)
    (absent : ∀ q ∈ (c.dataCenter p).racks, c.rackId q ≠ id) : c.Prepares (c.newRack p id) := by
  have hsame : ∀ p' q, c.HasRack p' q → (c.newRack p id).rackId q = c.rackId q :=
    fun p' q hq => congrArg Rack.id (rack_newRack h hq)
  exact {
    inv := {
      dataCenters := h.dataCenters.congr fun p' _ => by rw [dataCenterId_newRack]
      racks := fun p' hp' => by
        rw [dataCenter_newRack]
        split
        next heq =>
            exact (h.racks p hp).insert absent (fun q hq => hsame p q ⟨hp, hq⟩)
              (congrArg Rack.id (newRack_self c p id))
        next => exact (h.racks p' hp').congr fun q hq => hsame p' q ⟨hp', hq⟩
      chunkServers := fun p' q hq => by
        rcases (hasRack_newRack h hp).1 hq with ⟨rfl, rfl⟩ | hq
        · rw [newRack_self]
          exact List.Pairwise.nil
        · rw [rack_newRack h hq]
          exact h.chunkServers p' q hq
      getDataCenter := fun p' q hq => by
        rcases (hasRack_newRack h hp).1 hq with ⟨rfl, rfl⟩ | hq
        · rw [newRack_self]
        · rw [rack_newRack h hq]
          exact h.getDataCenter p' q hq
      getRack := fun p' q s hs => h.getRack p' q s ((stands_newRack h hp).1 hs)
      dataCenter_lt := fun p' hp' => Nat.lt_succ_of_lt (h.dataCenter_lt p' hp')
      rack_lt := fun p' q hq => by
        rcases (hasRack_newRack h hp).1 hq with ⟨-, rfl⟩ | hq
        · exact Nat.lt_succ_self _
        · exact Nat.lt_succ_of_lt (h.rack_lt p' q hq)
      chunkServer_lt := fun p' q s hs =>
        Nat.lt_succ_of_lt (h.chunkServer_lt p' q s ((stands_newRack h hp).1 hs)) }
    keeps := {
      dataCenter := fun p' hp' => ⟨hp', by rw [dataCenterId_newRack]⟩
      rack := fun p' q hq => ⟨(hasRack_newRack h hp).2 (.inr hq), hsame p' q hq,
        congrArg Rack.dc (rack_newRack h hq)⟩
      chunkServer := fun _ _ _ hs => ⟨(stands_newRack h hp).2 hs, rfl⟩
      get := fun _ _ hs => hs }
    nodes := rfl
    chunkServer := rfl
    stands := fun _ _ _ => stands_newRack h hp }

/-- `DataCenter::Get` has the rack with the id. -/
theorem getRack_spec (hp : p ∈ c.dataCenters) (id : Int32) : c.Prepares (c.getRack p id).2 ∧
    (c.getRack p id).2.HasRack p (c.getRack p id).1 ∧
    (c.getRack p id).2.rackId (c.getRack p id).1 = id := by
  rw [getRack]
  cases hfind : find c.rackId id (c.dataCenter p).racks with
  | some q =>
      obtain ⟨hq, hid⟩ := (h.racks p hp).find_eq_some_iff.1 hfind
      exact ⟨.refl h, ⟨hp, hq⟩, hid⟩
  | none =>
      exact ⟨prepares_newRack h hp ((h.racks p hp).find_eq_none_iff.1 hfind),
        (hasRack_newRack h hp).2 (.inl ⟨rfl, rfl⟩), congrArg Rack.id (newRack_self c p id)⟩

end Rack

/-! ## The chunk server -/

section ChunkServer

variable {p q : Pointer} {id : Int32}

theorem newChunkServer_self (c : Registry) (q : Pointer) (id : Int32) :
    (c.newChunkServer q id).chunkServer c.next = { id, rack := q } := Function.update_self _ _ _

theorem rack_newChunkServer (c : Registry) (q : Pointer) (id : Int32) (q' : Pointer) :
    (c.newChunkServer q id).rack q' =
      if q' = q then
        { c.rack q with
          chunkServers := insert c.chunkServerId id c.next (c.rack q).chunkServers }
      else c.rack q' := Function.update_apply _ _ _ _

theorem rackId_newChunkServer (c : Registry) (q : Pointer) (id : Int32) :
    (c.newChunkServer q id).rackId = c.rackId := by
  funext q'
  rw [rackId, rack_newChunkServer]
  split
  next heq => rw [heq, rackId]
  next => rfl

theorem dc_newChunkServer (c : Registry) (q : Pointer) (id : Int32) (q' : Pointer) :
    ((c.newChunkServer q id).rack q').dc = (c.rack q').dc := by
  rw [rack_newChunkServer]
  split
  next heq => rw [heq]
  next => rfl

variable (h : c.Inv)
include h

theorem chunkServer_newChunkServer {p' q' s : Pointer} (hs : c.Stands p' q' s) :
    (c.newChunkServer q id).chunkServer s = c.chunkServer s :=
  Function.update_of_ne (Nat.ne_of_lt (h.chunkServer_lt p' q' s hs)) _ _

theorem stands_newChunkServer (hq : c.HasRack p q) {p' q' s : Pointer} :
    (c.newChunkServer q id).Stands p' q' s ↔
      (p' = p ∧ q' = q ∧ s = c.next) ∨ c.Stands p' q' s := by
  change c.HasRack p' q' ∧ s ∈ ((c.newChunkServer q id).rack q').chunkServers ↔ _
  rw [Stands, rack_newChunkServer]
  split
  next heq =>
      rw [heq, (h.chunkServers p q hq).mem_insert]
      -- no other data center has the rack
      have hp : c.HasRack p' q ↔ p' = p :=
        ⟨fun hq' => (h.getDataCenter p' q hq').symm.trans (h.getDataCenter p q hq),
          fun hp => hp ▸ hq⟩
      simp only [hp, true_and, and_or_left]
  next hne => simp [hne]

/-- A new chunk server is in its rack. -/
theorem inv_newChunkServer (hq : c.HasRack p q)
    (absent : ∀ s ∈ (c.rack q).chunkServers, c.chunkServerId s ≠ id) :
    (c.newChunkServer q id).Inv := by
  have hsame : ∀ p' q' s, c.Stands p' q' s →
      (c.newChunkServer q id).chunkServerId s = c.chunkServerId s :=
    fun p' q' s hs => congrArg ChunkServer.id (chunkServer_newChunkServer h hs)
  exact {
    dataCenters := h.dataCenters
    racks := fun p' hp' => (h.racks p' hp').congr fun q' _ => by rw [rackId_newChunkServer]
    chunkServers := fun p' q' hq' => by
      change c.HasRack p' q' at hq'
      rw [rack_newChunkServer]
      split
      next heq =>
          exact (h.chunkServers p q hq).insert absent (fun s hs => hsame p q s ⟨hq, hs⟩)
            (congrArg ChunkServer.id (newChunkServer_self c q id))
      next => exact (h.chunkServers p' q' hq').congr fun s hs => hsame p' q' s ⟨hq', hs⟩
    getDataCenter := fun p' q' hq' => by
      rw [dc_newChunkServer]
      exact h.getDataCenter p' q' hq'
    getRack := fun p' q' s hs => by
      rcases (stands_newChunkServer h hq).1 hs with ⟨-, rfl, rfl⟩ | hs
      · rw [newChunkServer_self]
      · rw [chunkServer_newChunkServer h hs]
        exact h.getRack p' q' s hs
    dataCenter_lt := fun p' hp' => Nat.lt_succ_of_lt (h.dataCenter_lt p' hp')
    rack_lt := fun p' q' hq' => Nat.lt_succ_of_lt (h.rack_lt p' q' hq')
    chunkServer_lt := fun p' q' s hs => by
      rcases (stands_newChunkServer h hq).1 hs with ⟨-, -, rfl⟩ | hs
      · exact Nat.lt_succ_self _
      · exact Nat.lt_succ_of_lt (h.chunkServer_lt p' q' s hs) }

theorem keeps_newChunkServer (hq : c.HasRack p q) : c.Keeps (c.newChunkServer q id) where
  dataCenter _ hp' := ⟨hp', rfl⟩
  rack p' q' hq' := ⟨hq', by rw [rackId_newChunkServer], dc_newChunkServer c q id q'⟩
  chunkServer p' q' s hs :=
    ⟨(stands_newChunkServer h hq).2 (.inr hs), chunkServer_newChunkServer h hs⟩
  get _ _ hs := hs

end ChunkServer

/-! ## A call -/

theorem Prepares.indexed (h : c.Prepares c') (hi : c.Indexed) : c'.Indexed := by
  intro id s
  rw [get, h.nodes, chunkServerId, h.chunkServer]
  simp only [h.stands]
  exact hi id s

/-- The new server is the one of its id. -/
theorem Indexed.newChunkServer (hi : c.Indexed) (h : c.Inv) {p q : Pointer} (hq : c.HasRack p q)
    {id : Int32} (hnew : c.get id = none) :
    ((c.newChunkServer q id).setNode id c.next).Indexed := by
  intro id' s
  have hget : ((c.newChunkServer q id).setNode id c.next).get id' =
      if id' = id then some c.next else c.get id' := Function.update_apply _ _ _ _
  have hid : ((c.newChunkServer q id).setNode id c.next).chunkServerId s =
      (c.newChunkServer q id).chunkServerId s := rfl
  have hstands : ∀ p' q', ((c.newChunkServer q id).setNode id c.next).Stands p' q' s ↔
      (p' = p ∧ q' = q ∧ s = c.next) ∨ c.Stands p' q' s := fun p' q' => stands_newChunkServer h hq
  have hself : (c.newChunkServer q id).chunkServerId c.next = id :=
    congrArg ChunkServer.id (newChunkServer_self c q id)
  have hold : ∀ {p' q'}, c.Stands p' q' s →
      (c.newChunkServer q id).chunkServerId s = c.chunkServerId s := fun hs =>
    congrArg ChunkServer.id (chunkServer_newChunkServer h hs)
  rw [hget, hid]
  simp only [hstands]
  constructor
  · intro hs
    split at hs
    next heq =>
        obtain rfl := Option.some.inj hs
        exact ⟨hself.trans heq.symm, p, q, .inl ⟨rfl, rfl, rfl⟩⟩
    next =>
        obtain ⟨hid', p', q', hs⟩ := (hi id' s).1 hs
        exact ⟨(hold hs).trans hid', p', q', .inr hs⟩
  · rintro ⟨hid', p', q', ⟨-, -, rfl⟩ | hs⟩
    · rw [if_pos (hid'.symm.trans hself)]
    · have hs' := (hi id' s).2 ⟨(hold hs).symm.trans hid', p', q', hs⟩
      have hne : id' ≠ id := fun heq => by rw [heq, hnew] at hs'; cases hs'
      rw [if_neg hne, hs']

theorem Inv.setNode (h : c.Inv) (id : Int32) (s : Pointer) : (c.setNode id s).Inv where
  dataCenters := h.dataCenters
  racks := h.racks
  chunkServers := h.chunkServers
  getDataCenter := h.getDataCenter
  getRack := h.getRack
  dataCenter_lt := h.dataCenter_lt
  rack_lt := h.rack_lt
  chunkServer_lt := h.chunkServer_lt

theorem Keeps.setNode (h : c.Keeps c') {id : Int32} (hnew : c.get id = none) (s : Pointer) :
    c.Keeps (c'.setNode id s) where
  dataCenter := h.dataCenter
  rack := h.rack
  chunkServer := h.chunkServer
  get id' s' hs := by
    have hne : id' ≠ id := fun heq => by rw [heq, hnew] at hs; cases hs
    exact (Function.update_of_ne hne _ _).trans (h.get id' s' hs)

/-- The rack and the data center have the ids that are asked for. -/
theorem seat_spec (h : c.Inv) (rack dc : Int32) : c.Prepares (c.seat rack dc).2 ∧
    (c.seat rack dc).2.rackId (c.seat rack dc).1 = rack ∧
    ∃ p, (c.seat rack dc).2.HasRack p (c.seat rack dc).1 ∧
      (c.seat rack dc).2.dataCenterId p = dc := by
  obtain ⟨hcenter, hp, hdc⟩ := getDataCenter_spec h dc
  obtain ⟨hrack, hq, hid⟩ := getRack_spec hcenter.inv hp rack
  exact ⟨hcenter.trans hrack, hid, _, hq, (hrack.keeps.dataCenter _ hp).2.trans hdc⟩

/-- No server of the rack has an id that is not registered. -/
theorem Prepares.absent (h : c.Prepares c') (hi : c.Indexed) {id : Int32} (hnew : c.get id = none)
    {p q : Pointer} (hq : c'.HasRack p q) :
    ∀ s ∈ (c'.rack q).chunkServers, c'.chunkServerId s ≠ id := by
  intro s hs hid
  have hget := (h.indexed hi id s).2 ⟨hid, p, q, hq, hs⟩
  rw [get, h.nodes, ← get, hnew] at hget
  cases hget

theorem register_of_some {r : Registration} {s : Pointer} (hs : c.get r.id = some s) :
    c.register r = (s, c) := by
  rw [register, hs]

/-- A server that is not registered is made. -/
theorem register_of_none (h : c.Inv) (hi : c.Indexed) {r : Registration}
    (hnew : c.get r.id = none) : c.register r = ((c.seat r.rack r.dc).2.next,
      ((c.seat r.rack r.dc).2.newChunkServer (c.seat r.rack r.dc).1 r.id).setNode r.id
        (c.seat r.rack r.dc).2.next) := by
  obtain ⟨hprepares, -, p, hq, -⟩ := seat_spec h r.rack r.dc
  have hfind := (hprepares.inv.chunkServers p _ hq).find_eq_none_iff.2
    (hprepares.absent hi hnew hq)
  simp only [register, hnew, getChunkServer, hfind]

/-- What a call keeps. -/
theorem register_spec (h : c.Inv) (hi : c.Indexed) (r : Registration) :
    (c.register r).2.Inv ∧ (c.register r).2.Indexed ∧ c.Keeps (c.register r).2 := by
  cases hget : c.get r.id with
  | some s =>
      rw [register_of_some hget]
      exact ⟨h, hi, .refl c⟩
  | none =>
      obtain ⟨hprepares, -, p, hq, -⟩ := seat_spec h r.rack r.dc
      have hnew : (c.seat r.rack r.dc).2.get r.id = none := by
        rw [get, hprepares.nodes]
        exact hget
      rw [register_of_none h hi hget]
      exact ⟨(inv_newChunkServer hprepares.inv hq (hprepares.absent hi hget hq)).setNode _ _,
        (hprepares.indexed hi).newChunkServer hprepares.inv hq hnew,
        (hprepares.keeps.trans (keeps_newChunkServer hprepares.inv hq)).setNode hget _⟩

/-- A server that is new goes where the call says. -/
theorem register_placed (h : c.Inv) (hi : c.Indexed) {r : Registration}
    (hnew : c.get r.id = none) : ∃ p q,
      (c.register r).2.get r.id = some (c.register r).1 ∧
      (c.register r).2.Stands p q (c.register r).1 ∧
      (c.register r).2.dataCenterId p = r.dc ∧ (c.register r).2.rackId q = r.rack := by
  obtain ⟨hprepares, hrack, p, hq, hdc⟩ := seat_spec h r.rack r.dc
  rw [register_of_none h hi hnew]
  exact ⟨p, _, Function.update_self _ _ _,
    (stands_newChunkServer hprepares.inv hq).2 (.inl ⟨rfl, rfl, rfl⟩), hdc,
    (congrFun (rackId_newChunkServer _ _ r.id) _).trans hrack⟩

/-- A call registers its id and no other. -/
theorem registered_register (h : c.Inv) (hi : c.Indexed) (r : Registration) (id : Int32) :
    (∃ s, (c.register r).2.get id = some s) ↔ id = r.id ∨ ∃ s, c.get id = some s := by
  cases hget : c.get r.id with
  | some s =>
      rw [register_of_some hget, iff_or_self]
      rintro rfl
      exact ⟨s, hget⟩
  | none =>
      have hnodes : (c.register r).2.get id =
          if id = r.id then some (c.register r).1 else c.get id := by
        rw [register_of_none h hi hget, get, get, ← (seat_spec h r.rack r.dc).1.nodes]
        exact Function.update_apply _ _ _ _
      rw [hnodes]
      split
      next hid => simp [hid]
      next hid => simp [hid]

/-! ## A sequence of calls -/

theorem registerAll_append (earlier later : List Registration) :
    registerAll (earlier ++ later) =
      later.foldl (fun c r => (c.register r).2) (registerAll earlier) := List.foldl_append

theorem inv_empty : ({} : Registry).Inv where
  dataCenters := List.Pairwise.nil
  racks p hp := by cases hp
  chunkServers p q hq := by cases hq.1
  getDataCenter p q hq := by cases hq.1
  getRack p q s hs := by cases hs.1.1
  dataCenter_lt p hp := by cases hp
  rack_lt p q hq := by cases hq.1
  chunkServer_lt p q s hs := by cases hs.1.1

theorem indexed_empty : ({} : Registry).Indexed := by
  intro id s
  constructor
  · intro hs
    cases hs
  · rintro ⟨-, p, q, hs⟩
    cases hs.1.1

/-- The calls that follow keep what there is. -/
theorem foldl_register (h : c.Inv) (hi : c.Indexed) (calls : List Registration) :
    (calls.foldl (fun c r => (c.register r).2) c).Inv ∧
      (calls.foldl (fun c r => (c.register r).2) c).Indexed ∧
      c.Keeps (calls.foldl (fun c r => (c.register r).2) c) := by
  induction calls generalizing c with
  | nil => exact ⟨h, hi, .refl c⟩
  | cons r calls ih =>
      obtain ⟨h', hi', hkeeps⟩ := register_spec h hi r
      obtain ⟨h'', hi'', hkeeps'⟩ := ih h' hi'
      exact ⟨h'', hi'', hkeeps.trans hkeeps'⟩

theorem inv_registerAll (calls : List Registration) : (registerAll calls).Inv :=
  (foldl_register inv_empty indexed_empty calls).1

theorem indexed_registerAll (calls : List Registration) : (registerAll calls).Indexed :=
  (foldl_register inv_empty indexed_empty calls).2.1

theorem keeps_registerAll (earlier later : List Registration) :
    (registerAll earlier).Keeps (registerAll (earlier ++ later)) := by
  rw [registerAll_append]
  exact (foldl_register (inv_registerAll earlier) (indexed_registerAll earlier) later).2.2

/-- The ids that are registered are those of the calls. -/
theorem registered_registerAll (calls : List Registration) (id : Int32) :
    (∃ s, (registerAll calls).get id = some s) ↔ ∃ r ∈ calls, r.id = id := by
  induction calls using List.reverseRecOn with
  | nil =>
      constructor
      · rintro ⟨s, hs⟩
        cases hs
      · rintro ⟨r, hr, -⟩
        cases hr
  | append_singleton calls r ih =>
      rw [registerAll_append, List.foldl_cons, List.foldl_nil,
        registered_register (inv_registerAll calls) (indexed_registerAll calls), ih]
      simp only [List.mem_append, List.mem_singleton, or_and_right, exists_or, exists_eq_left]
      rw [or_comm, eq_comm]

/-- The back pointers leave one place for a server. -/
theorem Inv.existsUnique_place (h : c.Inv) {p q s : Pointer} (hs : c.Stands p q s) :
    ∃! place : Pointer × Pointer, c.Stands place.1 place.2 s := by
  refine ⟨(p, q), hs, ?_⟩
  rintro ⟨p', q'⟩ hs'
  obtain rfl : q' = q := (h.getRack p' q' s hs').symm.trans (h.getRack p q s hs)
  obtain rfl : p' = p := (h.getDataCenter p' q' hs'.1).symm.trans (h.getDataCenter p q' hs.1)
  rfl

/-- After every sequence of calls the vectors are sorted, the pointers lead back, `Get` finds
each server in one rack of one data center, and what was there before a call is as it was. -/
theorem registry_consistent (earlier later : List Registration) :
    (registerAll (earlier ++ later)).Consistent (earlier ++ later) ∧
      (registerAll earlier).Keeps (registerAll (earlier ++ later)) := by
  refine ⟨?_, keeps_registerAll earlier later⟩
  generalize hcalls : earlier ++ later = calls
  have h := inv_registerAll calls
  have hi := indexed_registerAll calls
  exact {
    toOrdered := h.toOrdered
    indexed := hi
    place := fun id s hs => by
      obtain ⟨-, p, q, hstands⟩ := (hi id s).1 hs
      exact h.existsUnique_place hstands
    registered := registered_registerAll calls
    first := fun before r after hbefore hnew => by
      have hget : (registerAll before).get r.id = none := by
        refine Option.eq_none_iff_forall_ne_some.2 fun s hs => hnew ?_
        obtain ⟨r', hr', hid⟩ := (registered_registerAll before r.id).1 ⟨s, hs⟩
        exact hid ▸ List.mem_map_of_mem hr'
      obtain ⟨p, q, hs, hstands, hdc, hrack⟩ :=
        register_placed (inv_registerAll before) (indexed_registerAll before) hget
      have hkeeps := keeps_registerAll (before ++ [r]) after
      rw [List.append_assoc, List.singleton_append, ← hbefore, registerAll_append before] at hkeeps
      exact ⟨p, q, _, rfl, hkeeps.get _ _ hs, (hkeeps.chunkServer _ _ _ hstands).1,
        (hkeeps.dataCenter p hstands.1.1).2.trans hdc,
        (hkeeps.rack p q hstands.1).2.1.trans hrack⟩ }

/-- The second call comes in front, and the third one changes nothing. -/
example : ((registerAll [⟨3, 1, 1⟩, ⟨-2, 1, 1⟩, ⟨3, 2, 5⟩]).rack 1).chunkServers = [3, 2] := by
  decide

end Registry

end Ofs.Master
