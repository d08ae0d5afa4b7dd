import Zookeeper.Ofs.Registry
import Zookeeper.Ofs.Topology

/-!
# The registry as a topology

The placement of replicas is modelled on a `Topology`, which has no pointers: racks stand in
data centers and ids in racks.  `Registry.view` is what a registry looks like from there.  Its
ids are numbers from 0 on, so an `int32_t` is shifted by `2 ^ 31`, which keeps the order.

`registry_as_topology` says that each sequence of calls gives the topology that the same calls
give there, and that the searches of a topology for the rack and the data center of a server
find what the pointers lead to.
-/

namespace Ofs.Master

open SortedVector (Sorted find)

/-- An id as a number, in the same order. -/
def rank (id : Int32) : Nat := (id.toInt + 0x80000000).toNat

theorem rank_lt_iff {id id' : Int32} : rank id < rank id' ↔ id < id' := by
  have hlow := Int32.le_toInt id
  have hlow' := Int32.le_toInt id'
  rw [Int32.lt_iff_toInt_lt, rank, rank]
  omega

theorem rank_inj {id id' : Int32} : rank id = rank id' ↔ id = id' := by
  have hlow := Int32.le_toInt id
  have hlow' := Int32.le_toInt id'
  rw [← Int32.toInt_inj, rank, rank]
  omega

/-! ## Vectors of pointers -/

section GetOrCreate

variable {α : Type} {xs : List Pointer} {id : Pointer → Int32} {key : α → Nat} {g g' : Pointer → α}
  {new : α} {f : α → α} {i : Int32}

/-- The entry that is found changes. -/
theorem map_getOrCreate_found (h : Sorted id xs) (hkey : ∀ x ∈ xs, key (g x) = rank (id x))
    {x : Pointer} (hx : x ∈ xs) (hid : id x = i) (hchanged : g' x = f (g x))
    (hsame : ∀ y ∈ xs, y ≠ x → g' y = g y) :
    getOrCreate key (rank i) new f (xs.map g) = xs.map g' := by
  induction xs with
  | nil => cases hx
  | cons y ys ih =>
      rw [Sorted, List.map_cons, List.pairwise_cons] at h
      obtain ⟨hy, hys⟩ := h
      rw [List.forall_mem_cons] at hkey hsame
      simp only [List.map_cons, getOrCreate, hkey.1, rank_lt_iff, rank_inj]
      rcases List.mem_cons.1 hx with rfl | hx
      · have hrest : ∀ z ∈ ys, g' z = g z := fun z hz => hsame.2 z hz fun heq => by
          have hlt := hy _ (List.mem_map_of_mem hz)
          rw [heq] at hlt
          exact Std.lt_irrefl hlt
        rw [hid, if_neg Std.lt_irrefl, if_pos rfl, hchanged, List.map_congr_left hrest]
      · have hlt : id y < i := hid ▸ hy _ (List.mem_map_of_mem hx)
        have hne : y ≠ x := fun heq => by
          rw [heq, hid] at hlt
          exact Std.lt_irrefl hlt
        rw [if_pos hlt, ih hys hkey.2 hx hsame.2, hsame.1 hne]

theorem getOrCreate_append {before after : List α} {n : Nat} (hbefore : ∀ x ∈ before, key x < n) :
    getOrCreate key n new f (before ++ after) = before ++ getOrCreate key n new f after := by
  induction before with
  | nil => rfl
  | cons x xs ih =>
      rw [List.forall_mem_cons] at hbefore
      rw [List.cons_append, getOrCreate, if_pos hbefore.1, ih hbefore.2, List.cons_append]

/-- An entry that is not found is made. -/
theorem map_getOrCreate_new (h : Sorted id xs) (hkey : ∀ x ∈ xs, key (g x) = rank (id x))
    (absent : ∀ x ∈ xs, id x ≠ i) {n : Pointer} (hnew : g' n = f new)
    (hsame : ∀ y ∈ xs, g' y = g y) :
    getOrCreate key (rank i) new f (xs.map g) = (SortedVector.insert id i n xs).map g' := by
  obtain ⟨before, after, rfl, hbefore, hafter, hposition⟩ := h.split i
  rw [List.forall_mem_append] at hkey hsame absent
  rw [SortedVector.insert, hposition, SortedVector.insertIdx_append, List.map_append,
    List.map_append, List.map_cons, List.map_congr_left hsame.1, List.map_congr_left hsame.2, hnew,
    getOrCreate_append]
  · congr 1
    cases after with
    | nil => rfl
    | cons y ys =>
        have hy := hkey.2 y List.mem_cons_self
        have hless := hafter y List.mem_cons_self
        have hother := absent.2 y List.mem_cons_self
        simp [getOrCreate, hy, rank_lt_iff, rank_inj, hless, hother]
  · intro a ha
    obtain ⟨x, hx, rfl⟩ := List.mem_map.1 ha
    rw [hkey.1 x hx, rank_lt_iff]
    exact hbefore x hx

end GetOrCreate

namespace Registry

/-! ## What a registry looks like -/

section View

variable (c : Registry)

/-- The rack at `q`. -/
def rackView (q : Pointer) : Master.Rack where
  id := rank (c.rackId q)
  dc := rank (c.dataCenterId (c.rack q).dc)
  chunkServers := (c.rack q).chunkServers.map fun s => rank (c.chunkServerId s)

/-- The data center at `p`. -/
def dataCenterView (p : Pointer) : Master.DataCenter where
  id := rank (c.dataCenterId p)
  racks := (c.dataCenter p).racks.map c.rackView

/-- The data centers. -/
def view : DataCluster where
  dataCenters := c.dataCenters.map c.dataCenterView

end View

variable {c : Registry}

/-! ## A server more -/

theorem dataCenters_getRack (c : Registry) (p : Pointer) (id : Int32) :
    (c.getRack p id).2.dataCenters = c.dataCenters := by
  rw [getRack]
  split <;> rfl

section Steps

variable (h : c.Inv)
include h

/-- The rack of a new server. -/
theorem rackView_newChunkServer {p q : Pointer} (hq : c.HasRack p q) {id : Int32}
    (absent : ∀ s ∈ (c.rack q).chunkServers, c.chunkServerId s ≠ id) :
    (c.newChunkServer q id).rackView q = (c.rackView q).register (rank id) := by
  have hservers : getOrCreate (fun s => s) (rank id) (rank id) (fun s => s)
      ((c.rack q).chunkServers.map fun s => rank (c.chunkServerId s)) =
      ((c.newChunkServer q id).rack q).chunkServers.map
        fun s => rank ((c.newChunkServer q id).chunkServerId s) := by
    rw [rack_newChunkServer, if_pos rfl]
    refine map_getOrCreate_new (h.chunkServers p q hq) (fun _ _ => by rfl) absent ?_
      fun s hs => ?_
    · rw [chunkServerId, newChunkServer_self]
    · rw [chunkServerId, chunkServer_newChunkServer h ⟨hq, hs⟩, chunkServerId]
  rw [rackView, ← hservers, rackId_newChunkServer, dc_newChunkServer]
  rfl

/-- The other racks are as before. -/
theorem rackView_newChunkServer_of_ne {p q q' : Pointer} (hq' : c.HasRack p q') (hne : q' ≠ q)
    (id : Int32) : (c.newChunkServer q id).rackView q' = c.rackView q' := by
  have hsame : ∀ s ∈ (c.rack q').chunkServers, rank ((c.newChunkServer q id).chunkServerId s) =
      rank (c.chunkServerId s) := fun s hs => by
    rw [chunkServerId, chunkServer_newChunkServer h ⟨hq', hs⟩, chunkServerId]
  rw [rackView, rackId_newChunkServer, rack_newChunkServer, if_neg hne, List.map_congr_left hsame]
  rfl

theorem rackView_newRack {p p' q : Pointer} (hq : c.HasRack p' q) (id : Int32) :
    (c.newRack p id).rackView q = c.rackView q := by
  rw [rackView, rackId, rack_newRack h hq, dataCenterId_newRack]
  rfl

theorem rackView_newDataCenter {p q : Pointer} (hq : c.HasRack p q) (dc : Int32) :
    (c.newDataCenter dc).rackView q = c.rackView q := by
  have hp : (c.rack q).dc ∈ c.dataCenters := by
    rw [h.getDataCenter p q hq]
    exact hq.1
  have hid : (c.newDataCenter dc).dataCenterId (c.rack q).dc = c.dataCenterId (c.rack q).dc := by
    rw [dataCenterId, dataCenter_newDataCenter h hp, dataCenterId]
  rw [rackView]
  change Master.Rack.mk _ (rank ((c.newDataCenter dc).dataCenterId (c.rack q).dc)) _ = _
  rw [hid]
  rfl

/-- The data center of a new server in a rack that is there. -/
theorem dataCenterView_newChunkServer {p q : Pointer} (hq : c.HasRack p q) {id : Int32}
    (absent : ∀ s ∈ (c.rack q).chunkServers, c.chunkServerId s ≠ id) :
    (c.newChunkServer q id).dataCenterView p =
      (c.dataCenterView p).register (rank id) (rank (c.rackId q)) := by
  have hracks : getOrCreate Master.Rack.id (rank (c.rackId q))
      { id := rank (c.rackId q), dc := (c.dataCenterView p).id, chunkServers := [] }
      (Master.Rack.register (rank id)) ((c.dataCenter p).racks.map c.rackView) =
      (c.dataCenter p).racks.map (c.newChunkServer q id).rackView :=
    map_getOrCreate_found (h.racks p hq.1) (fun _ _ => by rfl) hq.2 rfl
      (rackView_newChunkServer h hq absent)
      fun q' hq' hne => rackView_newChunkServer_of_ne h ⟨hq.1, hq'⟩ hne id
  rw [dataCenterView]
  change Master.DataCenter.mk _ ((c.dataCenter p).racks.map (c.newChunkServer q id).rackView) = _
  rw [← hracks]
  rfl

/-- The data center of a new server in a new rack. -/
theorem dataCenterView_newRack {p : Pointer} (hp : p ∈ c.dataCenters) {rack id : Int32}
    (absent : ∀ q ∈ (c.dataCenter p).racks, c.rackId q ≠ rack) :
    ((c.newRack p rack).newChunkServer c.next id).dataCenterView p =
      (c.dataCenterView p).register (rank id) (rank rack) := by
  have hprepares := prepares_newRack h hp absent
  have hnext : (c.newRack p rack).HasRack p c.next := (hasRack_newRack h hp).2 (.inl ⟨rfl, rfl⟩)
  have hempty : ∀ s ∈ ((c.newRack p rack).rack c.next).chunkServers,
      (c.newRack p rack).chunkServerId s ≠ id := fun s hs => by
    rw [newRack_self] at hs
    cases hs
  have hnew : (c.newRack p rack).rackView c.next =
      { id := rank rack, dc := (c.dataCenterView p).id, chunkServers := [] } := by
    rw [rackView, rackId, dataCenterId_newRack, newRack_self]
    rfl
  have hracks : getOrCreate Master.Rack.id (rank rack)
      { id := rank rack, dc := (c.dataCenterView p).id, chunkServers := [] }
      (Master.Rack.register (rank id)) ((c.dataCenter p).racks.map c.rackView) =
      ((c.newRack p rack).dataCenter p).racks.map
        ((c.newRack p rack).newChunkServer c.next id).rackView := by
    rw [dataCenter_newRack, if_pos rfl]
    refine map_getOrCreate_new (h.racks p hp) (fun _ _ => by rfl) absent ?_ fun q hq => ?_
    · rw [rackView_newChunkServer hprepares.inv hnext hempty, hnew]
    · have hq' : (c.newRack p rack).HasRack p q := (hasRack_newRack h hp).2 (.inr ⟨hp, hq⟩)
      rw [rackView_newChunkServer_of_ne hprepares.inv hq' (Nat.ne_of_lt (h.rack_lt p q ⟨hp, hq⟩)),
        rackView_newRack h ⟨hp, hq⟩]
  rw [dataCenterView]
  change Master.DataCenter.mk (rank ((c.newRack p rack).dataCenterId p))
    (((c.newRack p rack).dataCenter p).racks.map _) = _
  rw [← hracks, dataCenterId_newRack]
  rfl

/-- The other data centers are as before. -/
theorem dataCenterView_newChunkServer_of_ne {p p' q : Pointer} (hq : c.HasRack p q)
    (hp' : p' ∈ c.dataCenters) (hne : p' ≠ p) (id : Int32) :
    (c.newChunkServer q id).dataCenterView p' = c.dataCenterView p' := by
  have hsame : ∀ q' ∈ (c.dataCenter p').racks,
      (c.newChunkServer q id).rackView q' = c.rackView q' := fun q' hq' => by
    refine rackView_newChunkServer_of_ne h ⟨hp', hq'⟩ (fun heq => hne ?_) id
    -- a rack is in one data center
    rw [← h.getDataCenter p' q' ⟨hp', hq'⟩, heq, h.getDataCenter p q hq]
  exact congrArg (Master.DataCenter.mk _) (List.map_congr_left hsame)

theorem dataCenterView_newRack_of_ne {p p' : Pointer} (hp' : p' ∈ c.dataCenters) (hne : p' ≠ p)
    (rack : Int32) : (c.newRack p rack).dataCenterView p' = c.dataCenterView p' := by
  rw [dataCenterView, dataCenterId_newRack, dataCenter_newRack, if_neg hne,
    List.map_congr_left fun q hq => rackView_newRack h ⟨hp', hq⟩ rack]
  rfl

theorem dataCenterView_newDataCenter {p : Pointer} (hp : p ∈ c.dataCenters) (dc : Int32) :
    (c.newDataCenter dc).dataCenterView p = c.dataCenterView p := by
  rw [dataCenterView, dataCenterId, dataCenter_newDataCenter h hp,
    List.map_congr_left fun q hq => rackView_newDataCenter h ⟨hp, hq⟩ dc]
  rfl

/-- A new server in a data center: the data center, and the others. -/
theorem dataCenterView_getRack {p : Pointer} (hp : p ∈ c.dataCenters) {rack id : Int32}
    (absent : ∀ s ∈ ((c.getRack p rack).2.rack (c.getRack p rack).1).chunkServers,
      (c.getRack p rack).2.chunkServerId s ≠ id) :
    ((c.getRack p rack).2.newChunkServer (c.getRack p rack).1 id).dataCenterView p =
        (c.dataCenterView p).register (rank id) (rank rack) ∧
      ∀ p' ∈ c.dataCenters, p' ≠ p →
        ((c.getRack p rack).2.newChunkServer (c.getRack p rack).1 id).dataCenterView p' =
          c.dataCenterView p' := by
  rw [getRack] at absent ⊢
  cases hfind : find c.rackId rack (c.dataCenter p).racks with
  | some q =>
      simp only [hfind] at absent ⊢
      obtain ⟨hq, rfl⟩ := (h.racks p hp).find_eq_some_iff.1 hfind
      exact ⟨dataCenterView_newChunkServer h ⟨hp, hq⟩ absent,
        fun p' hp' hne => dataCenterView_newChunkServer_of_ne h ⟨hp, hq⟩ hp' hne id⟩
  | none =>
      have hnone := (h.racks p hp).find_eq_none_iff.1 hfind
      have hprepares := prepares_newRack h hp hnone
      refine ⟨dataCenterView_newRack h hp hnone, fun p' hp' hne => ?_⟩
      have hnext : (c.newRack p rack).HasRack p c.next :=
        (hasRack_newRack h hp).2 (.inl ⟨rfl, rfl⟩)
      exact (dataCenterView_newChunkServer_of_ne hprepares.inv hnext hp' hne id).trans
        (dataCenterView_newRack_of_ne h hp' hne rack)

/-- The cluster of a new server. -/
theorem view_seat {rack dc id : Int32}
    (absent : ∀ s ∈ ((c.seat rack dc).2.rack (c.seat rack dc).1).chunkServers,
      (c.seat rack dc).2.chunkServerId s ≠ id) :
    ((c.seat rack dc).2.newChunkServer (c.seat rack dc).1 id).view =
      c.view.register (rank id) (rank rack) (rank dc) := by
  refine congrArg DataCluster.mk (Eq.symm ?_)
  rw [seat, getDataCenter] at absent ⊢
  cases hfind : find c.dataCenterId dc c.dataCenters with
  | some p =>
      obtain ⟨hp, hid⟩ := h.dataCenters.find_eq_some_iff.1 hfind
      simp only [hfind] at absent ⊢
      obtain ⟨hself, hothers⟩ := dataCenterView_getRack h hp absent
      rw [newChunkServer, dataCenters_getRack]
      exact map_getOrCreate_found h.dataCenters (fun _ _ => by rfl) hp hid hself hothers
  | none =>
      have hnone := h.dataCenters.find_eq_none_iff.1 hfind
      have hprepares := prepares_newDataCenter h hnone
      have hp : c.next ∈ (c.newDataCenter dc).dataCenters := (mem_newDataCenter h).2 (.inl rfl)
      have hnew : (c.newDataCenter dc).dataCenterView c.next = { id := rank dc, racks := [] } := by
        rw [dataCenterView, dataCenterId, newDataCenter_self]
        rfl
      simp only [hfind] at absent ⊢
      obtain ⟨hself, hothers⟩ := dataCenterView_getRack hprepares.inv hp absent
      rw [newChunkServer, dataCenters_getRack]
      refine map_getOrCreate_new h.dataCenters (fun _ _ => by rfl) hnone ?_ fun p hp' => ?_
      · rw [← hnew]
        exact hself
      · exact (hothers p ((mem_newDataCenter h).2 (.inr hp'))
          (Nat.ne_of_lt (h.dataCenter_lt p hp'))).trans (dataCenterView_newDataCenter h hp' dc)

end Steps

/-! ## The topology of a sequence of calls -/

/-- The servers that are seen are those that are registered. -/
theorem mem_servers_view (hi : c.Indexed) (id : Int32) :
    rank id ∈ c.view.servers ↔ ∃ s, c.get id = some s := by
  simp only [DataCluster.servers, view, DataCenter.servers, dataCenterView, rackView,
    List.mem_flatMap, List.mem_map, exists_exists_and_eq_and, rank_inj, hi id, Stands, HasRack]
  constructor
  · rintro ⟨p, hp, q, hq, s, hs, hid⟩
    exact ⟨s, hid, p, q, ⟨hp, hq⟩, hs⟩
  · rintro ⟨s, hid, p, q, ⟨hp, hq⟩, hs⟩
    exact ⟨p, hp, q, hq, s, hs, hid⟩

/-- The topology that the calls give. -/
def topologyAll (calls : List Registration) : Topology :=
  calls.foldl (fun t r => t.register (rank r.id) (rank r.rack) (rank r.dc)) Topology.empty

/-- A sequence of calls does to the registry what it does to the topology. -/
theorem view_registerAll (calls : List Registration) :
    (registerAll calls).view = (topologyAll calls).toDataCluster := by
  induction calls using List.reverseRecOn with
  | nil => rfl
  | append_singleton calls r ih =>
      have h := inv_registerAll calls
      have hi := indexed_registerAll calls
      have hnodes : rank r.id ∈ (topologyAll calls).nodes ↔
          ∃ s, (registerAll calls).get r.id = some s := by
        rw [(topologyAll calls).mem_nodes, ← ih, mem_servers_view hi]
      have htopology : topologyAll (calls ++ [r]) =
          (topologyAll calls).register (rank r.id) (rank r.rack) (rank r.dc) := List.foldl_append
      rw [registerAll_append, List.foldl_cons, List.foldl_nil, htopology, Topology.register]
      cases hget : (registerAll calls).get r.id with
      | some s =>
          rw [register_of_some hget, dif_pos (hnodes.2 ⟨s, hget⟩)]
          exact ih
      | none =>
          obtain ⟨hprepares, -, p, hq, -⟩ := seat_spec h r.rack r.dc
          have hnot : rank r.id ∉ (topologyAll calls).nodes := by
            rw [hnodes, hget]
            simp
          rw [register_of_none h hi hget, dif_neg hnot]
          exact (view_seat h (hprepares.absent hi hget hq)).trans
            (congrArg (DataCluster.register (rank r.id) (rank r.rack) (rank r.dc)) ih)

/-- What stands in a rack is seen there. -/
theorem view_stands (calls : List Registration) {p q s : Pointer}
    (hs : (registerAll calls).Stands p q s) :
    (registerAll calls).dataCenterView p ∈ (topologyAll calls).dataCenters ∧
      (registerAll calls).rackView q ∈ ((registerAll calls).dataCenterView p).racks ∧
      rank ((registerAll calls).chunkServerId s) ∈
        ((registerAll calls).rackView q).chunkServers := by
  rw [← view_registerAll]
  exact ⟨List.mem_map_of_mem hs.1.1, List.mem_map_of_mem hs.1.2, List.mem_map_of_mem hs.2⟩

/-- The search for the rack of a server finds the one that its pointer leads to. -/
theorem getRack_view (calls : List Registration) {id : Int32} {s : Pointer}
    (hs : (registerAll calls).get id = some s) : (registerAll calls).view.getRack (rank id) =
      some ((registerAll calls).rackView ((registerAll calls).chunkServer s).rack) := by
  have h := inv_registerAll calls
  obtain ⟨rfl, p, q, hstands⟩ := (indexed_registerAll calls id s).1 hs
  obtain ⟨hdc, hrack, hserver⟩ := view_stands calls hstands
  rw [h.getRack p q s hstands, view_registerAll]
  exact (topologyAll calls).getRack_eq hdc hrack hserver

/-- So does the search for its data center, with the pointer of the rack. -/
theorem getDataCenter_view (calls : List Registration) {id : Int32} {s : Pointer}
    (hs : (registerAll calls).get id = some s) :
    (registerAll calls).view.getDataCenter (rank id) =
      some ((registerAll calls).dataCenterView
        ((registerAll calls).rack ((registerAll calls).chunkServer s).rack).dc) := by
  have h := inv_registerAll calls
  obtain ⟨rfl, p, q, hstands⟩ := (indexed_registerAll calls id s).1 hs
  obtain ⟨hdc, hrack, hserver⟩ := view_stands calls hstands
  rw [h.getRack p q s hstands, h.getDataCenter p q hstands.1, view_registerAll]
  exact (topologyAll calls).getDataCenter_eq hdc hrack hserver

/-- However servers, racks and data centers are registered, the registry with its sorted vectors
and pointers is the topology that the same calls give, and the pointers of a server lead to the
rack and the data center that a search of the topology finds it in. -/
theorem registry_as_topology (calls : List Registration) :
    (registerAll calls).view = (topologyAll calls).toDataCluster ∧
      ∀ id s, (registerAll calls).get id = some s →
        (topologyAll calls).toDataCluster.getRack (rank id) =
            some ((registerAll calls).rackView ((registerAll calls).chunkServer s).rack) ∧
          (topologyAll calls).toDataCluster.getDataCenter (rank id) =
            some ((registerAll calls).dataCenterView
              ((registerAll calls).rack ((registerAll calls).chunkServer s).rack).dc) := by
  refine ⟨view_registerAll calls, fun id s hs => ?_⟩
  rw [← view_registerAll calls]
  exact ⟨getRack_view calls hs, getDataCenter_view calls hs⟩

end Registry

end Ofs.Master
