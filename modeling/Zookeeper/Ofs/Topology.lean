import Mathlib.Data.List.Pairwise
import Zookeeper.Ofs.Distribution

/-!
# The data centers, racks and servers that register

`DefaultDataCluster::Register` stands a new server in its rack.  It makes the rack and the
data center where they are not there yet, and keeps each vector sorted by ids.  A server that
is registered stays where it is.

`Topology` is a cluster that registrations make: no id comes twice, each rack knows its data
center, and each server stands in one rack.  `Topology.register` keeps that.  The lookups of a
server then find the rack it stands in and the data center of that (`getRack_eq`,
`getDataCenter_eq`).
-/

namespace Ofs.Master

/-! ## Sorted vectors -/

section Sorted

variable {α β : Type} (key : α → Nat) (id : Nat) (new : α) (f : α → α)

/-- `Get(id, true)` of a vector sorted by ids, and `f` done to the entry. -/
def getOrCreate : List α → List α
  | [] => [f new]
  | x :: xs =>
      if key x < id then x :: getOrCreate xs
      else if key x = id then f x :: xs
      else f new :: x :: xs

variable {key id new f}

theorem mem_getOrCreate {l : List α} {y : α} (h : y ∈ getOrCreate key id new f l) :
    y ∈ l ∨ (∃ x ∈ l, y = f x) ∨ y = f new := by
  induction l with
  | nil => exact .inr (.inr (List.mem_singleton.mp h))
  | cons x xs ih =>
      rw [getOrCreate] at h
      split_ifs at h with hlt heq
      · cases List.mem_cons.mp h with
        | inl h => exact .inl (h ▸ List.mem_cons_self)
        | inr h =>
            obtain h | ⟨x', hx', h⟩ | h := ih h
            · exact .inl (List.mem_cons_of_mem _ h)
            · exact .inr (.inl ⟨x', List.mem_cons_of_mem _ hx', h⟩)
            · exact .inr (.inr h)
      · cases List.mem_cons.mp h with
        | inl h => exact .inr (.inl ⟨x, List.mem_cons_self, h⟩)
        | inr h => exact .inl (List.mem_cons_of_mem _ h)
      · cases List.mem_cons.mp h with
        | inl h => exact .inr (.inr h)
        | inr h => exact .inl h

variable (f) in
/-- The vector stays sorted. -/
theorem sorted_getOrCreate (hf : ∀ x, key (f x) = key x) (hnew : key new = id) {l : List α}
    (h : (l.map key).Pairwise (· < ·)) :
    ((getOrCreate key id new f l).map key).Pairwise (· < ·) := by
  induction l with
  | nil => exact List.pairwise_singleton _ _
  | cons x xs ih =>
      rw [List.map_cons, List.pairwise_cons] at h
      obtain ⟨hx, hxs⟩ := h
      rw [getOrCreate]
      split_ifs with hlt heq
      · rw [List.map_cons, List.pairwise_cons]
        refine ⟨fun b hb => ?_, ih hxs⟩
        obtain ⟨y, hy, rfl⟩ := List.mem_map.mp hb
        obtain hy | ⟨z, hz, rfl⟩ | rfl := mem_getOrCreate hy
        · exact hx _ (List.mem_map_of_mem hy)
        · rw [hf]
          exact hx _ (List.mem_map_of_mem hz)
        · rw [hf, hnew]
          exact hlt
      · rw [List.map_cons, hf, List.pairwise_cons]
        exact ⟨hx, hxs⟩
      · have hid : id < key x := by omega
        rw [List.map_cons, List.map_cons, hf, hnew, List.pairwise_cons, List.pairwise_cons]
        refine ⟨fun b hb => ?_, hx, hxs⟩
        cases List.mem_cons.mp hb with
        | inl hb => exact hb ▸ hid
        | inr hb => exact Nat.lt_trans hid (hx b hb)

/-- What the entries hold grows by what `f` adds to one of them. -/
theorem flatMap_getOrCreate {g : α → List β} {b : β} (hnew : (g (f new)).Perm [b]) {l : List α}
    (hf : ∀ x ∈ l, key x = id → (g (f x)).Perm (b :: g x)) :
    ((getOrCreate key id new f l).flatMap g).Perm (b :: l.flatMap g) := by
  induction l with
  | nil => simpa [getOrCreate] using hnew
  | cons x xs ih =>
      rw [getOrCreate]
      split_ifs with hlt heq
      · rw [List.flatMap_cons, List.flatMap_cons]
        exact ((ih fun y hy => hf y (List.mem_cons_of_mem _ hy)).append_left _).trans
          List.perm_middle
      · rw [List.flatMap_cons, List.flatMap_cons]
        exact (hf x List.mem_cons_self heq).append_right _
      · rw [List.flatMap_cons]
        exact hnew.append_right _

end Sorted

/-! ## Registering -/

/-- `Rack::Get(id, true)`. -/
def Rack.register (id : Nat) (k : Rack) : Rack :=
  { k with chunkServers := getOrCreate (fun s => s) id id (fun s => s) k.chunkServers }

/-- `DataCenter::Get(rack, true)->Get(id, true)`. -/
def DataCenter.register (id rack : Nat) (dc : DataCenter) : DataCenter :=
  { dc with
    racks := getOrCreate Rack.id rack { id := rack, dc := dc.id, chunkServers := [] }
      (Rack.register id) dc.racks }

/-- The branch of `DefaultDataCluster::Register` for a server that is new. -/
def DataCluster.register (id rack dc : Nat) (c : DataCluster) : DataCluster where
  dataCenters := getOrCreate DataCenter.id dc { id := dc, racks := [] }
    (DataCenter.register id rack) c.dataCenters

/-- The racks are sorted, and know their data center. -/
structure DataCenter.Ordered (dc : DataCenter) : Prop where
  sorted : (dc.racks.map Rack.id).Pairwise (· < ·)
  owned : ∀ k ∈ dc.racks, k.dc = dc.id

/-- A cluster that registrations make, with the keys of `_nodes`. -/
structure Topology extends DataCluster where
  nodes : List Nat
  sorted : (dataCenters.map DataCenter.id).Pairwise (· < ·)
  ordered : ∀ dc ∈ dataCenters, dc.Ordered
  distinct : toDataCluster.servers.Nodup
  mem_nodes : ∀ s, s ∈ nodes ↔ s ∈ toDataCluster.servers

theorem DataCenter.Ordered.register {dc : DataCenter} (h : dc.Ordered) (id rack : Nat) :
    (dc.register id rack).Ordered where
  sorted := sorted_getOrCreate (Rack.register id) (fun _ => rfl) (by rfl) h.sorted
  owned k hk := by
    obtain hk | ⟨k', hk', rfl⟩ | rfl := mem_getOrCreate hk
    · exact h.owned k hk
    · exact h.owned k' hk'
    · rfl

/-- A new server is one more. -/
theorem Rack.servers_register {id : Nat} {k : Rack} (h : id ∉ k.chunkServers) :
    (k.register id).chunkServers.Perm (id :: k.chunkServers) := by
  have hgrown : ((k.register id).chunkServers.flatMap fun s => [s]).Perm
      (id :: k.chunkServers.flatMap fun s => [s]) :=
    flatMap_getOrCreate (List.Perm.refl [id]) fun x hx heq => absurd (heq ▸ hx) h
  rw [List.flatMap_singleton', List.flatMap_singleton'] at hgrown
  exact hgrown

@[inherit_doc Rack.servers_register]
theorem DataCenter.servers_register {id : Nat} (rack : Nat) {dc : DataCenter}
    (h : id ∉ dc.servers) : (dc.register id rack).servers.Perm (id :: dc.servers) :=
  flatMap_getOrCreate (Rack.servers_register List.not_mem_nil) fun k hk _ =>
    Rack.servers_register fun hid => h (List.mem_flatMap.mpr ⟨k, hk, hid⟩)

@[inherit_doc Rack.servers_register]
theorem DataCluster.servers_register {id : Nat} (rack dc : Nat) {c : DataCluster}
    (h : id ∉ c.servers) : (c.register id rack dc).servers.Perm (id :: c.servers) :=
  flatMap_getOrCreate (DataCenter.servers_register rack List.not_mem_nil) fun d hd _ =>
    DataCenter.servers_register rack fun hid => h (List.mem_flatMap.mpr ⟨d, hd, hid⟩)

/-- `DefaultDataCluster::Register`. -/
def Topology.register (t : Topology) (id rack dc : Nat) : Topology :=
  if h : id ∈ t.nodes then t
  else
    have grown := DataCluster.servers_register rack dc fun hs => h ((t.mem_nodes id).mpr hs)
    { toDataCluster := t.toDataCluster.register id rack dc
      nodes := id :: t.nodes
      sorted := sorted_getOrCreate (DataCenter.register id rack) (fun _ => rfl) (by rfl) t.sorted
      ordered := fun d hd => by
        obtain hd | ⟨d', hd', rfl⟩ | rfl := mem_getOrCreate hd
        · exact t.ordered d hd
        · exact (t.ordered d' hd').register id rack
        · exact DataCenter.Ordered.register
            ⟨List.Pairwise.nil, fun k hk => absurd hk List.not_mem_nil⟩ id rack
      distinct := grown.nodup_iff.mpr
        (List.nodup_cons.mpr ⟨fun hs => h ((t.mem_nodes id).mpr hs), t.distinct⟩)
      mem_nodes := fun s => by
        rw [grown.mem_iff, List.mem_cons, List.mem_cons, t.mem_nodes] }

/-- Before any server has registered. -/
def Topology.empty : Topology where
  dataCenters := []
  nodes := []
  sorted := List.Pairwise.nil
  ordered _ h := absurd h List.not_mem_nil
  distinct := List.nodup_nil
  mem_nodes _ := Iff.rfl

/-! ## Where a server stands -/

namespace Topology

variable (t : Topology)

theorem dataCenters_nodup : t.dataCenters.Nodup :=
  List.Nodup.of_map _ (t.sorted.imp fun h => Nat.ne_of_lt h)

theorem racks_nodup {dc : DataCenter} (hdc : dc ∈ t.dataCenters) : dc.racks.Nodup :=
  List.Nodup.of_map _ ((t.ordered dc hdc).sorted.imp fun h => Nat.ne_of_lt h)

/-- A server finds its rack. -/
theorem getRack_eq {dc : DataCenter} (hdc : dc ∈ t.dataCenters) {k : Rack} (hk : k ∈ dc.racks)
    {s : Nat} (hs : s ∈ k.chunkServers) : t.getRack s = some k := by
  have hdistinct : ((t.dataCenters.flatMap DataCenter.racks).flatMap Rack.chunkServers).Nodup := by
    rw [List.flatMap_assoc]
    exact t.distinct
  have hmem : k ∈ t.dataCenters.flatMap DataCenter.racks := List.mem_flatMap.mpr ⟨dc, hdc, hk⟩
  cases hfind : t.getRack s with
  | none => exact absurd hs (by simpa using List.find?_eq_none.mp hfind k hmem)
  | some k' =>
      have hs' : s ∈ k'.chunkServers := by simpa using List.find?_some hfind
      by_contra hne
      have : Std.Symm (Function.onFun List.Disjoint Rack.chunkServers) :=
        ⟨fun _ _ h _ hb ha => h ha hb⟩
      -- two racks hold no server in common
      exact (List.nodup_flatMap.mp hdistinct).2.forall (List.mem_of_find?_eq_some hfind) hmem
        (fun h => hne (congrArg some h)) hs' hs

/-- A server finds its data center. -/
theorem getDataCenter_eq {dc : DataCenter} (hdc : dc ∈ t.dataCenters) {k : Rack}
    (hk : k ∈ dc.racks) {s : Nat} (hs : s ∈ k.chunkServers) : t.getDataCenter s = some dc := by
  rw [DataCluster.getDataCenter, t.getRack_eq hdc hk hs, Option.bind_some,
    (t.ordered dc hdc).owned k hk]
  cases hfind : t.dataCenters.find? (·.id = dc.id) with
  | none => exact absurd (List.find?_eq_none.mp hfind dc hdc) (by simp)
  | some dc' =>
      have hid : dc'.id = dc.id := by simpa using List.find?_some hfind
      have hnodup : (t.dataCenters.map DataCenter.id).Nodup := t.sorted.imp fun h => Nat.ne_of_lt h
      rw [List.inj_on_of_nodup_map hnodup (List.mem_of_find?_eq_some hfind) hdc hid]

end Topology

end Ofs.Master
