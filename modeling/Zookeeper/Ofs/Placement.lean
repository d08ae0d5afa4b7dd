import Mathlib.Data.List.Perm.Subperm
import Zookeeper.RandomChoice
import Zookeeper.Ofs.Topology

/-!
# Distributions as programs that draw numbers

Each search of `DefaultDataCluster` calls `rand` once and goes round a vector.  Here the
searches and `Distribute` are programs that draw numbers, and `distribute_eq_run` says that
the functions are their runs.  What a distribution returns for every outcome of `rand` is then
what the program has among its outcomes.

Every search adds a free server or none (`Placing`), whatever the cluster is like, and this is
why a distribution is legal (`distribute_fresh`, `distribute_legal`).

In a `Topology` a rack offers its free servers, a data center those of the racks it does not
exclude, and the cluster those of the data centers it does not exclude.  An excluded rack or
data center that is the only one is searched all the same (`Rack.choice_picks`,
`DataCenter.choice_picks`, `Topology.choice_picks`).
-/

open Chance

namespace Ofs.Master

section Programs

variable (useAble : Nat → Bool) (old except : List Nat)

/-- Every check of `Rack::ChooseChunkServer` lets the server through. -/
def Free (add : List Nat) (s : Nat) : Prop :=
  s ∉ old ∧ s ∉ except ∧ s ∉ add ∧ useAble s = true

instance (add : List Nat) : DecidablePred (Free useAble old except add) :=
  fun s => inferInstanceAs (Decidable (s ∉ old ∧ s ∉ except ∧ s ∉ add ∧ useAble s = true))

/-- `Rack::ChooseChunkServer`. -/
def Rack.choice (add : List Nat) (k : Rack) : Chance (Option Nat) :=
  spin 1 (fun s => done (if Free useAble old except add s then some s else none))
    k.chunkServers none

/-- `DataCenter::ChooseChunkServer`. -/
def DataCenter.choice (exclude : Option Rack) (add : List Nat) (dc : DataCenter) :
    Chance (Option Nat) :=
  spin 0 (Rack.choice useAble old except add) dc.racks exclude

namespace DataCluster

variable (c : DataCluster)

/-- `DefaultDataCluster::ChooseRandomChunkServer`. -/
def choice (exclude : Option DataCenter) (add : List Nat) : Chance (Option Nat) :=
  spin 0 (DataCenter.choice useAble old except none add) c.dataCenters exclude

/-- `DefaultDataCluster::ChooseLocalChunkServer`, with the servers added after it. -/
def localChoice : Chance (Option Nat × List Nat) :=
  match old with
  | [] => (c.choice useAble old except none []).bind fun o => done (o, o.toList)
  | s :: _ => done (some s, [])

/-- `DefaultDataCluster::ChooseRemoteRackChunkServer`. -/
def remoteRackChoice (base : Nat) (add : List Nat) : Chance (Option Nat) :=
  match c.getDataCenter base with
  | none => done none
  | some dc =>
      (dc.choice useAble old except (c.getRack base) add).orElse
        (c.choice useAble old except (some dc) add)

/-- The search of `DefaultDataCluster::ChooseLocalRackChunkServer`. -/
def rackChoice (base : Nat) (add : List Nat) : Chance (Bool × List Nat) :=
  match c.getRack base with
  | none => done (false, add)
  | some k => (k.choice useAble old except add).bind fun o => done (o.isSome, add ++ o.toList)

/-- `DefaultDataCluster::ChooseLocalRackChunkServer`: whether it returns a server, and the
servers added after it. -/
def localRackChoice (blockCount : Int32) (base : Nat) (add : List Nat) :
    Chance (Bool × List Nat) :=
  if 2 ≤ old.length then
    if ∃ s ∈ old.tail, c.getRack s ≠ c.getRack base then done (true, add)
    else if asSize blockCount ≤ old.length + add.length then done (false, add)
    else c.rackChoice useAble old except base add
  else c.rackChoice useAble old except base add

/-- The last loop of `DefaultDataCluster::Distribute`. -/
def restChoice : Nat → List Nat → Chance (List Nat)
  | 0, add => done add
  | n + 1, add =>
      (c.choice useAble old except none add).bind fun
        | none => done add
        | some s => restChoice n (add ++ [s])

/-- `DefaultDataCluster::Distribute` after the search for the third server. -/
def endChoice (blockCount : Int32) (third : Bool × List Nat) : Chance (List Nat) :=
  if third.1 = true ∧ blockCount = 3 then done third.2
  else c.restChoice useAble old except (blockCount.toInt - 3).toNat third.2

/-- `DefaultDataCluster::Distribute` from the second server on. -/
def furtherChoice (blockCount : Int32) (base : Nat) (add : List Nat) : Chance (List Nat) :=
  (c.remoteRackChoice useAble old except base add).bind fun
    | none => c.restChoice useAble old except (blockCount.toInt - 3).toNat add
    | some second =>
        if blockCount = 2 then done (add ++ [second])
        else
          (c.localRackChoice useAble old except blockCount second (add ++ [second])).bind
            (c.endChoice useAble old except blockCount)

/-- `DefaultDataCluster::Distribute`. -/
def distribution (blockCount : Int32) : Chance (List Nat) :=
  if asSize blockCount ≤ old.length then done []
  else
    (c.localChoice useAble old except).bind fun
      | (none, add) => done add
      | (some base, add) =>
          if blockCount = 1 then done add
          else c.furtherChoice useAble old except blockCount base add

end DataCluster

end Programs

/-! ## The functions are runs of the programs -/

section Runs

variable {useAble : Nat → Bool} (rand : Nat → Nat) {old except : List Nat}

/-- The draft after a search that a program made. -/
def Draft.after (d : Draft) (found : Option Nat × Nat) : Option Nat × Draft :=
  (found.1, { add := d.add ++ found.1.toList, calls := found.2 })

@[simp]
theorem Draft.after_none (d : Draft) (n : Nat) :
    d.after (none, n) = (none, { d with calls := n }) := by
  rw [Draft.after, Option.toList_none, List.append_nil]

@[simp]
theorem Draft.after_some (d : Draft) (s n : Nat) :
    d.after (some s, n) = (some s, { add := d.add ++ [s], calls := n }) :=
  rfl

/-- Whether a program found a server, and the draft after it. -/
def Draft.settled (found : (Bool × List Nat) × Nat) : Bool × Draft :=
  (found.1.1, { add := found.1.2, calls := found.2 })

/-- A loop whose choices are runs is a run of a scan. -/
theorem chooseLoop_eq {α : Type} [DecidableEq α] {choose : α → Draft → Option Nat × Draft}
    {test : List Nat → α → Chance (Option Nat)}
    (hc : ∀ item d, choose item d = d.after ((test d.add item).run rand d.calls))
    (items : List α) (exclude : Option α) (c : Nat) : ∀ (r : Nat) (d : Draft),
    chooseLoop choose items exclude c r d =
      d.after ((scan (test d.add) items exclude c r).run rand d.calls) := by
  induction c with
  | zero => exact fun r d => (d.after_none d.calls).symm
  | succ c ih =>
      intro r d
      rw [chooseLoop, scan, place]
      cases items[if items[r]? = exclude then (r + 1) % items.length else r]? with
      | none => exact (d.after_none d.calls).symm
      | some item =>
          dsimp only
          rw [run_bind, hc]
          obtain ⟨o, n⟩ := (test d.add item).run rand d.calls
          cases o with
          | some s => rfl
          | none =>
              rw [d.after_none]
              exact ih _ { d with calls := n }

theorem chooseFrom_eq {α : Type} [DecidableEq α] {choose : α → Draft → Option Nat × Draft}
    {test : List Nat → α → Chance (Option Nat)}
    (hc : ∀ item d, choose item d = d.after ((test d.add item).run rand d.calls))
    (items : List α) (exclude : Option α) (d : Draft) :
    chooseFrom rand choose items exclude d =
      d.after ((spin 0 (test d.add) items exclude).run rand d.calls) := by
  rw [chooseFrom, spin]
  split
  next => exact (d.after_none d.calls).symm
  next => exact chooseLoop_eq rand hc items exclude _ _ { d with calls := d.calls + 1 }

theorem Rack.chooseLoop_eq {servers : List Nat} (hne : servers ≠ []) (c : Nat) :
    ∀ (r : Nat) (d : Draft), Rack.chooseLoop useAble old except servers c r d =
      d.after ((scan (fun s => done (if Free useAble old except d.add s then some s else none))
        servers none c ((r + 1) % servers.length)).run rand d.calls) := by
  induction c with
  | zero => exact fun r d => (d.after_none d.calls).symm
  | succ c ih =>
      intro r d
      have hlt := Nat.mod_lt (r + 1) (List.length_pos_iff.mpr hne)
      have hplace : place servers none ((r + 1) % servers.length) = (r + 1) % servers.length :=
        if_neg fun h => absurd (List.getElem?_eq_none_iff.mp h) (Nat.not_le.mpr hlt)
      rw [Rack.chooseLoop, scan, hplace]
      cases servers[(r + 1) % servers.length]? with
      | none => exact (d.after_none d.calls).symm
      | some s =>
          dsimp only
          rw [run_bind, run]
          by_cases hfree : Free useAble old except d.add s
          · rw [if_pos hfree]
            obtain ⟨hold, hex, hadd, huse⟩ := hfree
            rw [if_neg hold, if_neg hex, if_neg hadd, if_neg (by simp [huse])]
            rfl
          · rw [if_neg hfree, ih]
            split_ifs with hold hex hadd huse
            · rfl
            · rfl
            · rfl
            · rfl
            · exact absurd ⟨hold, hex, hadd, by simpa using huse⟩ hfree

theorem Rack.chooseChunkServer_eq (k : Rack) (d : Draft) :
    k.chooseChunkServer useAble rand old except d =
      d.after ((k.choice useAble old except d.add).run rand d.calls) := by
  rw [Rack.chooseChunkServer, Rack.choice, spin]
  split
  next => exact (d.after_none d.calls).symm
  next hne =>
    rw [Rack.chooseLoop_eq rand hne, Nat.mod_add_mod]
    rfl

theorem DataCenter.chooseChunkServer_eq (exclude : Option Rack) (dc : DataCenter) (d : Draft) :
    dc.chooseChunkServer useAble rand old except exclude d =
      d.after ((dc.choice useAble old except exclude d.add).run rand d.calls) :=
  chooseFrom_eq rand (Rack.chooseChunkServer_eq rand) dc.racks exclude d

namespace DataCluster

variable (c : DataCluster)

theorem chooseRandomChunkServer_eq (exclude : Option DataCenter) (d : Draft) :
    c.chooseRandomChunkServer useAble rand old except exclude d =
      d.after ((c.choice useAble old except exclude d.add).run rand d.calls) :=
  chooseFrom_eq rand (DataCenter.chooseChunkServer_eq rand none) c.dataCenters exclude d

theorem chooseLocalChunkServer_eq :
    c.chooseLocalChunkServer useAble rand old except {} =
      let p := (c.localChoice useAble old except).run rand 0
      (p.1.1, { add := p.1.2, calls := p.2 }) := by
  cases old with
  | nil =>
      rw [chooseLocalChunkServer, chooseRandomChunkServer_eq, localChoice]
      dsimp only
      rw [run_bind]
      rfl
  | cons s rest => rfl

theorem chooseRemoteRackChunkServer_eq (base : Nat) (d : Draft) :
    c.chooseRemoteRackChunkServer useAble rand old except base d =
      d.after ((c.remoteRackChoice useAble old except base d.add).run rand d.calls) := by
  rw [chooseRemoteRackChunkServer, remoteRackChoice]
  cases c.getDataCenter base with
  | none => exact (d.after_none d.calls).symm
  | some dc =>
      dsimp only
      rw [Chance.orElse, run_bind, DataCenter.chooseChunkServer_eq]
      obtain ⟨o, n⟩ := (dc.choice useAble old except (c.getRack base) d.add).run rand d.calls
      cases o with
      | some s => rfl
      | none =>
          rw [d.after_none]
          exact c.chooseRandomChunkServer_eq rand (some dc) { d with calls := n }

theorem chooseLocalRackChunkServer_eq (blockCount : Int32) (base : Nat) (d : Draft) :
    Prod.map Option.isSome id
        (c.chooseLocalRackChunkServer useAble rand old except blockCount base d) =
      Draft.settled ((c.localRackChoice useAble old except blockCount base d.add).run rand
        d.calls) := by
  have hsearch : Prod.map Option.isSome id (match c.getRack base with
      | none => (none, d)
      | some k => k.chooseChunkServer useAble rand old except d) =
      Draft.settled ((c.rackChoice useAble old except base d.add).run rand d.calls) := by
    rw [rackChoice]
    cases c.getRack base with
    | none => rfl
    | some k =>
        dsimp only
        rw [run_bind, Rack.chooseChunkServer_eq]
        rfl
  rw [chooseLocalRackChunkServer, localRackChoice]
  split
  next =>
    cases hfind : old.tail.find? fun s => c.getRack s ≠ c.getRack base with
    | some s =>
        have helsewhere : ∃ s ∈ old.tail, c.getRack s ≠ c.getRack base :=
          ⟨s, List.mem_of_find?_eq_some hfind, by simpa using List.find?_some hfind⟩
        rw [if_pos helsewhere]
        rfl
    | none =>
        have hsame : ¬∃ s ∈ old.tail, c.getRack s ≠ c.getRack base := by
          simpa using List.find?_eq_none.mp hfind
        rw [if_neg hsame]
        dsimp only
        split
        next => rfl
        next => exact hsearch
  next => exact hsearch

theorem chooseRest_eq (n : Nat) : ∀ d : Draft,
    c.chooseRest useAble rand old except n d =
      let p := (c.restChoice useAble old except n d.add).run rand d.calls
      { add := p.1, calls := p.2 } := by
  induction n with
  | zero => exact fun d => rfl
  | succ n ih =>
      intro d
      rw [chooseRest, restChoice, run_bind, chooseRandomChunkServer_eq]
      obtain ⟨o, m⟩ := (c.choice useAble old except none d.add).run rand d.calls
      cases o with
      | none =>
          rw [d.after_none]
          rfl
      | some s => exact ih _

theorem distributeDraft_eq (blockCount : Int32) :
    c.distributeDraft useAble rand old except blockCount =
      let p := (c.distribution useAble old except blockCount).run rand 0
      { add := p.1, calls := p.2 } := by
  rw [distributeDraft, distribution]
  split
  next => rfl
  next =>
    rw [run_bind, chooseLocalChunkServer_eq]
    obtain ⟨⟨o, add⟩, n⟩ := (c.localChoice useAble old except).run rand 0
    cases o with
    | none => rfl
    | some base =>
        dsimp only
        split
        next => rfl
        next =>
          rw [furtherChoice, run_bind, chooseRemoteRackChunkServer_eq]
          obtain ⟨o, m⟩ := (c.remoteRackChoice useAble old except base add).run rand n
          cases o with
          | none =>
              rw [Draft.after_none]
              exact c.chooseRest_eq rand _ _
          | some second =>
              dsimp only [Draft.after_some]
              split
              next => rfl
              next =>
                have hthird := @chooseLocalRackChunkServer_eq useAble rand old except c blockCount
                  second { add := add ++ [second], calls := m }
                generalize c.chooseLocalRackChunkServer useAble rand old except blockCount second
                  { add := add ++ [second], calls := m } = r at hthird ⊢
                obtain ⟨third, d⟩ := r
                rw [Prod.map, Draft.settled, Prod.mk.injEq] at hthird
                obtain ⟨hfound, rfl⟩ := hthird
                dsimp only
                rw [run_bind, hfound, endChoice]
                split
                next => rfl
                next => exact c.chooseRest_eq rand _ _

/-- What is distributed is what a run of the program returns. -/
theorem distribute_eq_run (useAble : Nat → Bool) (old except : List Nat) (blockCount : Int32) :
    c.distribute useAble rand old except blockCount =
      ((c.distribution useAble old except blockCount).run rand 0).1 := by
  rw [distribute_eq, distributeDraft_eq]

/-- Every outcome of `rand` is an outcome of the program. -/
theorem forall_distribute_iff (useAble : Nat → Bool) (old except : List Nat)
    (blockCount : Int32) (Q : List Nat → Prop) :
    (∀ rand, Q (c.distribute useAble rand old except blockCount)) ↔
      ∀ placed ∈ (c.distribution useAble old except blockCount).outcomes, Q placed := by
  rw [← forall_run_iff _ 0]
  exact forall_congr' fun rand => by rw [distribute_eq_run]

end DataCluster

end Runs

/-! ## What is added -/

section Added

variable {useAble : Nat → Bool} {old except : List Nat}

theorem free_iff {add : List Nat} {s : Nat} :
    Free useAble old except add s ↔ Free useAble old except [] s ∧ s ∉ add := by
  simp only [Free, List.not_mem_nil, not_false_eq_true, true_and]
  tauto

/-- A search finds a free server where it searches. -/
theorem Rack.mem_of_choice {add : List Nat} {k : Rack} {s : Nat}
    (h : some s ∈ (k.choice useAble old except add).outcomes) :
    s ∈ k.chunkServers ∧ Free useAble old except add s := by
  obtain ⟨x, hx, h⟩ := exists_of_spin_some h
  split at h
  next hfree =>
    obtain rfl := Option.some.inj h
    exact ⟨hx, hfree⟩
  next => exact absurd h (Option.some_ne_none s)

@[inherit_doc Rack.mem_of_choice]
theorem DataCenter.mem_of_choice {exclude : Option Rack} {add : List Nat} {dc : DataCenter}
    {s : Nat} (h : some s ∈ (dc.choice useAble old except exclude add).outcomes) :
    s ∈ dc.servers ∧ Free useAble old except add s := by
  obtain ⟨k, hk, h⟩ := exists_of_spin_some h
  obtain ⟨hs, hfree⟩ := Rack.mem_of_choice h
  exact ⟨List.mem_flatMap.mpr ⟨k, hk, hs⟩, hfree⟩

namespace DataCluster

/-- The usable registered servers outside `old` and `except`. -/
def available (c : DataCluster) (useAble : Nat → Bool) (old except : List Nat) : List Nat :=
  c.servers.filter fun s => decide (Free useAble old except [] s)

/-- What may have been added so far. -/
structure Placing (c : DataCluster) (useAble : Nat → Bool) (old except add : List Nat) :
    Prop where
  nodup : add.Nodup
  available : add ⊆ c.available useAble old except

variable {c : DataCluster}

@[inherit_doc Rack.mem_of_choice]
theorem mem_of_choice {exclude : Option DataCenter} {add : List Nat} {s : Nat}
    (h : some s ∈ (c.choice useAble old except exclude add).outcomes) :
    s ∈ c.servers ∧ Free useAble old except add s := by
  obtain ⟨dc, hdc, h⟩ := exists_of_spin_some h
  obtain ⟨hs, hfree⟩ := DataCenter.mem_of_choice h
  exact ⟨List.mem_flatMap.mpr ⟨dc, hdc, hs⟩, hfree⟩

theorem mem_of_remoteRackChoice {base : Nat} {add : List Nat} {s : Nat}
    (h : some s ∈ (c.remoteRackChoice useAble old except base add).outcomes) :
    s ∈ c.servers ∧ Free useAble old except add s := by
  rw [remoteRackChoice] at h
  split at h
  next => exact absurd h (Option.some_ne_none s)
  next dc hdc =>
    obtain ⟨o, ho, h⟩ := (mem_outcomes_bind _).mp h
    cases o with
    | some s' =>
        obtain rfl := Option.some.inj h
        obtain ⟨hs, hfree⟩ := DataCenter.mem_of_choice ho
        exact ⟨c.servers_getDataCenter hdc hs, hfree⟩
    | none => exact mem_of_choice h

theorem mem_available {s : Nat} :
    s ∈ c.available useAble old except ↔ s ∈ c.servers ∧ Free useAble old except [] s := by
  rw [available, List.mem_filter, decide_eq_true_eq]

theorem placing_nil : c.Placing useAble old except [] :=
  ⟨List.nodup_nil, List.nil_subset _⟩

namespace Placing

variable {add placed : List Nat}

/-- One more server that every check lets through. -/
theorem push (h : c.Placing useAble old except add) {s : Nat} (hs : s ∈ c.servers)
    (hfree : Free useAble old except add s) : c.Placing useAble old except (add ++ [s]) where
  nodup := List.nodup_append'.mpr
    ⟨h.nodup, List.nodup_singleton s, List.disjoint_singleton.mpr (free_iff.mp hfree).2⟩
  available := List.append_subset.mpr ⟨h.available, List.cons_subset.mpr
    ⟨mem_available.mpr ⟨hs, (free_iff.mp hfree).1⟩, List.nil_subset _⟩⟩

theorem length_le (h : c.Placing useAble old except add) :
    add.length ≤ (c.available useAble old except).length :=
  (h.nodup.subperm h.available).length_le

/-- The loop adds to the servers there are. -/
theorem restChoice (n : Nat) : ∀ {add}, c.Placing useAble old except add →
    placed ∈ (c.restChoice useAble old except n add).outcomes →
      c.Placing useAble old except placed ∧ add ⊆ placed := by
  induction n with
  | zero =>
      rintro add h rfl
      exact ⟨h, List.Subset.refl _⟩
  | succ n ih =>
      intro add h hplaced
      obtain ⟨o, ho, hplaced⟩ := (mem_outcomes_bind _).mp hplaced
      cases o with
      | none =>
          obtain rfl := hplaced
          exact ⟨h, List.Subset.refl _⟩
      | some s =>
          obtain ⟨hs, hfree⟩ := mem_of_choice ho
          obtain ⟨hplacing, hsub⟩ := ih (h.push hs hfree) hplaced
          exact ⟨hplacing, List.Subset.trans (List.subset_append_left _ _) hsub⟩

theorem rackChoice (h : c.Placing useAble old except add) {base : Nat} {third : Bool × List Nat}
    (hthird : third ∈ (c.rackChoice useAble old except base add).outcomes) :
    c.Placing useAble old except third.2 ∧ add ⊆ third.2 := by
  rw [DataCluster.rackChoice] at hthird
  split at hthird
  next =>
    obtain rfl := hthird
    exact ⟨h, List.Subset.refl _⟩
  next k hk =>
    obtain ⟨o, ho, rfl⟩ := (mem_outcomes_bind _).mp hthird
    cases o with
    | none =>
        rw [Option.toList_none, List.append_nil]
        exact ⟨h, List.Subset.refl _⟩
    | some s =>
        obtain ⟨hs, hfree⟩ := Rack.mem_of_choice ho
        exact ⟨h.push (c.servers_getRack hk hs) hfree, List.subset_append_left _ _⟩

/-- So does the search for the third server. -/
theorem localRackChoice (h : c.Placing useAble old except add) {blockCount : Int32} {base : Nat}
    {third : Bool × List Nat}
    (hthird : third ∈ (c.localRackChoice useAble old except blockCount base add).outcomes) :
    c.Placing useAble old except third.2 ∧ add ⊆ third.2 := by
  rw [DataCluster.localRackChoice] at hthird
  split_ifs at hthird
  · obtain rfl := hthird
    exact ⟨h, List.Subset.refl _⟩
  · obtain rfl := hthird
    exact ⟨h, List.Subset.refl _⟩
  · exact h.rackChoice hthird
  · exact h.rackChoice hthird

theorem endChoice {blockCount : Int32} {third : Bool × List Nat}
    (h : c.Placing useAble old except third.2)
    (hplaced : placed ∈ (c.endChoice useAble old except blockCount third).outcomes) :
    c.Placing useAble old except placed ∧ third.2 ⊆ placed := by
  rw [DataCluster.endChoice] at hplaced
  split at hplaced
  next =>
    obtain rfl := hplaced
    exact ⟨h, List.Subset.refl _⟩
  next => exact restChoice _ h hplaced

theorem furtherChoice (h : c.Placing useAble old except add) {blockCount : Int32} {base : Nat}
    (hplaced : placed ∈ (c.furtherChoice useAble old except blockCount base add).outcomes) :
    c.Placing useAble old except placed := by
  obtain ⟨o, ho, hplaced⟩ := (mem_outcomes_bind _).mp hplaced
  cases o with
  | none => exact (restChoice _ h hplaced).1
  | some second =>
      obtain ⟨hs, hfree⟩ := mem_of_remoteRackChoice ho
      dsimp only at hplaced
      split at hplaced
      next =>
        obtain rfl := hplaced
        exact h.push hs hfree
      next =>
        obtain ⟨third, hthird, hplaced⟩ := (mem_outcomes_bind _).mp hplaced
        exact ((h.push hs hfree).localRackChoice hthird).1.endChoice hplaced |>.1

end Placing

/-- Whatever is drawn, only available servers are placed. -/
theorem placing_distribution {blockCount : Int32} {placed : List Nat}
    (hplaced : placed ∈ (c.distribution useAble old except blockCount).outcomes) :
    c.Placing useAble old except placed := by
  rw [distribution] at hplaced
  split at hplaced
  next =>
    obtain rfl := hplaced
    exact placing_nil
  next =>
    obtain ⟨⟨o, add⟩, hfirst, hplaced⟩ := (mem_outcomes_bind _).mp hplaced
    have hadd : c.Placing useAble old except add := by
      cases old with
      | nil =>
          obtain ⟨o', ho', heq⟩ := (mem_outcomes_bind _).mp hfirst
          obtain ⟨rfl, rfl⟩ := Prod.mk.inj heq
          cases o with
          | none => exact placing_nil
          | some s => exact placing_nil.push (mem_of_choice ho').1 (mem_of_choice ho').2
      | cons s rest =>
          obtain ⟨rfl, rfl⟩ := Prod.mk.inj hfirst
          exact placing_nil
    cases o with
    | none =>
        obtain rfl := hplaced
        exact hadd
    | some base =>
        dsimp only at hplaced
        split at hplaced
        next =>
          obtain rfl := hplaced
          exact hadd
        next => exact hadd.furtherChoice hplaced

variable (c) (rand : Nat → Nat)

theorem distributeDraft_fresh (blockCount : Int32) :
    (c.distributeDraft useAble rand old except blockCount).Fresh
      c.servers useAble old except := by
  rw [distributeDraft_eq]
  have h := placing_distribution (run_mem_outcomes rand
    (c.distribution useAble old except blockCount) 0)
  refine ⟨h.nodup, fun s hs => ?_, fun s hs => (mem_available.mp (h.available hs)).1⟩
  obtain ⟨hold, hex, -, huse⟩ := (mem_available.mp (h.available hs)).2
  exact ⟨hold, hex, huse⟩

/-- A distribution names distinct usable servers, and none the block has already. -/
theorem distribute_fresh (blockCount : Int32) :
    (c.distribute useAble rand old except blockCount).Nodup ∧
      ∀ s ∈ c.distribute useAble rand old except blockCount,
        s ∉ old ∧ s ∉ except ∧ useAble s = true := by
  have h : (c.distributeDraft useAble rand old except blockCount).Fresh
      c.servers useAble old except := c.distributeDraft_fresh rand blockCount
  rw [distribute_eq]
  exact ⟨h.nodup, h.new⟩

end DataCluster

end Added

/-! ## Every loop ends -/

section Legal

variable {useAble : Nat → Bool} {old except : List Nat}

theorem Rack.choice_within (add : List Nat) (k : Rack) :
    (k.choice useAble old except add).Within 1 := by
  have h : (k.choice useAble old except add).Within (1 + k.chunkServers.length * 0) :=
    spin_within (fun _ _ => within_done _ 0) 1
  rw [Nat.mul_zero] at h
  exact h

theorem DataCenter.choice_within (exclude : Option Rack) (add : List Nat) (dc : DataCenter) :
    (dc.choice useAble old except exclude add).Within (1 + dc.racks.length) := by
  have h : (dc.choice useAble old except exclude add).Within (1 + dc.racks.length * 1) :=
    spin_within (fun k _ => k.choice_within add) 0
  rw [Nat.mul_one] at h
  exact h

namespace DataCluster

variable (c : DataCluster)

/-- The scans one search may begin: of the data centers, of the racks of each, and of the
servers of each rack. -/
def scans : Nat :=
  1 + c.dataCenters.length * (1 + (c.dataCenters.flatMap DataCenter.racks).length)

theorem racks_length_le {dc : DataCenter} (h : dc ∈ c.dataCenters) :
    dc.racks.length ≤ (c.dataCenters.flatMap DataCenter.racks).length := by
  rw [List.flatMap_def]
  exact (List.sublist_flatten_of_mem (List.mem_map_of_mem h)).length_le

theorem choice_within (exclude : Option DataCenter) (add : List Nat) :
    (c.choice useAble old except exclude add).Within c.scans :=
  spin_within (fun dc hdc => (dc.choice_within none add).mono
    (Nat.add_le_add_left (c.racks_length_le hdc) 1)) 0

theorem localChoice_within : (c.localChoice useAble old except).Within c.scans := by
  cases old with
  | nil => exact Within.bind (fun _ => within_done _ 0) (c.choice_within none [])
  | cons s rest => exact within_done _ _

theorem remoteRackChoice_within (base : Nat) (add : List Nat) :
    (c.remoteRackChoice useAble old except base add).Within (c.scans + c.scans) := by
  rw [remoteRackChoice]
  cases hdc : c.getDataCenter base with
  | none => exact within_done _ _
  | some dc =>
      obtain ⟨k, -, hk⟩ := Option.bind_eq_some_iff.mp hdc
      have hmem := List.mem_of_find?_eq_some hk
      have hscans : 1 + dc.racks.length ≤ c.scans :=
        calc 1 + dc.racks.length
          _ ≤ 1 + (c.dataCenters.flatMap DataCenter.racks).length :=
            Nat.add_le_add_left (c.racks_length_le hmem) 1
          _ ≤ c.dataCenters.length * (1 + (c.dataCenters.flatMap DataCenter.racks).length) :=
            Nat.le_mul_of_pos_left _ (List.length_pos_of_mem hmem)
          _ ≤ c.scans := Nat.le_add_left _ 1
      refine Within.bind (fun o => ?_) ((dc.choice_within _ add).mono hscans)
      cases o with
      | some s => exact within_done _ _
      | none => exact c.choice_within _ add

theorem localRackChoice_within (blockCount : Int32) (base : Nat) (add : List Nat) :
    (c.localRackChoice useAble old except blockCount base add).Within 1 := by
  have hsearch : (c.rackChoice useAble old except base add).Within 1 := by
    rw [rackChoice]
    cases c.getRack base with
    | none => exact within_done _ _
    | some k => exact Within.bind (fun _ => within_done _ 0) (k.choice_within add)
  rw [localRackChoice]
  split_ifs
  · exact within_done _ _
  · exact within_done _ _
  · exact hsearch
  · exact hsearch

theorem restChoice_within (n : Nat) : ∀ add,
    (c.restChoice useAble old except n add).Within (n * c.scans) := by
  induction n with
  | zero => exact fun _ => within_done _ _
  | succ n ih =>
      intro add
      rw [restChoice, Nat.succ_mul, Nat.add_comm]
      refine Within.bind (fun o => ?_) (c.choice_within none add)
      cases o with
      | none => exact within_done _ _
      | some s => exact ih _

theorem distribution_within (blockCount : Int32) :
    (c.distribution useAble old except blockCount).Within
      (((blockCount.toInt - 3).toNat + 4) * c.scans) := by
  generalize hn : (blockCount.toInt - 3).toNat = n
  have hone : 1 ≤ c.scans := Nat.le_add_right 1 _
  have hsum : c.scans + (c.scans + c.scans + (1 + n * c.scans)) ≤ (n + 4) * c.scans := by
    rw [Nat.add_mul]
    omega
  have hrest (add : List Nat) (m : Nat) :
      (c.restChoice useAble old except (blockCount.toInt - 3).toNat add).Within
        (m + n * c.scans) :=
    (c.restChoice_within _ add).mono (hn ▸ Nat.le_add_left _ m)
  rw [distribution]
  split
  next => exact within_done _ _
  next =>
    refine (Within.bind (fun o => ?_) c.localChoice_within).mono hsum
    split
    next => exact within_done _ _
    next base add =>
      split
      next => exact within_done _ _
      next =>
        refine Within.bind (fun o => ?_) (c.remoteRackChoice_within base add)
        cases o with
        | none => exact hrest add 1
        | some second =>
            dsimp only
            split
            next => exact within_done _ _
            next =>
              refine Within.bind (fun third => ?_) (c.localRackChoice_within _ _ _)
              rw [endChoice]
              split
              next => exact within_done _ _
              next => exact (hrest third.2 0).mono (by omega)

/-- `Distribute` returns distinct registered servers that are usable and in neither list.  Its
loops count down from the lengths of the vectors, and it begins so many of them only. -/
theorem distribute_legal (useAble : Nat → Bool) (rand : Nat → Nat) (old except : List Nat)
    (blockCount : Int32) :
    (c.distributeDraft useAble rand old except blockCount).add.Nodup ∧
      (∀ s ∈ (c.distributeDraft useAble rand old except blockCount).add,
        s ∈ c.servers ∧ useAble s = true ∧ s ∉ old ∧ s ∉ except) ∧
      (c.distributeDraft useAble rand old except blockCount).calls ≤
        ((blockCount.toInt - 3).toNat + 4) * c.scans := by
  have h : (c.distributeDraft useAble rand old except blockCount).Fresh
      c.servers useAble old except := c.distributeDraft_fresh rand blockCount
  refine ⟨h.nodup, fun s hs => ?_, ?_⟩
  · obtain ⟨hold, hex, huse⟩ := h.new s hs
    exact ⟨h.registered s hs, huse, hold, hex⟩
  · rw [distributeDraft_eq]
    have hcalls : ((c.distribution useAble old except blockCount).run rand 0).2 ≤
        0 + ((blockCount.toInt - 3).toNat + 4) * c.scans :=
      (c.distribution_within blockCount).run_le rand
    rw [Nat.zero_add] at hcalls
    exact hcalls

end DataCluster

end Legal

/-! ## What the searches offer -/

section Offers

variable {useAble : Nat → Bool} {old except : List Nat}

/-- A rack offers its free servers. -/
theorem Rack.choice_picks (add : List Nat) {k : Rack} (distinct : k.chunkServers.Nodup) :
    Picks (k.choice useAble old except add)
      {s | s ∈ k.chunkServers ∧ Free useAble old except add s} := by
  have htest (x : Nat) :
      Picks (done (if Free useAble old except add x then some x else none))
        {s | s = x ∧ Free useAble old except add s} := by
    split
    next hfree =>
      refine ⟨fun b => ?_, ?_⟩
      · rw [mem_outcomes_done, Option.some_inj]
        exact ⟨fun h => ⟨h, h ▸ hfree⟩, fun h => h.1⟩
      · refine iff_of_false (Option.some_ne_none x).symm fun h => ?_
        exact Set.eq_empty_iff_forall_notMem.mp h x ⟨rfl, hfree⟩
    next hfree =>
      refine ⟨fun b => iff_of_false (Option.some_ne_none b) ?_, iff_of_true rfl ?_⟩
      · rintro ⟨rfl, h⟩
        exact hfree h
      · refine Set.eq_empty_iff_forall_notMem.mpr ?_
        rintro b ⟨rfl, h⟩
        exact hfree h
  refine (spin_picks distinct (fun x _ => htest x) 1).congr fun s => ?_
  simp

/-- A data center offers the free servers of the racks it does not exclude. -/
theorem DataCenter.choice_picks (exclude : Option Rack) (add : List Nat) {dc : DataCenter}
    (distinct : dc.racks.Nodup) (hracks : ∀ k ∈ dc.racks, k.chunkServers.Nodup) :
    Picks (dc.choice useAble old except exclude add)
      {s | (∃ k ∈ allowed dc.racks exclude, s ∈ k.chunkServers) ∧
        Free useAble old except add s} := by
  refine (spin_picks distinct (fun k hk => Rack.choice_picks add (hracks k hk.1)) 0).congr
    fun s => ⟨?_, ?_⟩
  · rintro ⟨k, hk, hs, hfree⟩
    exact ⟨⟨k, hk, hs⟩, hfree⟩
  · rintro ⟨⟨k, hk, hs⟩, hfree⟩
    exact ⟨k, hk, hs, hfree⟩

namespace Topology

variable (t : Topology)

theorem chunkServers_nodup {dc : DataCenter} (hdc : dc ∈ t.dataCenters) {k : Rack}
    (hk : k ∈ dc.racks) : k.chunkServers.Nodup :=
  (List.nodup_flatMap.mp ((List.nodup_flatMap.mp t.distinct).1 dc hdc)).1 k hk

/-- The cluster offers the free servers of the data centers it does not exclude. -/
theorem choice_picks (exclude : Option DataCenter) (add : List Nat) :
    Picks (t.choice useAble old except exclude add)
      {s | (∃ dc ∈ allowed t.dataCenters exclude, s ∈ dc.servers) ∧
        Free useAble old except add s} := by
  refine (spin_picks t.dataCenters_nodup (fun dc hdc => DataCenter.choice_picks none add
    (t.racks_nodup hdc.1) fun k hk => t.chunkServers_nodup hdc.1 hk) 0).congr fun s => ⟨?_, ?_⟩
  · rintro ⟨dc, hdc, ⟨k, hk, hs⟩, hfree⟩
    exact ⟨⟨dc, hdc, List.mem_flatMap.mpr ⟨k, mem_allowed_none.mp hk, hs⟩⟩, hfree⟩
  · rintro ⟨⟨dc, hdc, hs⟩, hfree⟩
    obtain ⟨k, hk, hs⟩ := List.mem_flatMap.mp hs
    exact ⟨dc, hdc, ⟨k, mem_allowed_none.mpr hk, hs⟩, hfree⟩

end Topology

end Offers

end Ofs.Master
