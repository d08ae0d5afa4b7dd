import Zookeeper.Ofs.ReplicaCount

/-!
# Whether the servers of a new block stand in two racks

`Distribute({}, {})` places the servers of a new block.  The second one is looked for in
another rack of the first one's data center, and the rack of the first is excluded there.  In
a data center of one rack the excluded rack is the only one, and it is searched all the same.

If usable servers stand in two racks, then two racks are used for every outcome of `rand`
exactly if no data center of one rack has as many usable servers as are placed in the worst
case (`diverse_iff`).  Those are two if three are wanted, as the third one is not looked for
elsewhere, and else as many as are wanted.
-/

open Chance

namespace Ofs.Master.Topology

section

variable {t : Topology} {useAble : Nat → Bool} {old except : List Nat}

/-- The search for the third server keeps to the rack of the second. -/
theorem third_in_rack {second : Nat} {blockCount : Int32} {add : List Nat}
    (hsecond : second ∈ t.servers) {third : Bool × List Nat}
    (hthird : third ∈ (t.localRackChoice useAble old except blockCount second add).outcomes) :
    third.2.length ≤ add.length + 1 ∧
      ∀ s ∈ third.2, s ∈ add ∨ t.getRack s = t.getRack second := by
  rcases t.mem_localRackChoice hsecond hthird with ⟨-, s, hs, -, rfl⟩ | ⟨-, hsame⟩
  · refine ⟨?_, fun s' hs' => ?_⟩
    · rw [List.length_append, List.length_singleton]
    · cases List.mem_append.mp hs' with
      | inl hs' => exact .inl hs'
      | inr hs' => exact .inr (List.mem_singleton.mp hs' ▸ hs)
  · rw [hsame]
    exact ⟨Nat.le_succ _, fun s hs => .inl hs⟩

end

/-! ## Two racks -/

variable (t : Topology) (useAble : Nat → Bool)

/-- Two of the servers stand in different racks. -/
def Diverse (servers : List Nat) : Prop :=
  ∃ s ∈ servers, ∃ s' ∈ servers, t.getRack s ≠ t.getRack s'

instance (servers : List Nat) : Decidable (t.Diverse servers) :=
  inferInstanceAs (Decidable (∃ s ∈ servers, ∃ s' ∈ servers, t.getRack s ≠ t.getRack s'))

/-- The usable servers of a data center. -/
def usable (dc : DataCenter) : List Nat :=
  dc.servers.filter useAble

/-- No data center of one rack has as many usable servers as may be placed there. -/
def NoLoneRack (blockCount : Int32) : Prop :=
  ∀ dc ∈ t.dataCenters, dc.racks.length = 1 →
    (usable useAble dc).length < if blockCount = 3 then 2 else blockCount.toInt.toNat

instance (blockCount : Int32) : Decidable (t.NoLoneRack useAble blockCount) :=
  inferInstanceAs (Decidable (∀ dc ∈ t.dataCenters, dc.racks.length = 1 →
    (usable useAble dc).length < if blockCount = 3 then 2 else blockCount.toInt.toNat))

section

variable {t} {useAble}

theorem free_new_iff {add : List Nat} {s : Nat} :
    Free useAble [] [] add s ↔ s ∉ add ∧ useAble s = true := by
  simp [Free]

theorem mem_available_new {s : Nat} :
    s ∈ t.available useAble [] [] ↔ s ∈ t.servers ∧ useAble s = true := by
  rw [t.mem_available, free_new_iff]
  simp

/-! ## Everything in one rack -/

/-- The loop may stay in a rack with enough usable servers. -/
theorem exists_restChoice_inside {dc : DataCenter} (hdc : dc ∈ t.dataCenters) {k : Rack}
    (hk : k ∈ dc.racks) (n : Nat) : ∀ {add}, t.Placing useAble [] [] add → add ⊆ k.chunkServers →
      add.length + n ≤ (k.chunkServers.filter useAble).length →
        ∃ placed ∈ (t.restChoice useAble [] [] n add).outcomes, placed ⊆ k.chunkServers := by
  induction n with
  | zero => exact fun _ hinside _ => ⟨_, rfl, hinside⟩
  | succ n ih =>
      intro add h hinside hroom
      have hnew : ∃ s ∈ k.chunkServers.filter useAble, s ∉ add := by
        by_contra hnone
        have hsub : k.chunkServers.filter useAble ⊆ add := fun s hs => by
          by_contra hnot
          exact hnone ⟨s, hs, hnot⟩
        have hle := (((t.chunkServers_nodup hdc hk).filter useAble).subperm hsub).length_le
        omega
      obtain ⟨s, hs, hnot⟩ := hnew
      obtain ⟨hs, huse⟩ := List.mem_filter.mp hs
      have hmem := t.mem_servers hdc hk hs
      have hfree : Free useAble [] [] add s := free_new_iff.mpr ⟨hnot, huse⟩
      obtain ⟨placed, hplaced, hinside⟩ := ih (h.push hmem hfree)
        (List.append_subset.mpr ⟨hinside, List.cons_subset.mpr ⟨hs, List.nil_subset _⟩⟩)
        (by rw [List.length_append, List.length_singleton]; omega)
      refine ⟨placed, (mem_outcomes_bind _).mpr ⟨some s, ?_, hplaced⟩, hinside⟩
      exact ((t.choice_none_picks add).some_iff s).mpr ⟨hmem, hfree⟩

/-- Servers of one rack are not diverse. -/
theorem not_diverse_of_inside {dc : DataCenter} (hdc : dc ∈ t.dataCenters) {k : Rack}
    (hk : k ∈ dc.racks) {servers : List Nat} (hinside : servers ⊆ k.chunkServers) :
    ¬t.Diverse servers := by
  rintro ⟨s, hs, s', hs', hne⟩
  rw [t.getRack_eq hdc hk (hinside hs), t.getRack_eq hdc hk (hinside hs')] at hne
  exact hne rfl

/-- The end of a distribution may stay in a rack with enough usable servers. -/
theorem exists_endChoice_inside {dc : DataCenter} (hdc : dc ∈ t.dataCenters) {k : Rack}
    (hk : k ∈ dc.racks) {blockCount : Int32} {third : Bool × List Nat}
    (h : t.Placing useAble [] [] third.2) (hinside : third.2 ⊆ k.chunkServers)
    (hroom : blockCount = 3 ∨ third.2.length + (blockCount.toInt - 3).toNat ≤
      (k.chunkServers.filter useAble).length) :
    ∃ placed ∈ (t.endChoice useAble [] [] blockCount third).outcomes,
      placed ⊆ k.chunkServers := by
  rw [DataCluster.endChoice]
  split
  next => exact ⟨third.2, rfl, hinside⟩
  next =>
    cases hroom with
    | inl hthree =>
        have hzero : (blockCount.toInt - 3).toNat = 0 := by rw [hthree]; rfl
        rw [hzero]
        exact ⟨third.2, rfl, hinside⟩
    | inr hroom => exact exists_restChoice_inside hdc hk _ h hinside hroom

/-- Two servers of a data center of one rack may come first, and all the others of that rack
after them. -/
theorem exists_furtherChoice_inside {dc : DataCenter} (hdc : dc ∈ t.dataCenters)
    (hone : dc.racks.length = 1) {k : Rack} (hk : k ∈ dc.racks) {blockCount : Int32}
    (hcount : 2 ≤ blockCount.toInt) {base second : Nat} (hbase : base ∈ k.chunkServers)
    (huse : useAble base = true) (hsecond : second ∈ k.chunkServers)
    (huse' : useAble second = true) (hne : second ≠ base)
    (hmany : (if blockCount = 3 then 2 else blockCount.toInt.toNat) ≤
      (k.chunkServers.filter useAble).length) :
    ∃ placed ∈ (t.furtherChoice useAble [] [] blockCount base [base]).outcomes,
      placed ⊆ k.chunkServers := by
  have hmem := t.mem_servers hdc hk hbase
  have hmem' := t.mem_servers hdc hk hsecond
  have hfree : Free useAble [] [] [base] second :=
    free_new_iff.mpr ⟨fun h => hne (List.mem_singleton.mp h), huse'⟩
  have hplacing : t.Placing useAble [] [] ([base] ++ [second]) :=
    (DataCluster.placing_nil.push hmem (free_new_iff.mpr ⟨List.not_mem_nil, huse⟩)).push hmem' hfree
  have hinside : [base] ++ [second] ⊆ k.chunkServers :=
    List.cons_subset.mpr ⟨hbase, List.cons_subset.mpr ⟨hsecond, List.nil_subset _⟩⟩
  have hchosen : second ∈ t.seconds useAble [] [] base [base] :=
    ⟨hfree, .inl ⟨dc, t.getDataCenter_eq hdc hk hbase, k, ⟨hk, .inr hone⟩, hsecond⟩⟩
  by_cases htwo : blockCount = 2
  · exact ⟨_, (t.mem_furtherChoice hmem).mpr (.inr ⟨second, hchosen, .inl ⟨htwo, rfl⟩⟩), hinside⟩
  · obtain ⟨third, hthird⟩ :=
      (t.localRackChoice useAble [] [] blockCount second ([base] ++ [second])).outcomes_nonempty
    have hplacing' := (hplacing.localRackChoice hthird).1
    obtain ⟨hlength, hsame⟩ := third_in_rack hmem' hthird
    have hinside' : third.2 ⊆ k.chunkServers := fun s hs => by
      rcases hsame s hs with hs | hs
      · exact hinside hs
      · rw [t.getRack_eq hdc hk hsecond, t.getRack_eq_some_iff hdc hk] at hs
        exact hs
    have hroom : blockCount = 3 ∨ third.2.length + (blockCount.toInt - 3).toNat ≤
        (k.chunkServers.filter useAble).length := by
      refine or_iff_not_imp_left.mpr fun hthree => ?_
      have htwo' : blockCount.toInt ≠ 2 := fun h => htwo (Int32.toInt_inj.mp h)
      rw [if_neg hthree] at hmany
      rw [List.length_append, List.length_singleton, List.length_singleton] at hlength
      omega
    obtain ⟨placed, hplaced, hsub⟩ := exists_endChoice_inside hdc hk hplacing' hinside' hroom
    exact ⟨placed, (t.mem_furtherChoice hmem).mpr
      (.inr ⟨second, hchosen, .inr ⟨htwo, third, hthird, hplaced⟩⟩), hsub⟩

/-- A data center of one rack with enough usable servers may get all the servers. -/
theorem exists_not_diverse {blockCount : Int32} (hcount : 2 ≤ blockCount.toInt) {dc : DataCenter}
    (hdc : dc ∈ t.dataCenters) (hone : dc.racks.length = 1)
    (hmany : (if blockCount = 3 then 2 else blockCount.toInt.toNat) ≤
      (usable useAble dc).length) :
    ∃ placed ∈ (t.distribution useAble [] [] blockCount).outcomes, ¬t.Diverse placed := by
  obtain ⟨k, hracks⟩ := List.length_eq_one_iff.mp hone
  have hk : k ∈ dc.racks := hracks ▸ List.mem_singleton_self k
  rw [usable, DataCenter.servers, hracks, List.flatMap_singleton] at hmany
  have htwo : 2 ≤ (k.chunkServers.filter useAble).length := by
    split at hmany
    next => exact hmany
    next => omega
  obtain ⟨base, hbase⟩ := List.exists_mem_of_length_pos (Nat.lt_of_succ_lt htwo)
  have hmore : k.chunkServers.filter useAble ≠ [base] := fun h => by
    rw [h, List.length_singleton] at htwo
    omega
  obtain hnil | ⟨second, hsecond, hne⟩ :=
    ((t.chunkServers_nodup hdc hk).filter useAble).ne_singleton_iff base |>.mp hmore
  · exact absurd (hnil ▸ hbase) List.not_mem_nil
  obtain ⟨hbase, huse⟩ := List.mem_filter.mp hbase
  obtain ⟨hsecond, huse'⟩ := List.mem_filter.mp hsecond
  obtain ⟨placed, hplaced, hsub⟩ :=
    exists_furtherChoice_inside hdc hone hk hcount hbase huse hsecond huse' hne hmany
  have hne1 : blockCount ≠ 1 := fun h => by
    rw [h] at hcount
    exact absurd hcount (by decide)
  refine ⟨placed, (t.mem_distribution_nil (by omega)).mpr (.inr ⟨base, ?_, .inr ⟨hne1, hplaced⟩⟩),
    not_diverse_of_inside hdc hk hsub⟩
  exact mem_available_new.mpr ⟨t.mem_servers hdc hk hbase, huse⟩

/-! ## Servers of two racks -/

/-- The second server stands in another rack, if there is a choice: only a data center of one
rack is searched for another one of that rack. -/
theorem second_elsewhere {base second other : Nat} (hbase : base ∈ t.servers)
    (hother : other ∈ t.available useAble [] []) (hne : t.getRack other ≠ t.getRack base)
    (hsecond : second ∈ t.seconds useAble [] [] base [base]) :
    t.getRack second ≠ t.getRack base ∨
      ∃ dc ∈ t.dataCenters, dc.racks.length = 1 ∧ base ∈ dc.servers ∧ second ∈ dc.servers := by
  obtain ⟨dc, hdc, k, hk, hbase⟩ := t.exists_rack hbase
  have hkEq := t.getRack_eq hdc hk hbase
  have hdcEq := t.getDataCenter_eq hdc hk hbase
  obtain ⟨-, hnear | ⟨hnone, hfar⟩⟩ := hsecond
  · obtain ⟨dc', hdc', k', hk', hsecond⟩ := hnear
    obtain rfl := Option.some.inj (hdcEq.symm.trans hdc')
    rcases hk'.2 with hne' | hone
    · rw [t.getRack_eq hdc hk'.1 hsecond]
      exact .inl hne'
    · exact .inr ⟨dc, hdc, hone, List.mem_flatMap.mpr ⟨k, hk, hbase⟩,
        List.mem_flatMap.mpr ⟨k', hk'.1, hsecond⟩⟩
  · obtain ⟨dc', hdc', hsecond⟩ := hfar
    rcases hdc'.2 with hne' | hone
    · -- the rack of a server determines its data center
      obtain ⟨k', hk', hsecond⟩ := List.mem_flatMap.mp hsecond
      refine .inl fun hsame => hne' ?_
      rw [← t.getDataCenter_eq hdc'.1 hk' hsecond, DataCluster.getDataCenter,
        DataCluster.getDataCenter, hsame]
    · -- in the only data center the other rack would have been searched
      obtain ⟨hmem, huse⟩ := mem_available_new.mp hother
      obtain ⟨dc'', hdc'', k'', hk'', hother⟩ := t.exists_rack hmem
      obtain ⟨only, hall⟩ := List.length_eq_one_iff.mp hone
      rw [hall, List.mem_singleton] at hdc hdc''
      subst hdc''
      obtain rfl : dc = dc'' := hdc
      have hdc : dc ∈ t.dataCenters := hall ▸ List.mem_singleton_self dc
      rw [t.getRack_eq hdc hk'' hother] at hne
      refine absurd (free_new_iff.mpr ⟨fun h => ?_, huse⟩)
        (hnone other ⟨dc, hdcEq, k'', ⟨hk'', .inl hne⟩, hother⟩)
      rw [List.mem_singleton.mp h] at hother
      exact hne (t.getRack_eq hdc hk'' hother).symm

/-- From two usable servers of a data center of one rack on, servers elsewhere are reached,
if that rack has fewer than are wanted. -/
theorem diverse_of_lone {blockCount : Int32} (hthree : 3 < blockCount.toInt) {dc : DataCenter}
    (hdc : dc ∈ t.dataCenters) (hone : dc.racks.length = 1) {base second other : Nat}
    (hbase : base ∈ dc.servers) (hsecond : second ∈ dc.servers)
    (hplacing : t.Placing useAble [] [] ([base] ++ [second]))
    (hother : other ∈ t.available useAble [] []) (hne : t.getRack other ≠ t.getRack base)
    (hfew : (usable useAble dc).length < blockCount.toInt.toNat)
    {third : Bool × List Nat} (hthird : third ∈
      (t.localRackChoice useAble [] [] blockCount second ([base] ++ [second])).outcomes)
    {placed : List Nat}
    (hplaced : placed ∈ (t.endChoice useAble [] [] blockCount third).outcomes) :
    t.Diverse placed := by
  obtain ⟨k, hracks⟩ := List.length_eq_one_iff.mp hone
  have hk : k ∈ dc.racks := hracks ▸ List.mem_singleton_self k
  have hservers : dc.servers = k.chunkServers := by
    rw [DataCenter.servers, hracks, List.flatMap_singleton]
  rw [hservers] at hbase hsecond
  rw [usable, hservers] at hfew
  obtain ⟨hplacing3, hsub3⟩ := hplacing.localRackChoice hthird
  obtain ⟨hplacingAll, hsubAll⟩ := hplacing3.endChoice hplaced
  have hbaseIn : base ∈ placed := hsubAll (hsub3 List.mem_cons_self)
  by_contra hnot
  -- all that is placed is usable and stands in the rack
  have hinside : placed ⊆ k.chunkServers.filter useAble := fun s hs => by
    refine List.mem_filter.mpr ⟨?_, (mem_available_new.mp (hplacingAll.available hs)).2⟩
    by_contra hout
    refine hnot ⟨s, hs, base, hbaseIn, fun h => hout ?_⟩
    rw [t.getRack_eq hdc hk hbase] at h
    exact (t.getRack_eq_some_iff hdc hk).mp h
  have hlength := (hplacingAll.nodup.subperm hinside).length_le
  -- but there are more servers available
  have hmore : (k.chunkServers.filter useAble).length < (t.available useAble [] []).length := by
    have hsub : other :: k.chunkServers.filter useAble ⊆ t.available useAble [] [] := by
      refine List.cons_subset.mpr ⟨hother, fun s hs => ?_⟩
      obtain ⟨hs, huse⟩ := List.mem_filter.mp hs
      exact mem_available_new.mpr ⟨t.mem_servers hdc hk hs, huse⟩
    have hnodup : (other :: k.chunkServers.filter useAble).Nodup := by
      refine List.nodup_cons.mpr ⟨fun h => hne ?_, (t.chunkServers_nodup hdc hk).filter useAble⟩
      rw [t.getRack_eq hdc hk (List.mem_filter.mp h).1, t.getRack_eq hdc hk hbase]
    exact (hnodup.subperm hsub).length_le
  rcases t.length_of_second hplacing hthird hplaced with ⟨-, hcount⟩ | ⟨hgrows, hcount⟩
  · rw [List.length_singleton] at hcount
    omega
  · rw [List.length_singleton] at hcount
    -- no third server was found in the rack, so there are no more than the two
    have htwo : k.chunkServers.filter useAble ⊆ [base] ++ [second] := fun s hs => by
      obtain ⟨hs, huse⟩ := List.mem_filter.mp hs
      by_contra hnew
      refine hgrows ⟨fun _ h => absurd h List.not_mem_nil, fun h => absurd h (by decide), s, ?_,
        free_new_iff.mpr ⟨hnew, huse⟩⟩
      rw [t.getRack_eq hdc hk hs, t.getRack_eq hdc hk hsecond]
    have hle := (((t.chunkServers_nodup hdc hk).filter useAble).subperm htwo).length_le
    rw [List.length_append, List.length_singleton, List.length_singleton] at hle
    omega

/-- From the second server on two racks are used, if no data center of one rack has as many
usable servers as may be placed there. -/
theorem diverse_of_noLoneRack {blockCount : Int32} (hcount : 2 ≤ blockCount.toInt)
    (hlone : t.NoLoneRack useAble blockCount) {base other : Nat}
    (hbase : base ∈ t.available useAble [] []) (hother : other ∈ t.available useAble [] [])
    (hne : t.getRack other ≠ t.getRack base) {placed : List Nat}
    (hplaced : placed ∈ (t.furtherChoice useAble [] [] blockCount base [base]).outcomes) :
    t.Diverse placed := by
  obtain ⟨hmem, huse⟩ := mem_available_new.mp hbase
  obtain ⟨hmem', huse'⟩ := mem_available_new.mp hother
  have hplacing : t.Placing useAble [] [] [base] :=
    DataCluster.placing_nil.push hmem (free_new_iff.mpr ⟨List.not_mem_nil, huse⟩)
  have hfree : Free useAble [] [] [base] other :=
    free_new_iff.mpr ⟨fun h => hne (List.mem_singleton.mp h ▸ rfl), huse'⟩
  rcases (t.mem_furtherChoice hmem).mp hplaced with ⟨hempty, -⟩ | ⟨second, hsecond, hplaced⟩
  · rcases (t.seconds_eq_empty_iff hmem [base]).mp hempty with hnone | hcornered
    · exact absurd ⟨other, hmem', hfree⟩ hnone
    · exact absurd (hcornered.home other hmem' hfree) hne
  · have hboth := placing_second hplacing hsecond
    rcases second_elsewhere hmem hother hne hsecond with haway | ⟨dc, hdc, hone, hin, hin'⟩
    · suffices hsub : [base] ++ [second] ⊆ placed from
        ⟨second, hsub (List.mem_append_right _ List.mem_cons_self), base,
          hsub List.mem_cons_self, haway⟩
      rcases hplaced with ⟨-, rfl⟩ | ⟨-, third, hthird, hplaced⟩
      · exact List.Subset.refl _
      · obtain ⟨hplacing3, hsub3⟩ := hboth.localRackChoice hthird
        exact List.Subset.trans hsub3 (hplacing3.endChoice hplaced).2
    · have hfew := hlone dc hdc hone
      have htwo : 2 ≤ (usable useAble dc).length := by
        refine (hboth.nodup.subperm fun s hs => ?_).length_le
        refine List.mem_filter.mpr ⟨?_, (mem_available_new.mp (hboth.available hs)).2⟩
        cases List.mem_append.mp hs with
        | inl hs => exact List.mem_singleton.mp hs ▸ hin
        | inr hs => exact List.mem_singleton.mp hs ▸ hin'
      split at hfew
      next => omega
      next hthree =>
        have hthree' : blockCount.toInt ≠ 3 := fun h => hthree (Int32.toInt_inj.mp h)
        rcases hplaced with ⟨htwo', -⟩ | ⟨-, third, hthird, hplaced⟩
        · rw [htwo'] at hfew
          exact absurd hfew (Nat.not_lt.mpr htwo)
        · exact diverse_of_lone (by omega) hdc hone hin hin' hboth hother hne hfew hthird hplaced

/-- If two racks have usable servers, two racks are used for every outcome of `rand` exactly
if no data center of one rack has as many usable servers as may be placed there. -/
theorem diverse_iff (t : Topology) (useAble : Nat → Bool) {blockCount : Int32}
    (hcount : 2 ≤ blockCount.toInt) (hracks : t.Diverse (t.available useAble [] [])) :
    (∀ rand, t.Diverse (t.distribute useAble rand [] [] blockCount)) ↔
      t.NoLoneRack useAble blockCount := by
  rw [t.forall_distribute_iff useAble [] [] blockCount t.Diverse]
  constructor
  · intro hall dc hdc hone
    by_contra hmany
    obtain ⟨placed, hplaced, hnot⟩ := exists_not_diverse hcount hdc hone (Nat.not_lt.mp hmany)
    exact hnot (hall placed hplaced)
  · intro hlone placed hplaced
    obtain ⟨s, hs, s', hs', hne⟩ := hracks
    have hother (base : Nat) :
        ∃ other ∈ t.available useAble [] [], t.getRack other ≠ t.getRack base := by
      by_contra hnone
      have hsame : ∀ s ∈ t.available useAble [] [], t.getRack s = t.getRack base := fun s hs => by
        by_contra hne
        exact hnone ⟨s, hs, hne⟩
      exact hne ((hsame s hs).trans (hsame s' hs').symm)
    rcases (t.mem_distribution_nil (by omega)).mp hplaced with
      ⟨hnone, -⟩ | ⟨base, hbase, ⟨hone, -⟩ | ⟨-, hplaced⟩⟩
    · exact absurd (hnone ▸ hs) List.not_mem_nil
    · rw [hone] at hcount
      exact absurd hcount (by decide)
    · obtain ⟨other, hother, hne⟩ := hother base
      exact diverse_of_noLoneRack hcount hlone hbase hother hne hplaced

theorem diverse_threeRacks :
    threeRacks.Diverse (threeRacks.distribute (fun _ => true) (fun n => n) [] [] 2) :=
  (diverse_iff threeRacks (fun _ => true) (by decide) (by decide)).mpr (by decide) fun n => n

/-- A data center with three servers in its only rack, and one with a single server. -/
def loneRack : Topology :=
  (((Topology.empty.register 1 1 1).register 2 1 1).register 3 1 1).register 4 1 2

/-- All three servers of a block are placed in the only rack of a data center. -/
theorem one_rack_gets_all :
    ¬∀ (t : Topology) (useAble : Nat → Bool) (rand : Nat → Nat) (blockCount : Int32),
      2 ≤ blockCount.toInt → t.Diverse (t.available useAble [] []) →
      t.Diverse (t.distribute useAble rand [] [] blockCount) := by
  intro h
  exact absurd (h loneRack (fun _ => true) (fun _ => 0) 3 (by decide) (by decide)) (by decide)

end

end Ofs.Master.Topology
