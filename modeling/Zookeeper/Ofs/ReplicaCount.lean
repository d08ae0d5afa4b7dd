import Zookeeper.Ofs.Placement

/-!
# How many servers a distribution returns

A distribution is to return as many servers as the block lacks, or all the available ones.
`Distribute` counts otherwise.  A block that has servers gets a second and a third one and
`blockCount - 3` more, however many it has.

* The second server is one of `seconds`: of another rack of the first one's data center, or
  else of another data center.  There is none if the first one is `Cornered`: what is free is
  in its own rack, and that rack and its data center are both excluded.
* The third one is looked for in the rack of the second only.  `Grows` says that it is found
  there and added.
* The loop adds `blockCount - 3` servers, or all there are (`length_restChoice`).

`forall_length_iff` puts the counts together, and `rightCount_iff` says when the right number
is returned for every outcome of `rand`.
-/

open Chance

namespace Ofs.Master

namespace Topology

variable (t : Topology)

theorem mem_servers {dc : DataCenter} (hdc : dc ∈ t.dataCenters) {k : Rack} (hk : k ∈ dc.racks)
    {s : Nat} (hs : s ∈ k.chunkServers) : s ∈ t.servers :=
  List.mem_flatMap.mpr ⟨dc, hdc, List.mem_flatMap.mpr ⟨k, hk, hs⟩⟩

/-- A registered server stands in a rack of a data center. -/
theorem exists_rack {s : Nat} (hs : s ∈ t.servers) :
    ∃ dc ∈ t.dataCenters, ∃ k ∈ dc.racks, s ∈ k.chunkServers := by
  obtain ⟨dc, hdc, hs⟩ := List.mem_flatMap.mp hs
  obtain ⟨k, hk, hs⟩ := List.mem_flatMap.mp hs
  exact ⟨dc, hdc, k, hk, hs⟩

theorem getRack_eq_some_iff {dc : DataCenter} (hdc : dc ∈ t.dataCenters) {k : Rack}
    (hk : k ∈ dc.racks) {s : Nat} : t.getRack s = some k ↔ s ∈ k.chunkServers :=
  ⟨fun h => by simpa using List.find?_some h, t.getRack_eq hdc hk⟩

section Available

variable (useAble : Nat → Bool) (old except : List Nat)

/-- The servers of the racks that are searched for a server near another one's rack. -/
def nearby (base : Nat) : Set Nat :=
  {s | ∃ dc, t.getDataCenter base = some dc ∧
    ∃ k ∈ allowed dc.racks (t.getRack base), s ∈ k.chunkServers}

/-- The servers of the data centers that are searched after that. -/
def faraway (base : Nat) : Set Nat :=
  {s | ∃ dc ∈ allowed t.dataCenters (t.getDataCenter base), s ∈ dc.servers}

/-- The servers of which `ChooseRemoteRackChunkServer` returns one. -/
def seconds (base : Nat) (add : List Nat) : Set Nat :=
  {s | Free useAble old except add s ∧
    (s ∈ t.nearby base ∨
      (∀ s' ∈ t.nearby base, ¬Free useAble old except add s') ∧ s ∈ t.faraway base)}

/-- Free servers there are only in the rack of `base`, which is neither the only rack of its
data center nor in the only data center. -/
structure Cornered (base : Nat) (add : List Nat) : Prop where
  room : ∃ s ∈ t.servers, Free useAble old except add s
  home : ∀ s ∈ t.servers, Free useAble old except add s → t.getRack s = t.getRack base
  racks : ∀ dc, t.getDataCenter base = some dc → dc.racks.length ≠ 1
  dataCenters : t.dataCenters.length ≠ 1

/-- `ChooseLocalRackChunkServer` adds a server for the one it is given. -/
structure Grows (blockCount : Int32) (second : Nat) (add : List Nat) : Prop where
  together : ∀ s ∈ old.tail, t.getRack s = t.getRack second
  short : 2 ≤ old.length → old.length + add.length < asSize blockCount
  room : ∃ s, t.getRack s = t.getRack second ∧ Free useAble old except add s

end Available

section Counting

variable {useAble : Nat → Bool} {old except : List Nat}

theorem available_nodup : (t.available useAble old except).Nodup :=
  t.distinct.filter _

variable {t}

/-- A server is free as long as not all the available ones are placed. -/
theorem exists_free_iff {add : List Nat} (h : t.Placing useAble old except add) :
    (∃ s ∈ t.servers, Free useAble old except add s) ↔
      add.length < (t.available useAble old except).length := by
  constructor
  · rintro ⟨s, hs, hfree⟩
    have := (h.push hs hfree).length_le
    rw [List.length_append, List.length_singleton] at this
    exact this
  · intro hlt
    by_contra hnone
    have hsub : t.available useAble old except ⊆ add := fun s hs => by
      obtain ⟨hs, hfree⟩ := t.mem_available.mp hs
      by_contra hnew
      exact hnone ⟨s, hs, free_iff.mpr ⟨hfree, hnew⟩⟩
    exact Nat.not_le.mpr hlt (t.available_nodup.subperm hsub).length_le

variable (t)

/-- Without exclusions any free server may be picked. -/
theorem choice_none_picks (add : List Nat) :
    Picks (t.choice useAble old except none add)
      {s | s ∈ t.servers ∧ Free useAble old except add s} := by
  refine (t.choice_picks none add).congr fun s => ?_
  simp [DataCluster.servers]

/-- The loop places so many servers, or all there are. -/
theorem length_restChoice (n : Nat) : ∀ {add}, t.Placing useAble old except add →
    ∀ placed ∈ (t.restChoice useAble old except n add).outcomes,
      placed.length = min (add.length + n) (t.available useAble old except).length := by
  induction n with
  | zero =>
      rintro add h placed rfl
      exact (Nat.min_eq_left h.length_le).symm
  | succ n ih =>
      intro add h placed hplaced
      obtain ⟨o, ho, hplaced⟩ := (mem_outcomes_bind _).mp hplaced
      cases o with
      | none =>
          obtain rfl := hplaced
          have hnone := (t.choice_none_picks _).none_iff.mp ho
          have hfull : ¬placed.length < (t.available useAble old except).length := fun hlt => by
            obtain ⟨s, hs⟩ := (exists_free_iff h).mpr hlt
            exact Set.eq_empty_iff_forall_notMem.mp hnone s hs
          have := h.length_le
          omega
      | some s =>
          obtain ⟨hs, hfree⟩ := ((t.choice_none_picks add).some_iff s).mp ho
          have hlength := ih (h.push hs hfree) placed hplaced
          rw [List.length_append, List.length_singleton] at hlength
          omega

/-- The second server is any of `seconds`. -/
theorem remoteRackChoice_picks {base : Nat} (hbase : base ∈ t.servers) (add : List Nat) :
    Picks (t.remoteRackChoice useAble old except base add)
      (t.seconds useAble old except base add) := by
  obtain ⟨dc, hdc, k, hk, hs⟩ := t.exists_rack hbase
  have hdcEq := t.getDataCenter_eq hdc hk hs
  rw [DataCluster.remoteRackChoice, hdcEq]
  refine (Picks.orElse (DataCenter.choice_picks (t.getRack base) add (t.racks_nodup hdc)
    fun k hk => t.chunkServers_nodup hdc hk) (t.choice_picks (some dc) add)).congr fun s => ?_
  simp only [seconds, nearby, faraway, hdcEq, Option.some_inj, Set.mem_ofPred_eq,
    exists_eq_left', Set.eq_empty_iff_forall_notMem, not_and]
  constructor
  · rintro (⟨hnear, hfree⟩ | ⟨hnone, hfar, hfree⟩)
    · exact ⟨hfree, .inl hnear⟩
    · exact ⟨hfree, .inr ⟨hnone, hfar⟩⟩
  · rintro ⟨hfree, hnear | ⟨hnone, hfar⟩⟩
    · exact .inl ⟨hnear, hfree⟩
    · exact .inr ⟨hnone, hfar, hfree⟩

theorem mem_servers_of_mem_seconds {base s : Nat} {add : List Nat}
    (h : s ∈ t.seconds useAble old except base add) : s ∈ t.servers := by
  obtain ⟨-, hnear | ⟨-, hfar⟩⟩ := h
  · obtain ⟨dc, hdc, k, hk, hs⟩ := hnear
    exact t.servers_getDataCenter hdc (List.mem_flatMap.mpr ⟨k, hk.1, hs⟩)
  · obtain ⟨dc, hdc, hs⟩ := hfar
    exact List.mem_flatMap.mpr ⟨dc, hdc.1, hs⟩

/-- There is no second server to choose if none is free, or if `base` is cornered. -/
theorem seconds_eq_empty_iff {base : Nat} (hbase : base ∈ t.servers) (add : List Nat) :
    t.seconds useAble old except base add = ∅ ↔
      (¬∃ s ∈ t.servers, Free useAble old except add s) ∨
        t.Cornered useAble old except base add := by
  obtain ⟨dc, hdc, k, hk, hbase⟩ := t.exists_rack hbase
  have hkEq := t.getRack_eq hdc hk hbase
  have hdcEq := t.getDataCenter_eq hdc hk hbase
  constructor
  · refine fun hempty => or_iff_not_imp_left.mpr fun hroom => ?_
    rw [not_not] at hroom
    have hnear : ∀ s ∈ t.nearby base, ¬Free useAble old except add s := fun s hs hfree =>
      Set.eq_empty_iff_forall_notMem.mp hempty s ⟨hfree, .inl hs⟩
    have hfar : ∀ s ∈ t.faraway base, ¬Free useAble old except add s := fun s hs hfree =>
      Set.eq_empty_iff_forall_notMem.mp hempty s ⟨hfree, .inr ⟨hnear, hs⟩⟩
    -- a free server is in no place that is searched
    have hhome : ∀ s ∈ t.servers, Free useAble old except add s →
        s ∈ k.chunkServers ∧ dc.racks.length ≠ 1 ∧ t.dataCenters.length ≠ 1 := by
      intro s hs hfree
      obtain ⟨dc', hdc', k', hk', hs⟩ := t.exists_rack hs
      have hcenters (h : some dc' ≠ some dc ∨ t.dataCenters.length = 1) : False :=
        hfar s ⟨dc', ⟨hdc', hdcEq ▸ h⟩, List.mem_flatMap.mpr ⟨k', hk', hs⟩⟩ hfree
      obtain rfl : dc' = dc := by
        by_contra hne
        exact hcenters (.inl fun h => hne (Option.some.inj h))
      have hracks (h : some k' ≠ some k ∨ dc'.racks.length = 1) : False :=
        hnear s ⟨dc', hdcEq, k', ⟨hk', hkEq ▸ h⟩, hs⟩ hfree
      obtain rfl : k' = k := by
        by_contra hne
        exact hracks (.inl fun h => hne (Option.some.inj h))
      exact ⟨hs, fun h => hracks (.inr h), fun h => hcenters (.inr h)⟩
    obtain ⟨s, hs, hfree⟩ := hroom
    refine ⟨⟨s, hs, hfree⟩, fun s' hs' hfree' => ?_, fun dc' hdc' => ?_, (hhome s hs hfree).2.2⟩
    · rw [hkEq, t.getRack_eq hdc hk (hhome s' hs' hfree').1]
    · obtain rfl := Option.some.inj (hdcEq.symm.trans hdc')
      exact (hhome s hs hfree).2.1
  · refine fun h => Set.eq_empty_iff_forall_notMem.mpr fun s hs => ?_
    have hregistered := t.mem_servers_of_mem_seconds hs
    obtain ⟨hfree, hplace⟩ := hs
    cases h with
    | inl hnone => exact hnone ⟨s, hregistered, hfree⟩
    | inr h =>
        have hsame := h.home s hregistered hfree
        rw [hkEq, t.getRack_eq_some_iff hdc hk] at hsame
        rcases hplace with ⟨dc', hdc', k', hk', hs⟩ | ⟨-, dc', hdc', hs⟩
        · obtain rfl := Option.some.inj (hdcEq.symm.trans hdc')
          have := t.getRack_eq hdc hk'.1 hs
          rw [t.getRack_eq hdc hk hsame] at this
          rw [hkEq, this] at hk'
          exact hk'.2.elim (fun hne => hne rfl) (h.racks dc hdcEq)
        · obtain ⟨k', hk', hs⟩ := List.mem_flatMap.mp hs
          have := t.getDataCenter_eq hdc'.1 hk' hs
          rw [t.getDataCenter_eq hdc hk hsame] at this
          rw [hdcEq, this] at hdc'
          exact hdc'.2.elim (fun hne => hne rfl) h.dataCenters

/-- A rack is searched: a free server of it is added, if there is one. -/
theorem mem_rackChoice {base : Nat} (hbase : base ∈ t.servers) {add : List Nat}
    {third : Bool × List Nat} :
    third ∈ (t.rackChoice useAble old except base add).outcomes ↔
      (∃ s, t.getRack s = t.getRack base ∧ Free useAble old except add s ∧
        third = (true, add ++ [s])) ∨
      ((¬∃ s, t.getRack s = t.getRack base ∧ Free useAble old except add s) ∧
        third = (false, add)) := by
  obtain ⟨dc, hdc, k, hk, hbase⟩ := t.exists_rack hbase
  have hpicks : Picks (k.choice useAble old except add) _ :=
    Rack.choice_picks add (t.chunkServers_nodup hdc hk)
  rw [DataCluster.rackChoice, t.getRack_eq hdc hk hbase, mem_outcomes_bind]
  simp only [t.getRack_eq_some_iff hdc hk]
  constructor
  · rintro ⟨o, ho, h⟩
    cases o with
    | some s =>
        obtain ⟨hs, hfree⟩ := (hpicks.some_iff s).mp ho
        exact .inl ⟨s, hs, hfree, h⟩
    | none =>
        refine .inr ⟨?_, by rw [h, Option.toList_none, List.append_nil]; rfl⟩
        rintro ⟨s, hs⟩
        exact Set.eq_empty_iff_forall_notMem.mp (hpicks.none_iff.mp ho) s hs
  · rintro (⟨s, hs, hfree, rfl⟩ | ⟨hnone, rfl⟩)
    · exact ⟨some s, (hpicks.some_iff s).mpr ⟨hs, hfree⟩, rfl⟩
    · refine ⟨none, hpicks.none_iff.mpr ?_, by rw [Option.toList_none, List.append_nil]; rfl⟩
      exact Set.eq_empty_iff_forall_notMem.mpr fun s hs => hnone ⟨s, hs⟩

/-- The third search adds one server, or none. -/
theorem mem_localRackChoice {second : Nat} (hsecond : second ∈ t.servers) {blockCount : Int32}
    {add : List Nat} {third : Bool × List Nat}
    (h : third ∈ (t.localRackChoice useAble old except blockCount second add).outcomes) :
    (t.Grows useAble old except blockCount second add ∧
      ∃ s, t.getRack s = t.getRack second ∧ Free useAble old except add s ∧
        third = (true, add ++ [s])) ∨
    (¬t.Grows useAble old except blockCount second add ∧ third.2 = add) := by
  have hsearch (htogether : ∀ s ∈ old.tail, t.getRack s = t.getRack second)
      (hshort : 2 ≤ old.length → old.length + add.length < asSize blockCount)
      (h : third ∈ (t.rackChoice useAble old except second add).outcomes) :
      (t.Grows useAble old except blockCount second add ∧
        ∃ s, t.getRack s = t.getRack second ∧ Free useAble old except add s ∧
          third = (true, add ++ [s])) ∨
      (¬t.Grows useAble old except blockCount second add ∧ third.2 = add) := by
    rcases (t.mem_rackChoice hsecond).mp h with ⟨s, hs, hfree, rfl⟩ | ⟨hnone, rfl⟩
    · exact .inl ⟨⟨htogether, hshort, s, hs, hfree⟩, s, hs, hfree, rfl⟩
    · exact .inr ⟨fun hgrows => hnone hgrows.room, rfl⟩
  rw [DataCluster.localRackChoice] at h
  split_ifs at h with htwo helsewhere hfull
  · obtain rfl := h
    obtain ⟨s, hs, hne⟩ := helsewhere
    exact .inr ⟨fun hgrows => hne (hgrows.together s hs), rfl⟩
  · obtain rfl := h
    exact .inr ⟨fun hgrows => Nat.not_le.mpr (hgrows.short htwo) hfull, rfl⟩
  · refine hsearch (fun s hs => ?_) (fun _ => Nat.not_le.mp hfull) h
    by_contra hne
    exact helsewhere ⟨s, hs, hne⟩
  · refine hsearch (fun s hs => ?_) (fun h => absurd h htwo) h
    have htail := List.length_pos_of_mem hs
    rw [List.length_tail] at htail
    omega

/-! ## From the second server on -/

theorem mem_furtherChoice {base : Nat} (hbase : base ∈ t.servers) {blockCount : Int32}
    {add placed : List Nat} :
    placed ∈ (t.furtherChoice useAble old except blockCount base add).outcomes ↔
      (t.seconds useAble old except base add = ∅ ∧
        placed ∈ (t.restChoice useAble old except (blockCount.toInt - 3).toNat add).outcomes) ∨
      ∃ second ∈ t.seconds useAble old except base add,
        (blockCount = 2 ∧ placed = add ++ [second]) ∨
        (blockCount ≠ 2 ∧ ∃ third ∈
          (t.localRackChoice useAble old except blockCount second (add ++ [second])).outcomes,
          placed ∈ (t.endChoice useAble old except blockCount third).outcomes) := by
  have hpicks : Picks (t.remoteRackChoice useAble old except base add) _ :=
    t.remoteRackChoice_picks hbase add
  rw [DataCluster.furtherChoice, mem_outcomes_bind]
  constructor
  · rintro ⟨o, ho, h⟩
    cases o with
    | none => exact .inl ⟨hpicks.none_iff.mp ho, h⟩
    | some second =>
        refine .inr ⟨second, (hpicks.some_iff second).mp ho, ?_⟩
        dsimp only at h
        split at h
        next htwo => exact .inl ⟨htwo, h⟩
        next htwo => exact .inr ⟨htwo, (mem_outcomes_bind _).mp h⟩
  · rintro (⟨hempty, h⟩ | ⟨second, hsecond, h⟩)
    · exact ⟨none, hpicks.none_iff.mpr hempty, h⟩
    · refine ⟨some second, (hpicks.some_iff second).mpr hsecond, ?_⟩
      dsimp only
      rcases h with ⟨htwo, rfl⟩ | ⟨htwo, h⟩
      · rw [if_pos htwo]
        rfl
      · rw [if_neg htwo]
        exact (mem_outcomes_bind _).mpr h

/-- The servers placed in the end. -/
theorem length_endChoice {blockCount : Int32} {third : Bool × List Nat}
    (h : t.Placing useAble old except third.2) {placed : List Nat}
    (hplaced : placed ∈ (t.endChoice useAble old except blockCount third).outcomes) :
    placed.length = min (third.2.length + (blockCount.toInt - 3).toNat)
      (t.available useAble old except).length := by
  rw [DataCluster.endChoice] at hplaced
  split at hplaced
  next hend =>
    obtain rfl := hplaced
    have hzero : (blockCount.toInt - 3).toNat = 0 := by rw [hend.2]; rfl
    rw [hzero, Nat.add_zero]
    exact (Nat.min_eq_left h.length_le).symm
  next => exact t.length_restChoice _ h placed hplaced

/-- What is placed in the end with a second server, if the code goes on to a third one. -/
theorem length_of_second {blockCount : Int32} {second : Nat} {add : List Nat}
    (h : t.Placing useAble old except (add ++ [second]))
    {third : Bool × List Nat}
    (hthird : third ∈
      (t.localRackChoice useAble old except blockCount second (add ++ [second])).outcomes)
    {placed : List Nat}
    (hplaced : placed ∈ (t.endChoice useAble old except blockCount third).outcomes) :
    (t.Grows useAble old except blockCount second (add ++ [second]) ∧
      placed.length = min (add.length + 2 + (blockCount.toInt - 3).toNat)
        (t.available useAble old except).length) ∨
    (¬t.Grows useAble old except blockCount second (add ++ [second]) ∧
      placed.length = min (add.length + 1 + (blockCount.toInt - 3).toNat)
        (t.available useAble old except).length) := by
  have hsecond : second ∈ t.servers :=
    (t.mem_available.mp (h.available (List.mem_append_right _ (List.mem_singleton_self _)))).1
  rcases t.mem_localRackChoice hsecond hthird with ⟨hgrows, s, hs, hfree, rfl⟩ | ⟨hgrows, hsame⟩
  · refine .inl ⟨hgrows, ?_⟩
    have hmem : s ∈ t.servers := by
      obtain ⟨dc, hdc, k, hk, hsecond⟩ := t.exists_rack hsecond
      rw [t.getRack_eq hdc hk hsecond, t.getRack_eq_some_iff hdc hk] at hs
      exact t.mem_servers hdc hk hs
    have hlength := t.length_endChoice (h.push hmem hfree) hplaced
    simpa [Nat.add_assoc] using hlength
  · refine .inr ⟨hgrows, ?_⟩
    have hplacing : t.Placing useAble old except third.2 := hsame ▸ h
    have hlength := t.length_endChoice hplacing hplaced
    rw [hsame, List.length_append, List.length_singleton] at hlength
    exact hlength

variable {t} in
theorem placing_second {add : List Nat} (h : t.Placing useAble old except add) {base second : Nat}
    (hsecond : second ∈ t.seconds useAble old except base add) :
    t.Placing useAble old except (add ++ [second]) :=
  h.push (t.mem_servers_of_mem_seconds hsecond) hsecond.1

/-- Whatever is drawn so many are placed: what that means for the second servers. -/
theorem forall_length_iff {base : Nat} (hbase : base ∈ t.servers) {blockCount : Int32}
    {add : List Nat} (h : t.Placing useAble old except add) {m : Nat} :
    (∀ placed ∈ (t.furtherChoice useAble old except blockCount base add).outcomes,
      placed.length = m) ↔
    (t.seconds useAble old except base add = ∅ →
      min (add.length + (blockCount.toInt - 3).toNat)
        (t.available useAble old except).length = m) ∧
    ∀ second ∈ t.seconds useAble old except base add,
      (blockCount = 2 → add.length + 1 = m) ∧
      (blockCount ≠ 2 →
        (t.Grows useAble old except blockCount second (add ++ [second]) →
          min (add.length + 2 + (blockCount.toInt - 3).toNat)
            (t.available useAble old except).length = m) ∧
        (¬t.Grows useAble old except blockCount second (add ++ [second]) →
          min (add.length + 1 + (blockCount.toInt - 3).toNat)
            (t.available useAble old except).length = m)) := by
  simp only [t.mem_furtherChoice hbase]
  constructor
  · intro hall
    refine ⟨fun hempty => ?_, fun second hsecond => ⟨fun htwo => ?_, fun htwo => ?_⟩⟩
    · obtain ⟨placed, hplaced⟩ :=
        (t.restChoice useAble old except (blockCount.toInt - 3).toNat add).outcomes_nonempty
      rw [← t.length_restChoice _ h placed hplaced]
      exact hall placed (.inl ⟨hempty, hplaced⟩)
    · have hlength := hall _ (.inr ⟨second, hsecond, .inl ⟨htwo, rfl⟩⟩)
      rw [List.length_append, List.length_singleton] at hlength
      exact hlength
    · obtain ⟨third, hthird⟩ := (t.localRackChoice useAble old except blockCount second
        (add ++ [second])).outcomes_nonempty
      obtain ⟨placed, hplaced⟩ :=
        (t.endChoice useAble old except blockCount third).outcomes_nonempty
      have hm := hall placed (.inr ⟨second, hsecond, .inr ⟨htwo, third, hthird, hplaced⟩⟩)
      rcases t.length_of_second (placing_second h hsecond) hthird hplaced with
        ⟨hgrows, hlength⟩ | ⟨hgrows, hlength⟩
      · exact ⟨fun _ => hlength.symm.trans hm, fun hnot => absurd hgrows hnot⟩
      · exact ⟨fun hgrows' => absurd hgrows' hgrows, fun _ => hlength.symm.trans hm⟩
  · rintro ⟨hnone, hsome⟩ placed (⟨hempty, hplaced⟩ | ⟨second, hsecond, hplaced⟩)
    · rw [t.length_restChoice _ h placed hplaced]
      exact hnone hempty
    · obtain ⟨htwo, hmore⟩ := hsome second hsecond
      rcases hplaced with ⟨heq, rfl⟩ | ⟨hne, third, hthird, hplaced⟩
      · rw [List.length_append, List.length_singleton]
        exact htwo heq
      · rcases t.length_of_second (placing_second h hsecond) hthird hplaced with
          ⟨hgrows, hlength⟩ | ⟨hgrows, hlength⟩
        · exact hlength.trans ((hmore hne).1 hgrows)
        · exact hlength.trans ((hmore hne).2 hgrows)

theorem asSize_of_pos {n : Int32} (h : 0 < n.toInt) : asSize n = n.toInt.toNat := by
  have hle : (0 : Int64) ≤ n.toInt64 := by
    rw [Int64.le_iff_toInt_le, Int32.toInt_toInt64]
    exact Int.le_of_lt h
  rw [asSize, Int64.toNat_toUInt64_of_le hle, Int64.toNatClampNeg, Int32.toInt_toInt64]

/-- A distribution for a block without servers. -/
theorem mem_distribution_nil {blockCount : Int32} (hcount : 0 < blockCount.toInt)
    {placed : List Nat} :
    placed ∈ (t.distribution useAble [] except blockCount).outcomes ↔
      (t.available useAble [] except = [] ∧ placed = []) ∨
      ∃ base ∈ t.available useAble [] except,
        (blockCount = 1 ∧ placed = [base]) ∨
        (blockCount ≠ 1 ∧
          placed ∈ (t.furtherChoice useAble [] except blockCount base [base]).outcomes) := by
  have hsize : ¬asSize blockCount ≤ ([] : List Nat).length := by
    rw [asSize_of_pos hcount, List.length_nil]
    omega
  have hpicks : Picks (t.choice useAble [] except none []) _ := t.choice_none_picks []
  rw [DataCluster.distribution, if_neg hsize, mem_outcomes_bind, DataCluster.localChoice]
  simp only [mem_outcomes_bind, mem_outcomes_done]
  constructor
  · rintro ⟨_, ⟨o, ho, rfl⟩, h⟩
    cases o with
    | none =>
        refine .inl ⟨?_, h⟩
        rw [List.eq_nil_iff_forall_not_mem]
        intro s hs
        exact Set.eq_empty_iff_forall_notMem.mp (hpicks.none_iff.mp ho) s (t.mem_available.mp hs)
    | some base =>
        refine .inr ⟨base, t.mem_available.mpr ((hpicks.some_iff base).mp ho), ?_⟩
        dsimp only at h
        split at h
        next hone => exact .inl ⟨hone, h⟩
        next hone => exact .inr ⟨hone, h⟩
  · rintro (⟨hnone, rfl⟩ | ⟨base, hbase, h⟩)
    · refine ⟨(none, []), ⟨none, hpicks.none_iff.mpr ?_, rfl⟩, rfl⟩
      refine Set.eq_empty_iff_forall_notMem.mpr fun s hs => ?_
      exact absurd (hnone ▸ t.mem_available.mpr hs) List.not_mem_nil
    · refine ⟨(some base, [base]), ⟨some base, ?_, rfl⟩, ?_⟩
      · exact (hpicks.some_iff base).mpr (t.mem_available.mp hbase)
      · dsimp only
        rcases h with ⟨hone, rfl⟩ | ⟨hone, h⟩
        · rw [if_pos hone]
          rfl
        · rw [if_neg hone]
          exact h

/-- A distribution for a block that has servers. -/
theorem mem_distribution_cons {blockCount : Int32} {base : Nat} {rest : List Nat}
    (hshort : ((base :: rest).length : Int) < blockCount.toInt) {placed : List Nat} :
    placed ∈ (t.distribution useAble (base :: rest) except blockCount).outcomes ↔
      placed ∈ (t.furtherChoice useAble (base :: rest) except blockCount base []).outcomes := by
  rw [List.length_cons] at hshort
  have hsize : ¬asSize blockCount ≤ (base :: rest).length := by
    rw [asSize_of_pos (by omega), List.length_cons]
    omega
  have hone : blockCount ≠ 1 := fun h => by
    have hcount : blockCount.toInt = 1 := by rw [h]; rfl
    omega
  rw [DataCluster.distribution, if_neg hsize, DataCluster.localChoice]
  dsimp only [Chance.bind]
  rw [if_neg hone]

end Counting

/-! ## The right number -/

section RightCount

variable (useAble : Nat → Bool) (old except : List Nat) (blockCount : Int32)

/-- The second server `second` goes with the right number.  A third one is wanted next to it
unless the block has two servers or more already, where the loop makes up for it. -/
def FitsWith (add : List Nat) (second : Nat) : Prop :=
  if old.length ≤ 1 then
    blockCount.toInt.toNat ≤ 2 ∨
      (t.available useAble old except).length + old.length < blockCount.toInt.toNat ∨
      t.Grows useAble old except blockCount second (add ++ [second])
  else
    (t.available useAble old except).length + old.length ≤ blockCount.toInt.toNat ∨
      (old.length = 2 ∧ ¬t.Grows useAble old except blockCount second (add ++ [second]))

/-- With `base` for the first server the right number is placed. -/
structure Fits (base : Nat) (add : List Nat) : Prop where
  cornered : t.Cornered useAble old except base add →
    old.length = 3 ∨
      (t.available useAble old except).length + (if old = [] then 2 else max 3 old.length) ≤
        blockCount.toInt.toNat
  chosen : ∀ second ∈ t.seconds useAble old except base add,
    t.FitsWith useAble old except blockCount add second

/-- Whatever the first server is, the right number is placed. -/
def RightCount : Prop :=
  match old with
  | [] => blockCount = 1 ∨ ∀ base ∈ t.available useAble [] except,
      t.Fits useAble [] except blockCount base [base]
  | base :: rest => t.Fits useAble (base :: rest) except blockCount base []

end RightCount

section Count

variable {t} {useAble : Nat → Bool} {old except : List Nat} {blockCount : Int32}

theorem length_add_cases {add : List Nat} (hadd : add.length = if old = [] then 1 else 0) :
    (old = [] ∧ old.length = 0 ∧ add.length = 1) ∨
      (¬old = [] ∧ 0 < old.length ∧ add.length = 0) := by
  cases old with
  | nil => exact .inl ⟨rfl, rfl, hadd⟩
  | cons s rest => exact .inr ⟨List.cons_ne_nil s rest, Nat.succ_pos _, hadd⟩

/-- With one second server the right number is placed exactly if it goes with it. -/
theorem fitsWith_iff {add : List Nat} {second : Nat}
    (hadd : add.length = if old = [] then 1 else 0)
    (hroom : add.length < (t.available useAble old except).length)
    (hshort : (old.length : Int) < blockCount.toInt) (hone : blockCount.toInt ≠ 1) :
    ((blockCount = 2 → add.length + 1 =
        min (blockCount.toInt.toNat - old.length) (t.available useAble old except).length) ∧
      (blockCount ≠ 2 →
        (t.Grows useAble old except blockCount second (add ++ [second]) →
          min (add.length + 2 + (blockCount.toInt - 3).toNat)
              (t.available useAble old except).length =
            min (blockCount.toInt.toNat - old.length) (t.available useAble old except).length) ∧
        (¬t.Grows useAble old except blockCount second (add ++ [second]) →
          min (add.length + 1 + (blockCount.toInt - 3).toNat)
              (t.available useAble old except).length =
            min (blockCount.toInt.toNat - old.length) (t.available useAble old except).length))) ↔
      t.FitsWith useAble old except blockCount add second := by
  have htwo : blockCount = 2 ↔ blockCount.toInt = 2 := Int32.toInt_inj.symm
  have hold := length_add_cases hadd
  rw [FitsWith]
  generalize (t.available useAble old except).length = n at hroom ⊢
  by_cases hgrows : t.Grows useAble old except blockCount second (add ++ [second])
  · simp only [hgrows, not_true_eq_false, forall_const, false_imp_iff, and_true, and_false,
      or_true, or_false, ne_eq, htwo]
    split
    next =>
      rw [iff_true]
      omega
    next => omega
  · simp only [hgrows, not_false_eq_true, forall_const, false_imp_iff, true_and, and_true,
      or_false, ne_eq, htwo]
    split
    next => omega
    next => omega

/-- From the second server on, the right number is placed exactly if it fits. -/
theorem forall_right_iff {base : Nat} (hbase : base ∈ t.servers) {add : List Nat}
    (h : t.Placing useAble old except add) (hadd : add.length = if old = [] then 1 else 0)
    (hshort : (old.length : Int) < blockCount.toInt) (hone : blockCount ≠ 1) :
    (∀ placed ∈ (t.furtherChoice useAble old except blockCount base add).outcomes,
      placed.length = min (blockCount.toInt.toNat - old.length)
        (t.available useAble old except).length) ↔
      t.Fits useAble old except blockCount base add := by
  rw [t.forall_length_iff hbase h, t.seconds_eq_empty_iff hbase, (exists_free_iff h)]
  have hle := h.length_le
  have hone : blockCount.toInt ≠ 1 := fun heq => hone (Int32.toInt_inj.mp heq)
  refine Iff.trans (and_congr ?_ ?_) ⟨fun h => ⟨h.1, h.2⟩, fun h => ⟨h.cornered, h.chosen⟩⟩
  · by_cases hcornered : t.Cornered useAble old except base add
    · have hroom := (exists_free_iff h).mp hcornered.room
      simp only [hcornered, or_true, forall_const]
      rcases length_add_cases hadd with ⟨hnil, hk, hadd⟩ | ⟨hnil, hk, hadd⟩
      · rw [if_pos hnil]
        omega
      · rw [if_neg hnil]
        omega
    · have hold := length_add_cases hadd
      simp only [hcornered, or_false, false_imp_iff, iff_true]
      omega
  · refine forall₂_congr fun second hsecond => ?_
    have hroom := (exists_free_iff h).mp ⟨second, t.mem_servers_of_mem_seconds hsecond, hsecond.1⟩
    exact fitsWith_iff hadd hroom hshort hone

/-- For every outcome of `rand` as many servers are returned as the block lacks, or all the
available ones, exactly if the condition holds. -/
theorem rightCount_iff (t : Topology) (useAble : Nat → Bool) {old : List Nat}
    (except : List Nat) {blockCount : Int32} (hregistered : ∀ s ∈ old, s ∈ t.servers)
    (hshort : (old.length : Int) < blockCount.toInt) :
    (∀ rand, (t.distribute useAble rand old except blockCount).length =
      min (blockCount.toInt.toNat - old.length) (t.available useAble old except).length) ↔
    t.RightCount useAble old except blockCount := by
  rw [t.forall_distribute_iff useAble old except blockCount fun placed => placed.length = _]
  cases old with
  | cons base rest =>
      have hone : blockCount ≠ 1 := fun h => by
        have hcount : blockCount.toInt = 1 := by rw [h]; rfl
        rw [List.length_cons] at hshort
        omega
      simp only [t.mem_distribution_cons hshort]
      exact forall_right_iff (hregistered base List.mem_cons_self) (t.placing_nil) rfl
        hshort hone
  | nil =>
      simp only [t.mem_distribution_nil hshort, List.length_nil, Nat.sub_zero]
      have hplacing {base : Nat} (hbase : base ∈ t.available useAble [] except) :
          t.Placing useAble [] except [base] :=
        t.placing_nil.push (t.mem_available.mp hbase).1 (t.mem_available.mp hbase).2
      rw [RightCount]
      by_cases hone : blockCount = 1
      · refine iff_of_true (fun placed hplaced => ?_) (.inl hone)
        have hcount : blockCount.toInt.toNat = 1 := by rw [hone]; rfl
        rw [hcount]
        rcases hplaced with ⟨hnone, rfl⟩ | ⟨base, hbase, ⟨-, rfl⟩ | ⟨hne, -⟩⟩
        · rw [hnone]
          rfl
        · exact (Nat.min_eq_left (hplacing hbase).length_le).symm
        · exact absurd hone hne
      · rw [or_iff_right hone]
        constructor
        · intro hall base hbase
          refine (forall_right_iff (t.mem_available.mp hbase).1 (hplacing hbase) rfl hshort
            hone).mp fun placed hplaced => ?_
          exact hall placed (.inr ⟨base, hbase, .inr ⟨hone, hplaced⟩⟩)
        · rintro hall placed (⟨hnone, rfl⟩ | ⟨base, hbase, ⟨heq, -⟩ | ⟨-, hplaced⟩⟩)
          · rw [hnone]
            exact (Nat.min_zero _).symm
          · exact absurd heq hone
          · exact (forall_right_iff (t.mem_available.mp hbase).1 (hplacing hbase) rfl hshort
              hone).mpr (hall base hbase) placed hplaced

/-- Three servers, each in a rack of its own, in one data center. -/
def threeRacks : Topology :=
  ((Topology.empty.register 1 1 1).register 2 2 1).register 3 3 1

theorem rightCount_second :
    (threeRacks.distribute (fun _ => true) (fun n => n) [1] [] 2).length = 1 := by
  have hright : threeRacks.RightCount (fun _ => true) [1] [] 2 :=
    { cornered := fun h => absurd rfl h.dataCenters
      chosen := fun _ _ => by
        rw [FitsWith, if_pos (by decide)]
        exact .inl (by decide) }
  exact (rightCount_iff threeRacks (fun _ => true) [] (by decide) (by decide)).mpr hright fun n => n

/-- Three servers are wanted and three there are, but two are returned: the third one is
looked for in the rack of the second only. -/
theorem third_not_found :
    ¬∀ (t : Topology) (useAble : Nat → Bool) (rand : Nat → Nat) (old except : List Nat)
      (blockCount : Int32), 1 ≤ blockCount.toInt → old.Nodup → (∀ s ∈ old, s ∈ t.servers) →
      (old.length : Int) < blockCount.toInt →
      (t.distribute useAble rand old except blockCount).length =
        min (blockCount.toInt.toNat - old.length) (t.available useAble old except).length := by
  intro h
  have hcount := h threeRacks (fun _ => true) (fun _ => 0) [] [] 3 (by decide) List.nodup_nil
    (fun s hs => absurd hs List.not_mem_nil) (by decide)
  exact absurd hcount (by decide)

end Count

end Topology

end Ofs.Master
