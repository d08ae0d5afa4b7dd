import Mathlib.Data.Finset.Card
import Zookeeper.Ofs.MasterBlock

/-!
# Surplus replicas

Where more replicas of a block are healthy than wanted, `Block::CheckReplica` asks
`SelectUnnecessary` for servers and tells them to clean the block.
`DefaultDataCluster::SelectUnnecessary` counts the replicas of each rack, draws a rack
that has three or more, shuffles the servers, erases the surplus, and returns what is
left (`ofs/master/chunk/cluster/DefaultDataCluster.cpp`).  So it is the servers to keep
that are cleaned: with one replica too many, all but one of the good copies are lost
(`surplus_cleans_the_rest`).

`check_replica_keeps_iff` says when enough good copies stay.
-/

namespace Ofs.Master

variable {ρ : Type} [DecidableEq ρ]

/-! ## `SelectUnnecessary` -/

/-- `RackStat`.  The first replica on a rack is not counted. -/
structure RackStat (ρ : Type) where
  rack : ρ
  count : Nat := 0
deriving DecidableEq

/-- One turn of the loop that counts. -/
def countRack (rack : ρ) : List (RackStat ρ) → List (RackStat ρ)
  | [] => [{ rack := rack }]
  | stat :: stats =>
      if stat.rack = rack then { stat with count := stat.count + 1 } :: stats
      else stat :: countRack rack stats

def rackStats (rackOf : Nat → ρ) (old : List Nat) : List (RackStat ρ) :=
  old.foldl (fun stats server => countRack (rackOf server) stats) []

/-- The loop that draws a rack, from the `rate` and the `stat` reached. -/
def drawLoop (rand : Nat → Nat) :
    Nat → List (RackStat ρ) → Option (RackStat ρ) → Option (RackStat ρ)
  | _, [], stat => stat
  | rate, x :: stats, stat =>
      if 2 ≤ x.count then
        drawLoop rand (rate + 1) stats
          (if stat.isNone ∨ rand rate % rate = 0 then some x else stat)
      else drawLoop rand rate stats stat

/-- What `rand` returns at each rate, and the order `std::shuffle` leaves. -/
structure Draws where
  rand : Nat → Nat
  shuffle : List Nat → List Nat
  perm : ∀ servers, (shuffle servers).Perm servers

/-- The rack drawn. -/
def drawRack (draws : Draws) (rackOf : Nat → ρ) (old : List Nat) : Option (RackStat ρ) :=
  drawLoop draws.rand 1 (rackStats rackOf old) none

/-- The loop that erases, from the back. -/
def eraseLoop (onRack : Nat → Bool) : Int → Int → List Nat → List Nat
  | _, _, [] => []
  | rackCut, cut, server :: rest =>
      if onRack server then
        if 0 < rackCut then eraseLoop onRack (rackCut - 1) cut rest
        else server :: eraseLoop onRack rackCut cut rest
      else if 0 < cut then eraseLoop onRack rackCut (cut - 1) rest
      else server :: eraseLoop onRack rackCut cut rest

/-- `DefaultDataCluster::SelectUnnecessary`, for more servers than wanted. -/
def selectSurplus (blockCount : Nat) (draws : Draws) (rackOf : Nat → ρ) (old : List Nat) :
    List Nat :=
  let shuffled := draws.shuffle old
  let cut : Int := shuffled.length - blockCount
  match drawRack draws rackOf old with
  | none => shuffled.take (shuffled.length - cut.toNat)
  | some stat =>
      let rackCut : Int := stat.count - 2
      (eraseLoop (fun server => decide (rackOf server = stat.rack)) rackCut (cut - rackCut)
        shuffled.reverse).reverse

/-- `DataNodeService::SelectUnnecessary`. -/
def selectUnnecessary (blockCount : Nat) (draws : Draws) (rackOf : Nat → ρ) (old : List Nat) :
    List Nat :=
  if old.length ≤ blockCount then [] else selectSurplus blockCount draws rackOf old

/-! ## The racks -/

section Racks

variable {rackOf : Nat → ρ}

/-- The replicas on a rack. -/
def onRack (rackOf : Nat → ρ) (rack : ρ) (servers : List Nat) : List Nat :=
  servers.filter fun server => decide (rackOf server = rack)

/-- The replicas elsewhere. -/
def offRack (rackOf : Nat → ρ) (rack : ρ) (servers : List Nat) : List Nat :=
  servers.filter fun server => !decide (rackOf server = rack)

/-- The statistics of the servers counted so far. -/
structure Counted (rackOf : Nat → ρ) (servers : List Nat) (stats : List (RackStat ρ)) : Prop where
  nodup : (stats.map RackStat.rack).Nodup
  count : ∀ stat ∈ stats, stat.count + 1 = (onRack rackOf stat.rack servers).length
  all : ∀ server ∈ servers, rackOf server ∈ stats.map RackStat.rack

theorem map_rack_countRack (rack : ρ) (stats : List (RackStat ρ)) :
    (countRack rack stats).map RackStat.rack =
      if rack ∈ stats.map RackStat.rack then stats.map RackStat.rack
      else stats.map RackStat.rack ++ [rack] := by
  induction stats with
  | nil => simp [countRack]
  | cons stat stats ih =>
      rw [countRack]
      split
      next heq => simp [heq]
      next hne =>
        rw [List.map_cons, ih]
        by_cases hmem : rack ∈ stats.map RackStat.rack
        · simp [hmem]
        · simp [hmem, Ne.symm hne]

/-- The count of one rack goes up, or starts at zero. -/
theorem mem_countRack {rack : ρ} {x : RackStat ρ} {stats : List (RackStat ρ)}
    (hnodup : (stats.map RackStat.rack).Nodup) (hx : x ∈ countRack rack stats) :
    (x ∈ stats ∧ x.rack ≠ rack) ∨
    (x.rack = rack ∧ ∃ stat ∈ stats, stat.rack = rack ∧ x.count = stat.count + 1) ∨
    (x.rack = rack ∧ x.count = 0 ∧ rack ∉ stats.map RackStat.rack) := by
  induction stats with
  | nil =>
      rw [countRack, List.mem_singleton] at hx
      subst hx
      exact .inr (.inr ⟨rfl, rfl, by simp⟩)
  | cons stat stats ih =>
      rw [List.map_cons, List.nodup_cons] at hnodup
      rw [countRack] at hx
      split at hx
      next heq =>
        rcases List.mem_cons.mp hx with rfl | hx
        · exact .inr (.inl ⟨heq, stat, .head _, heq, rfl⟩)
        · refine .inl ⟨.tail _ hx, fun hr => hnodup.1 ?_⟩
          rw [heq, ← hr]
          exact List.mem_map_of_mem hx
      next hne =>
        rcases List.mem_cons.mp hx with rfl | hx
        · exact .inl ⟨.head _, hne⟩
        · rcases ih hnodup.2 hx with ⟨hmem, hr⟩ | ⟨hr, y, hy, hyr⟩ | ⟨hr, hc, hno⟩
          · exact .inl ⟨.tail _ hmem, hr⟩
          · exact .inr (.inl ⟨hr, y, .tail _ hy, hyr⟩)
          · refine .inr (.inr ⟨hr, hc, ?_⟩)
            simp [hno, Ne.symm hne]

theorem Counted.next {servers : List Nat} {stats : List (RackStat ρ)}
    (h : Counted rackOf servers stats) (server : Nat) :
    Counted rackOf (servers ++ [server]) (countRack (rackOf server) stats) where
  nodup := by
    rw [map_rack_countRack]
    split
    next => exact h.nodup
    next hno => simpa [List.nodup_append] using ⟨h.nodup, fun x hx heq => hno (by
      rw [← heq]
      exact List.mem_map_of_mem hx)⟩
  count x hx := by
    rw [onRack, List.filter_append, List.length_append]
    rcases mem_countRack h.nodup hx with ⟨hmem, hne⟩ | ⟨hr, stat, hstat, hsr, hc⟩ | ⟨hr, hc, hno⟩
    · have hcount := h.count x hmem
      simpa [onRack, Ne.symm hne] using hcount
    · have hcount := h.count stat hstat
      rw [hsr, ← hr] at hcount
      rw [hc, hcount]
      simp [onRack, hr]
    · have hempty : servers.filter (fun s => decide (rackOf s = x.rack)) = [] := by
        refine List.filter_eq_nil_iff.mpr fun s hs heq => hno ?_
        rw [← hr, ← of_decide_eq_true heq]
        exact h.all s hs
      rw [hempty, hc]
      simp [hr]
  all s hs := by
    rw [map_rack_countRack]
    rcases List.mem_append.mp hs with hs | hs
    · have hmem := h.all s hs
      split
      · exact hmem
      · exact List.mem_append_left _ hmem
    · rw [List.mem_singleton.mp hs]
      split
      next hmem => exact hmem
      next => exact List.mem_append_right _ (.head _)

theorem counted_foldl (more servers : List Nat) (stats : List (RackStat ρ))
    (h : Counted rackOf servers stats) : Counted rackOf (servers ++ more)
      (more.foldl (fun stats server => countRack (rackOf server) stats) stats) := by
  induction more generalizing servers stats with
  | nil => simpa using h
  | cons server more ih =>
      have hrest := ih _ _ (h.next server)
      rwa [List.append_assoc, List.singleton_append] at hrest

theorem counted_rackStats (rackOf : Nat → ρ) (old : List Nat) :
    Counted rackOf old (rackStats rackOf old) := by
  have hempty : Counted rackOf [] ([] : List (RackStat ρ)) := ⟨.nil, nofun, nofun⟩
  exact counted_foldl old [] [] hempty

omit [DecidableEq ρ] in
/-- The loop ends with a rack of three replicas or more, if there is one. -/
theorem drawLoop_spec (rand : Nat → Nat) (stats : List (RackStat ρ)) (rate : Nat)
    (stat : Option (RackStat ρ)) :
    (∀ x, drawLoop rand rate stats stat = some x → stat = some x ∨ x ∈ stats ∧ 2 ≤ x.count) ∧
    (drawLoop rand rate stats stat = none ↔ stat = none ∧ ∀ x ∈ stats, x.count < 2) := by
  induction stats generalizing rate stat with
  | nil => simp [drawLoop]
  | cons y stats ih =>
      rw [drawLoop]
      split
      next hy =>
        obtain ⟨hsome, hnone⟩ := ih (rate + 1)
          (if stat.isNone ∨ rand rate % rate = 0 then some y else stat)
        constructor
        · intro x hx
          rcases hsome x hx with hx | ⟨hmem, hcount⟩
          · split at hx
            next =>
              cases hx
              exact .inr ⟨.head _, hy⟩
            next => exact .inl hx
          · exact .inr ⟨.tail _ hmem, hcount⟩
        · rw [hnone]
          constructor
          · rintro ⟨hnone, _⟩
            split at hnone
            next => cases hnone
            next hno => simp [hnone] at hno
          · rintro ⟨_, hall⟩
            exact absurd hy (Nat.not_le.mpr (hall y (.head _)))
      next hy =>
        obtain ⟨hsome, hnone⟩ := ih rate stat
        constructor
        · intro x hx
          exact (hsome x hx).imp id fun ⟨hmem, hcount⟩ => ⟨.tail _ hmem, hcount⟩
        · rw [hnone]
          constructor
          · rintro ⟨hstat, hall⟩
            exact ⟨hstat, List.forall_mem_cons.mpr ⟨Nat.lt_of_not_le hy, hall⟩⟩
          · rintro ⟨hstat, hall⟩
            exact ⟨hstat, fun x hx => hall x (.tail _ hx)⟩

/-- The rack drawn has three replicas or more, and its count is one too low. -/
theorem drawRack_some {draws : Draws} {old : List Nat} {stat : RackStat ρ}
    (h : drawRack draws rackOf old = some stat) :
    2 ≤ stat.count ∧ stat.count + 1 = (onRack rackOf stat.rack old).length := by
  rcases (drawLoop_spec draws.rand (rackStats rackOf old) 1 none).1 stat h with hno | ⟨hmem, hcount⟩
  · cases hno
  · exact ⟨hcount, (counted_rackStats rackOf old).count stat hmem⟩

/-- No rack is drawn where none has more than two replicas. -/
theorem drawRack_none {draws : Draws} {old : List Nat} :
    drawRack draws rackOf old = none ↔
      ∀ server ∈ old, (onRack rackOf (rackOf server) old).length ≤ 2 := by
  have hcounted := counted_rackStats rackOf old
  rw [drawRack, (drawLoop_spec draws.rand (rackStats rackOf old) 1 none).2]
  constructor
  · rintro ⟨_, hall⟩ server hserver
    obtain ⟨stat, hstat, heq⟩ := List.mem_map.mp (hcounted.all server hserver)
    have hlt := hall stat hstat
    have hcount := hcounted.count stat hstat
    rw [heq] at hcount
    omega
  · refine fun hall => ⟨rfl, fun stat hstat => ?_⟩
    have hcount := hcounted.count stat hstat
    have hpos : 0 < (onRack rackOf stat.rack old).length := by omega
    obtain ⟨server, hserver⟩ := List.exists_mem_of_length_pos hpos
    obtain ⟨hmem, heq⟩ := List.mem_filter.mp hserver
    have hle := hall server hmem
    rw [of_decide_eq_true heq] at hle
    omega

end Racks

/-! ## What is left -/

section Left

variable {rackOf : Nat → ρ} {draws : Draws} {blockCount : Nat}

theorem filter_eraseLoop (p : Nat → Bool) (servers : List Nat) (rackCut cut : Int) :
    (eraseLoop p rackCut cut servers).filter p = (servers.filter p).drop rackCut.toNat ∧
    (eraseLoop p rackCut cut servers).filter (fun s => !p s) =
      (servers.filter fun s => !p s).drop cut.toNat := by
  induction servers generalizing rackCut cut with
  | nil => simp [eraseLoop]
  | cons server rest ih =>
      rw [eraseLoop]
      cases hp : p server with
      | true =>
          by_cases hcut : 0 < rackCut
          · obtain ⟨hon, hoff⟩ := ih (rackCut - 1) cut
            have hnat : rackCut.toNat = (rackCut - 1).toNat + 1 := by omega
            rw [hnat]
            simp [hp, hcut, hon, hoff]
          · obtain ⟨hon, hoff⟩ := ih rackCut cut
            have hnat : rackCut.toNat = 0 := by omega
            simpa [hp, hcut, hnat] using ⟨by simpa [hnat] using hon, hoff⟩
      | false =>
          by_cases hcut : 0 < cut
          · obtain ⟨hon, hoff⟩ := ih rackCut (cut - 1)
            have hnat : cut.toNat = (cut - 1).toNat + 1 := by omega
            rw [hnat]
            simp [hp, hcut, hon, hoff]
          · obtain ⟨hon, hoff⟩ := ih rackCut cut
            have hnat : cut.toNat = 0 := by omega
            simpa [hp, hcut, hnat] using ⟨hon, by simpa [hnat] using hoff⟩

/-- The servers that are left, in the shuffled order: the first ones, or the first three
on the rack drawn and the first of the others. -/
def firstOnes (blockCount : Nat) (draws : Draws) (rackOf : Nat → ρ) (old : List Nat) : List Nat :=
  match drawRack draws rackOf old with
  | none => (draws.shuffle old).take blockCount
  | some stat =>
      (onRack rackOf stat.rack (draws.shuffle old)).take 3 ++
        (offRack rackOf stat.rack (draws.shuffle old)).take (blockCount - 3)

theorem length_onRack_add_offRack (rackOf : Nat → ρ) (rack : ρ) (servers : List Nat) :
    (onRack rackOf rack servers).length + (offRack rackOf rack servers).length =
      servers.length := by
  rw [onRack, offRack, ← List.length_append]
  exact (List.filter_append_perm _ servers).length_eq

theorem length_onRack_shuffle (rackOf : Nat → ρ) (draws : Draws) (rack : ρ) (old : List Nat) :
    (onRack rackOf rack (draws.shuffle old)).length = (onRack rackOf rack old).length :=
  ((draws.perm old).filter _).length_eq

omit [DecidableEq ρ] in
theorem mem_drop_reverse {servers : List Nat} {i k : Nat}
    (h : (servers.take (servers.length - i)) = servers.take k) (server : Nat) :
    server ∈ servers.reverse.drop i ↔ server ∈ servers.take k := by
  rw [List.drop_reverse, List.mem_reverse, h]

/-- What `SelectUnnecessary` returns is what is left. -/
theorem mem_selectUnnecessary {old : List Nat} (h : blockCount < old.length) (server : Nat) :
    server ∈ selectUnnecessary blockCount draws rackOf old ↔
      server ∈ firstOnes blockCount draws rackOf old := by
  have hlen := (draws.perm old).length_eq
  rw [selectUnnecessary, selectSurplus, firstOnes]
  rw [if_neg (Nat.not_le.mpr h)]
  dsimp only
  cases hdraw : drawRack draws rackOf old with
  | none =>
      have hcut : (draws.shuffle old).length - (((draws.shuffle old).length : Int) -
          blockCount).toNat = blockCount := by omega
      simp only [hcut]
  | some stat =>
      obtain ⟨htwo, hcount⟩ := drawRack_some hdraw
      have hrack := length_onRack_shuffle rackOf draws stat.rack old
      have hsum := length_onRack_add_offRack rackOf stat.rack (draws.shuffle old)
      obtain ⟨hon, hoff⟩ := filter_eraseLoop (fun s => decide (rackOf s = stat.rack))
        (draws.shuffle old).reverse ((stat.count : Int) - 2)
        (((draws.shuffle old).length : Int) - blockCount - ((stat.count : Int) - 2))
      rw [List.filter_reverse] at hon hoff
      simp only [List.mem_reverse, List.mem_append]
      by_cases hserver : rackOf server = stat.rack
      · have hoff' :
            server ∉ (offRack rackOf stat.rack (draws.shuffle old)).take (blockCount - 3) :=
          fun hmem => by simpa [offRack, hserver] using List.mem_of_mem_take hmem
        have hkept : (onRack rackOf stat.rack (draws.shuffle old)).take
            ((onRack rackOf stat.rack (draws.shuffle old)).length -
              ((stat.count : Int) - 2).toNat) =
            (onRack rackOf stat.rack (draws.shuffle old)).take 3 := by
          congr 1
          omega
        rw [or_iff_left hoff', ← mem_drop_reverse hkept, onRack, ← hon, List.mem_filter]
        simp [hserver]
      · have hon' : server ∉ (onRack rackOf stat.rack (draws.shuffle old)).take 3 :=
          fun hmem => by simpa [onRack, hserver] using List.mem_of_mem_take hmem
        have hkept : (offRack rackOf stat.rack (draws.shuffle old)).take
            ((offRack rackOf stat.rack (draws.shuffle old)).length -
              (((draws.shuffle old).length : Int) - blockCount - ((stat.count : Int) - 2)).toNat) =
            (offRack rackOf stat.rack (draws.shuffle old)).take (blockCount - 3) := by
          rcases Nat.le_total (blockCount - 3)
              (offRack rackOf stat.rack (draws.shuffle old)).length with hle | hle
          · congr 1
            omega
          · rw [List.take_of_length_le hle, List.take_of_length_le]
            omega
        rw [or_iff_right hon', ← mem_drop_reverse hkept, offRack, ← hoff, List.mem_filter]
        simp [hserver]

theorem firstOnes_subset {old : List Nat} {server : Nat}
    (h : server ∈ firstOnes blockCount draws rackOf old) : server ∈ old := by
  rw [← (draws.perm old).mem_iff]
  rw [firstOnes] at h
  split at h
  next => exact List.mem_of_mem_take h
  next =>
    rcases List.mem_append.mp h with h | h
    · exact List.mem_of_mem_filter (List.mem_of_mem_take h)
    · exact List.mem_of_mem_filter (List.mem_of_mem_take h)

theorem firstOnes_nodup (blockCount : Nat) (draws : Draws) (rackOf : Nat → ρ) {old : List Nat}
    (h : old.Nodup) :
    (firstOnes blockCount draws rackOf old).Nodup := by
  have hshuffled : (draws.shuffle old).Nodup := (draws.perm old).nodup_iff.mpr h
  rw [firstOnes]
  split
  next => exact hshuffled.sublist (List.take_sublist _ _)
  next stat _ =>
    refine List.nodup_append.mpr ⟨(hshuffled.filter _).sublist (List.take_sublist _ _),
      (hshuffled.filter _).sublist (List.take_sublist _ _), fun x hx y hy heq => ?_⟩
    have hon := (List.mem_filter.mp (List.mem_of_mem_take hx)).2
    have hoff := (List.mem_filter.mp (List.mem_of_mem_take hy)).2
    rw [← heq] at hoff
    simp [hon] at hoff

/-- How many servers are left. -/
def leftCount (blockCount : Nat) (draws : Draws) (rackOf : Nat → ρ) (old : List Nat) : Nat :=
  match drawRack draws rackOf old with
  | none => blockCount
  | some stat => 3 + min (blockCount - 3) (offRack rackOf stat.rack old).length

theorem length_firstOnes {old : List Nat} (h : blockCount < old.length) :
    (firstOnes blockCount draws rackOf old).length = leftCount blockCount draws rackOf old := by
  have hlen := (draws.perm old).length_eq
  rw [firstOnes, leftCount]
  cases hdraw : drawRack draws rackOf old with
  | none =>
      simp only [List.length_take]
      omega
  | some stat =>
      obtain ⟨htwo, hcount⟩ := drawRack_some hdraw
      have hon := length_onRack_shuffle rackOf draws stat.rack old
      have hoff : (offRack rackOf stat.rack (draws.shuffle old)).length =
          (offRack rackOf stat.rack old).length := ((draws.perm old).filter _).length_eq
      simp only [List.length_append, List.length_take]
      omega

/-- Without the servers of a list of its own, so many of a list remain. -/
theorem length_filter_not_mem {all part : List Nat} (hall : all.Nodup) (hpart : part.Nodup)
    (hsub : ∀ x ∈ part, x ∈ all) :
    (all.filter fun x => decide (x ∉ part)).length + part.length = all.length := by
  have hperm : (all.filter fun x => decide (x ∈ part)).Perm part := by
    refine (List.perm_ext_iff_of_nodup (hall.filter _) hpart).mpr fun x => ?_
    rw [List.mem_filter, decide_eq_true_eq]
    exact ⟨And.right, fun hx => ⟨hsub x hx, hx⟩⟩
  have hsplit := (List.filter_append_perm (fun x => decide (x ∈ part)) all).length_eq
  rw [List.length_append, hperm.length_eq] at hsplit
  simp only [decide_not]
  omega

end Left

/-! ## `CheckReplica` -/

section Check

variable {cfg : Config} {b : Block} {useAble : Nat → Bool} {now : Nat}

/-- The servers of the replicas that are up to date, without a fault and usable. -/
def Block.healthyServers (b : Block) (useAble : Nat → Bool) : List Nat :=
  (b.chunkServer.filter (b.healthy useAble)).map Replica.server

/-- The servers of the others. -/
def Block.staleServers (b : Block) (useAble : Nat → Bool) : List Nat :=
  (b.chunkServer.filter (!b.healthy useAble ·)).map Replica.server

/-- The healthy replicas whose servers are not told to clean the block. -/
def Block.spared (b : Block) (useAble : Nat → Bool) (notices : List Notice) : List Replica :=
  b.chunkServer.filter fun r =>
    b.healthy useAble r && !decide (Notice.cleanBlock r.server ∈ notices)

/-- At least as many healthy replicas stay as are wanted, or as there were. -/
def Block.KeepsGood (cfg : Config) (b : Block) (useAble : Nat → Bool) (notices : List Notice) :
    Prop :=
  min cfg.blockCount (b.chunkServer.filter (b.healthy useAble)).length ≤
    (b.spared useAble notices).length

/-- `CheckReplica` returns before it looks at the replicas. -/
def Block.Rests (cfg : Config) (b : Block) (useAble : Nat → Bool) (now : Nat) : Prop :=
  b.recoverLease > now ∨
    ∀ main, (b.findMainReplica useAble now).bind (b.chunkServer[·]?) = some main →
      now < main.leaseTick + cfg.recoverAndWriteInterval

theorem Block.checkReplica_of_rests (h : b.Rests cfg useAble now)
    (distribute : List Nat → List Nat → List Nat) (select : List Nat → List Nat) :
    b.checkReplica cfg useAble distribute select now = (b, []) := by
  rw [Block.checkReplica]
  split
  next => rfl
  next hlease =>
    split
    next => rfl
    next main hmain =>
      rcases h with h | h
      · exact absurd h hlease
      · rw [if_pos (h main hmain)]

/-- Else the servers of stale replicas are told to clean the block, and of too many
healthy ones those selected. -/
theorem Block.mem_checkReplica (h : ¬ b.Rests cfg useAble now)
    (distribute : List Nat → List Nat → List Nat) (select : List Nat → List Nat) (server : Nat) :
    Notice.cleanBlock server ∈ (b.checkReplica cfg useAble distribute select now).2 ↔
      server ∈ b.staleServers useAble ∨
        (cfg.blockCount < (b.healthyServers useAble).length ∧
          server ∈ b.chunkServer.map Replica.server ∧
          server ∈ select (b.healthyServers useAble)) := by
  simp only [Block.Rests, not_or, not_forall] at h
  obtain ⟨hlease, main, hmain, hinterval⟩ := h
  have hhas : (b.chunkServer.filter (b.healthy useAble)).map Replica.server =
      b.healthyServers useAble := rfl
  have hstale : (b.chunkServer.filter (!b.healthy useAble ·)).map Replica.server =
      b.staleServers useAble := rfl
  have hclean : Notice.cleanBlock server ∈ (b.staleServers useAble).map Notice.cleanBlock ↔
      server ∈ b.staleServers useAble := by
    simp
  rw [Block.checkReplica]
  rw [if_neg hlease]
  simp only [hmain, gt_iff_lt, if_neg hinterval, hhas, hstale]
  split
  next hfew =>
    have hno : ¬ cfg.blockCount < (b.healthyServers useAble).length :=
      Nat.not_lt.mpr (Nat.le_of_lt hfew)
    split <;> simp [hno]
  next =>
    split
    next hmany =>
      rw [List.mem_append, hclean]
      simp [hmany]
    next hno => simp [hno]

/-- `CheckReplica` with the policy of `SelectUnnecessary`. -/
def Block.trim (cfg : Config) (b : Block) (useAble : Nat → Bool)
    (distribute : List Nat → List Nat → List Nat) (draws : Draws) (rackOf : Nat → ρ) (now : Nat) :
    Block × List Notice :=
  b.checkReplica cfg useAble distribute (selectUnnecessary cfg.blockCount draws rackOf) now

/-- The healthy servers that stay: no replica on them is stale, and they are not among
the ones that were to be kept. -/
def Block.staying (cfg : Config) (b : Block) (useAble : Nat → Bool) (draws : Draws)
    (rackOf : Nat → ρ) : List Nat :=
  (b.healthyServers useAble).filter fun server =>
    decide (server ∉ b.staleServers useAble ∧
      (cfg.blockCount < (b.healthyServers useAble).length →
        server ∉ firstOnes cfg.blockCount draws rackOf (b.healthyServers useAble)))

/-- `CheckReplica` returns at once; or no more replicas are healthy than wanted; or there
are enough beyond those that are left over from the selection.  Where a server is listed
twice, that is counted. -/
def Block.TrimsFew (cfg : Config) (b : Block) (useAble : Nat → Bool) (draws : Draws)
    (rackOf : Nat → ρ) (now : Nat) : Prop :=
  b.Rests cfg useAble now ∨
    if (b.chunkServer.map Replica.server).Nodup then
      (b.healthyServers useAble).length ≤ cfg.blockCount ∨
        cfg.blockCount + leftCount cfg.blockCount draws rackOf (b.healthyServers useAble) ≤
          (b.healthyServers useAble).length
    else
      min cfg.blockCount (b.healthyServers useAble).length ≤
        (b.staying cfg useAble draws rackOf).length

theorem Block.mem_healthyServers {server : Nat} :
    server ∈ b.healthyServers useAble ↔
      ∃ r ∈ b.chunkServer, b.healthy useAble r = true ∧ r.server = server := by
  simp only [Block.healthyServers, List.mem_map, List.mem_filter, and_assoc]

theorem Block.not_mem_trim {draws : Draws} {rackOf : Nat → ρ} (h : ¬ b.Rests cfg useAble now)
    (distribute : List Nat → List Nat → List Nat) {r : Replica} (hr : r ∈ b.chunkServer) :
    Notice.cleanBlock r.server ∉ (b.trim cfg useAble distribute draws rackOf now).2 ↔
      r.server ∉ b.staleServers useAble ∧
        (cfg.blockCount < (b.healthyServers useAble).length →
          r.server ∉ firstOnes cfg.blockCount draws rackOf (b.healthyServers useAble)) := by
  have hserver : r.server ∈ b.chunkServer.map Replica.server := List.mem_map_of_mem hr
  rw [Block.trim, Block.mem_checkReplica h, not_or]
  refine and_congr_right fun _ => ?_
  constructor
  · intro hno hmany hfirst
    exact hno ⟨hmany, hserver, (mem_selectUnnecessary hmany r.server).mpr hfirst⟩
  · rintro hno ⟨hmany, _, hselect⟩
    exact hno hmany ((mem_selectUnnecessary hmany r.server).mp hselect)

theorem Block.length_spared {draws : Draws} {rackOf : Nat → ρ} (h : ¬ b.Rests cfg useAble now)
    (distribute : List Nat → List Nat → List Nat) :
    (b.spared useAble (b.trim cfg useAble distribute draws rackOf now).2).length =
      (b.staying cfg useAble draws rackOf).length := by
  rw [Block.spared, Block.staying, Block.healthyServers, List.filter_map, List.length_map,
    List.filter_filter]
  congr 1
  refine List.filter_congr fun r hr => ?_
  rw [Bool.and_comm, ← decide_not, decide_eq_decide.mpr (Block.not_mem_trim h distribute hr)]
  rfl

/-- Where no server is listed twice, a healthy one has no stale replica. -/
theorem Block.not_mem_staleServers (h : (b.chunkServer.map Replica.server).Nodup) {server : Nat}
    (hserver : server ∈ b.healthyServers useAble) : server ∉ b.staleServers useAble := by
  intro hstale
  obtain ⟨r, hr, hhealthy, rfl⟩ := Block.mem_healthyServers.mp hserver
  obtain ⟨x, hx, heq⟩ := List.mem_map.mp hstale
  obtain ⟨hx, hunhealthy⟩ := List.mem_filter.mp hx
  have hxr : x = r := List.inj_on_of_nodup_map h hx hr heq
  subst hxr
  simp [hhealthy] at hunhealthy

/-- Then all healthy ones stay, or all but the ones selected. -/
theorem Block.length_staying (cfg : Config) (useAble : Nat → Bool) (draws : Draws)
    (rackOf : Nat → ρ) (h : (b.chunkServer.map Replica.server).Nodup) :
    (b.staying cfg useAble draws rackOf).length +
        (if cfg.blockCount < (b.healthyServers useAble).length then
          leftCount cfg.blockCount draws rackOf (b.healthyServers useAble) else 0) =
      (b.healthyServers useAble).length := by
  have hnodup : (b.healthyServers useAble).Nodup :=
    h.sublist (List.filter_sublist.map _)
  have hstale : ∀ server ∈ b.healthyServers useAble, server ∉ b.staleServers useAble :=
    fun _ => Block.not_mem_staleServers h
  by_cases hmany : cfg.blockCount < (b.healthyServers useAble).length
  · have hrest := length_filter_not_mem hnodup (firstOnes_nodup cfg.blockCount draws rackOf
      hnodup) fun _ => firstOnes_subset
    rw [length_firstOnes hmany] at hrest
    rw [if_pos hmany, ← hrest, Block.staying]
    congr 2
    refine List.filter_congr fun server hserver => ?_
    simp [hmany, hstale server hserver]
  · have hall : b.staying cfg useAble draws rackOf = b.healthyServers useAble :=
      List.filter_eq_self.mpr fun server hserver => by simp [hmany, hstale server hserver]
    rw [if_neg hmany, hall, Nat.add_zero]

end Check

/-- Enough good copies stay exactly where `CheckReplica` trims few. -/
theorem check_replica_keeps_iff (cfg : Config) (b : Block) (useAble : Nat → Bool)
    (distribute : List Nat → List Nat → List Nat) (draws : Draws) (rackOf : Nat → ρ) (now : Nat) :
    b.KeepsGood cfg useAble (b.trim cfg useAble distribute draws rackOf now).2 ↔
      b.TrimsFew cfg useAble draws rackOf now := by
  have hlen : (b.chunkServer.filter (b.healthy useAble)).length =
      (b.healthyServers useAble).length := (List.length_map _).symm
  rw [Block.TrimsFew]
  by_cases hrests : b.Rests cfg useAble now
  · refine iff_of_true ?_ (.inl hrests)
    rw [Block.KeepsGood, Block.trim, Block.checkReplica_of_rests hrests]
    simp [Block.spared]
  · rw [or_iff_right hrests, Block.KeepsGood, Block.length_spared hrests, hlen]
    split
    next hnodup =>
      have hstaying := Block.length_staying cfg useAble draws rackOf hnodup
      split at hstaying <;> omega
    next => exact Iff.rfl

/-- A block with four good copies, on racks of their own, where three are wanted. -/
def fourCopies : Block :=
  { id := 7, chunkServer := [{ server := 1 }, { server := 2 }, { server := 3 }, { server := 4 }] }

/-- Draws that leave the order as it is. -/
def inOrder : Draws := ⟨fun _ => 0, id, fun _ => .refl _⟩

def threeWanted : Config :=
  { blockCount := 3, writeLease := 60000, recoverLease := 60000, recoverAndWriteInterval := 60000 }

/-- Three of the four good copies are cleaned. -/
theorem surplus_cleans_the_rest :
    ¬ ∀ (cfg : Config) (b : Block) (useAble : Nat → Bool)
      (distribute : List Nat → List Nat → List Nat) (draws : Draws) (rackOf : Nat → Nat)
      (now : Nat),
      b.KeepsGood cfg useAble (b.trim cfg useAble distribute draws rackOf now).2 := by
  intro h
  have hkeeps := h threeWanted fourCopies (fun _ => true) (fun _ _ => []) inOrder id 100000
  rw [Block.KeepsGood] at hkeeps
  exact absurd hkeeps (by decide)

end Ofs.Master
