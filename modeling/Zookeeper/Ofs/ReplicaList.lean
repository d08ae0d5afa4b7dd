import Zookeeper.RemoveIf
import Zookeeper.Ofs.Placement
import Zookeeper.Ofs.LeaseVersion

/-!
# The replica list of a block

Five functions work on `_chunkServer`.  `Write` fills an empty list, `ReportReplica` and
`CheckReplica` add to it, `UpdateReplica` looks a server up, and `ClearReplica` is there to
take one out.  It calls `std::remove_if` and drops the result: nothing is erased, the
servers behind the cleared one move up, and the last of them is there twice.

`replicas_distinct` is about runs in which each server cleared has no replica, or the last
one: there the servers of the list stay distinct.  Clearing does what it is for only where
there is nothing to clear.  `cleared_first` is a run of three calls that leaves a server
twice.
-/

namespace Ofs.Master

open RemoveIf Transition

/-- `Block::ClearReplica`. -/
def Block.clearReplica (b : Block) (server : Nat) : Block :=
  { b with chunkServer := removeIf (fun r => r.server == server) b.chunkServer }

/-- The servers of the replicas, in order. -/
def Block.servers (b : Block) : List Nat := b.chunkServer.map Replica.server

/-- `ClearReplica` takes the server's replica out and leaves the others as they are. -/
def Block.Clears (b : Block) (server : Nat) : Prop :=
  (b.clearReplica server).chunkServer = b.chunkServer.filter (!·.server == server)

/-! ## Runs -/

/-- What a call finds outside the block: the configuration, the cluster with the state of
its servers, what `rand` will return, and what `SelectUnnecessary` picks. -/
structure Surroundings where
  cfg : Config
  cluster : DataCluster
  useAble : Nat → Bool
  rand : Nat → Nat
  selectUnnecessary : List Nat → List Nat
  now : Nat

/-- `DataNodeService::Distribute`. -/
def Surroundings.distribute (e : Surroundings) (old except : List Nat) : List Nat :=
  e.cluster.distribute e.useAble e.rand old except (Int32.ofNat e.cfg.blockCount)

/-- A call of one of the five functions. -/
inductive BlockCall where
  | write (e : Surroundings)
  | updateReplica (server : Nat) (version : Int64) (size : Int) (fault : Bool)
  | reportReplica (server : Nat) (version : Int64) (size : Int) (fault : Bool)
  | clearReplica (server : Nat)
  | checkReplica (e : Surroundings)

/-- The block after a call. -/
def Block.call (b : Block) : BlockCall → Block
  | .write e => (b.write e.cfg e.useAble (e.distribute [] []) e.now).1
  | .updateReplica server version size fault => (b.updateReplica server version size fault).1
  | .reportReplica server version size fault => (b.reportReplica server version size fault).1
  | .clearReplica server => b.clearReplica server
  | .checkReplica e =>
      (b.checkReplica e.cfg e.useAble e.distribute e.selectUnnecessary e.now).1

/-- A block as it is made, and the calls on it. -/
def replicaSystem : System Block BlockCall :=
  ofStep (fun b => ∃ id, b = { id := id }) fun b a => some (b.call a)

/-- A server to be cleared has no replica in front of the last one. -/
def Block.Harmless (b : Block) : BlockCall → Prop
  | .clearReplica server => server ∉ b.servers.dropLast
  | _ => True

instance (b : Block) : DecidablePred b.Harmless
  | .clearReplica server => inferInstanceAs (Decidable (server ∉ b.servers.dropLast))
  | .write _ => isTrue trivial
  | .updateReplica .. => isTrue trivial
  | .reportReplica .. => isTrue trivial
  | .checkReplica _ => isTrue trivial

/-! ## What a call does to the servers -/

theorem Block.note_chunkServer (b : Block) (i : Nat) (version : Int64) (size : Int)
    (fault : Bool) :
    (b.note i version size fault).1.chunkServer =
      b.chunkServer.modify i fun r => { r with version := version, fault := fault } := by
  rw [Block.note]
  dsimp only
  split
  next => rfl
  next => split <;> split <;> split <;> rfl

/-- Replicas changed in place stay with their servers. -/
@[simp] theorem Block.servers_note (b : Block) (i : Nat) (version : Int64) (size : Int)
    (fault : Bool) : (b.note i version size fault).1.servers = b.servers := by
  rw [Block.servers, Block.servers, Block.note_chunkServer]
  refine List.ext_getElem? fun j => ?_
  rw [List.getElem?_map, List.getElem?_map, List.getElem?_modify]
  cases b.chunkServer[j]? with
  | none => rfl
  | some r => split <;> rfl

theorem Block.servers_grant {b : Block} {i : Nat} {r : Replica} (tick : Nat)
    (h : b.chunkServer[i]? = some r) : (b.grant i r tick).servers = b.servers := by
  obtain ⟨hi, rfl⟩ := List.getElem?_eq_some_iff.mp h
  have hlt : i < (b.chunkServer.map Replica.server).length := by simpa using hi
  have hget : (b.chunkServer.map Replica.server)[i] = b.chunkServer[i].server :=
    List.getElem_map ..
  rw [Block.servers, Block.servers, Block.grant, List.map_set, ← hget]
  exact List.set_getElem_self _

/-- A server without a position has no replica. -/
theorem Block.position_eq_none {b : Block} {server : Nat} (h : b.position server = none) :
    server ∉ b.servers := by
  rw [Block.position, List.findIdx?_eq_none_iff] at h
  intro hs
  obtain ⟨r, hr, rfl⟩ := List.mem_map.mp hs
  simpa using h r hr

theorem servers_append (rs : List Replica) (servers : List Nat) :
    (rs ++ servers.map fun s => ({ server := s } : Replica)).map Replica.server =
      rs.map Replica.server ++ servers := by
  rw [List.map_append, List.map_map]
  exact congrArg _ (List.map_id servers)

/-- `Write` leaves the servers, or fills an empty list. -/
theorem Block.servers_write (cfg : Config) (b : Block) (useAble : Nat → Bool) (ds : List Nat)
    (now : Nat) :
    (b.write cfg useAble ds now).1.servers = b.servers ∨
      b.chunkServer = [] ∧ (b.write cfg useAble ds now).1.servers = ds := by
  have hwrite : (b.write cfg useAble ds now).1.servers = (b.place ds).servers := by
    rw [Block.write_eq]
    split
    next i main hg =>
      refine Block.servers_grant _ ?_
      simp only [Block.grantsTo, Option.bind_eq_some_iff] at hg
      obtain ⟨j, _, r, hr, hle⟩ := hg
      split at hle
      next =>
        simp only [Option.some.injEq, Prod.mk.injEq] at hle
        obtain ⟨rfl, rfl⟩ := hle
        exact hr
      next => cases hle
    next => rfl
  rw [hwrite, Block.place]
  split
  next hempty => exact .inr ⟨hempty, servers_append [] ds⟩
  next => exact .inl rfl

/-- `ReportReplica` leaves the servers, or adds one that has no replica. -/
theorem Block.servers_reportReplica (b : Block) (server : Nat) (version : Int64) (size : Int)
    (fault : Bool) :
    (b.reportReplica server version size fault).1.servers = b.servers ∨
      server ∉ b.servers ∧
        (b.reportReplica server version size fault).1.servers = b.servers ++ [server] := by
  rw [Block.reportReplica]
  split
  next => exact .inl (Block.servers_note ..)
  next hnone =>
    refine .inr ⟨Block.position_eq_none hnone, ?_⟩
    rw [Block.servers_note]
    exact servers_append b.chunkServer [server]

theorem Block.servers_updateReplica (b : Block) (server : Nat) (version : Int64) (size : Int)
    (fault : Bool) : (b.updateReplica server version size fault).1.servers = b.servers := by
  rw [Block.updateReplica]
  split
  next => exact Block.servers_note ..
  next => rfl

/-- `CheckReplica` leaves the servers, or adds what is distributed for the ones it has. -/
theorem Block.servers_checkReplica (cfg : Config) (b : Block) (useAble : Nat → Bool)
    (distribute : List Nat → List Nat → List Nat) (select : List Nat → List Nat) (now : Nat) :
    (b.checkReplica cfg useAble distribute select now).1.servers = b.servers ∨
      (b.checkReplica cfg useAble distribute select now).1.servers = b.servers ++
        distribute ((b.chunkServer.filter (b.healthy useAble)).map Replica.server)
          ((b.chunkServer.filter (!b.healthy useAble ·)).map Replica.server) := by
  rw [Block.checkReplica]
  split
  next => exact .inl rfl
  next =>
    split
    next => exact .inl rfl
    next =>
      split
      next => exact .inl rfl
      next =>
        dsimp only
        split
        next =>
          split
          next => exact .inl rfl
          next => exact .inr (servers_append b.chunkServer _)
        next => split <;> exact .inl rfl

/-- Every server of the block is one that counts or one to be left out. -/
theorem Block.healthy_or_stale (b : Block) (useAble : Nat → Bool) {server : Nat}
    (h : server ∈ b.servers) :
    server ∈ (b.chunkServer.filter (b.healthy useAble)).map Replica.server ∨
      server ∈ (b.chunkServer.filter (!b.healthy useAble ·)).map Replica.server := by
  obtain ⟨r, hr, rfl⟩ := List.mem_map.mp h
  cases hh : b.healthy useAble r with
  | true => exact .inl (List.mem_map_of_mem (List.mem_filter.mpr ⟨hr, hh⟩))
  | false => exact .inr (List.mem_map_of_mem (List.mem_filter.mpr ⟨hr, by rw [hh, Bool.not_false]⟩))

/-! ## Distinct servers -/

theorem Block.nodup_clearReplica {b : Block} (h : b.servers.Nodup) (server : Nat) :
    (b.clearReplica server).servers.Nodup ↔ server ∉ b.servers.dropLast :=
  nodup_removeIf_iff h

/-- Clearing does what it is for just where there is nothing to clear. -/
theorem Block.clears_iff (b : Block) (server : Nat) :
    b.Clears server ↔ server ∉ b.servers := by
  rw [Block.Clears, Block.clearReplica, removeIf_eq_filter_iff, Block.servers, List.mem_map]
  simp

theorem Surroundings.distribute_fresh (e : Surroundings) (old except : List Nat) :
    (e.distribute old except).Nodup ∧
      ∀ s ∈ e.distribute old except, s ∉ old ∧ s ∉ except := by
  have h : (e.distribute old except).Nodup ∧
      ∀ s ∈ e.distribute old except, s ∉ old ∧ s ∉ except ∧ e.useAble s = true :=
    e.cluster.distribute_fresh e.rand (Int32.ofNat e.cfg.blockCount)
  exact ⟨h.1, fun s hs => ⟨(h.2 s hs).1, (h.2 s hs).2.1⟩⟩

/-- A call keeps the servers distinct, unless it clears one in front of the last. -/
theorem Block.nodup_call {b : Block} (h : b.servers.Nodup) {a : BlockCall} (ha : b.Harmless a) :
    (b.call a).servers.Nodup := by
  cases a with
  | write e =>
      cases Block.servers_write e.cfg b e.useAble (e.distribute [] []) e.now with
      | inl heq =>
          rw [Block.call, heq]
          exact h
      | inr heq =>
          rw [Block.call, heq.2]
          exact (e.distribute_fresh [] []).1
  | updateReplica server version size fault =>
      rw [Block.call, Block.servers_updateReplica]
      exact h
  | reportReplica server version size fault =>
      cases b.servers_reportReplica server version size fault with
      | inl heq =>
          rw [Block.call, heq]
          exact h
      | inr heq =>
          rw [Block.call, heq.2]
          exact List.nodup_append'.mpr
            ⟨h, List.nodup_singleton _, List.disjoint_singleton.mpr heq.1⟩
  | clearReplica server => exact (Block.nodup_clearReplica h server).mpr ha
  | checkReplica e =>
      cases b.servers_checkReplica e.cfg e.useAble e.distribute e.selectUnnecessary e.now with
      | inl heq =>
          rw [Block.call, heq]
          exact h
      | inr heq =>
          -- the servers of the list are those passed over: as `old` or as `except`
          have hfresh := e.distribute_fresh
            ((b.chunkServer.filter (b.healthy e.useAble)).map Replica.server)
            ((b.chunkServer.filter (!b.healthy e.useAble ·)).map Replica.server)
          rw [Block.call, heq]
          refine List.nodup_append'.mpr ⟨h, hfresh.1, fun s hs hnew => ?_⟩
          obtain ⟨hold, hex⟩ := hfresh.2 s hnew
          exact (b.healthy_or_stale e.useAble hs).elim hold hex

/-- In runs that clear no server in front of the last one the servers are distinct.  The
next clearing does what it is for only if the server is not there, and leaves the servers
distinct only if it is not there or the last one. -/
theorem replicas_distinct {b : Block} (hr : replicaSystem.Run Block.Harmless b) :
    b.servers.Nodup ∧ ∀ server, (b.Clears server ↔ server ∉ b.servers) ∧
      ((b.clearReplica server).servers.Nodup ↔ server ∉ b.servers.dropLast) := by
  have hnodup : b.servers.Nodup := by
    refine hr.invariant (I := fun b => b.servers.Nodup) ?_ ?_
    · rintro s ⟨id, rfl⟩
      exact List.nodup_nil
    · intro s a s' hs ha hstep
      cases hstep
      exact Block.nodup_call hs ha
  exact ⟨hnodup, fun server => ⟨b.clears_iff server, Block.nodup_clearReplica hnodup server⟩⟩

/-- Two servers report a block. -/
def twoReports : List BlockCall := [.reportReplica 1 1 0 false, .reportReplica 2 1 0 false]

/-- The second of them is cleared. -/
theorem replicas_distinct_lastCleared :
    ∃ b, exec (fun (b : Block) a => some (b.call a)) { id := 7 }
        (twoReports ++ [.clearReplica 2]) = some b ∧
      b.servers.Nodup ∧ ∀ server, (b.Clears server ↔ server ∉ b.servers) ∧
        ((b.clearReplica server).servers.Nodup ↔ server ∉ b.servers.dropLast) := by
  have hg : Guarded (fun (b : Block) a => some (b.call a)) Block.Harmless { id := 7 }
      (twoReports ++ [.clearReplica 2]) := by decide
  exact ⟨_, rfl, replicas_distinct (exec_run (.start ⟨7, rfl⟩) hg rfl)⟩

/-- Clearing the first one does not take it out as it should, and leaves the second one
twice. -/
theorem cleared_first :
    ∃ b, replicaSystem.Reachable b ∧ ¬ b.Clears 1 ∧
      replicaSystem.Reachable (b.clearReplica 1) ∧ (b.clearReplica 1).servers = [2, 2] ∧
      ¬ (b.clearReplica 1).servers.Nodup := by
  have hr : replicaSystem.Reachable ((Block.call { id := 7 } (.reportReplica 1 1 0 false)).call
      (.reportReplica 2 1 0 false)) :=
    .next (.next (.start ⟨7, rfl⟩) trivial rfl) trivial rfl
  refine ⟨_, hr, ?_, .next (a := .clearReplica 1) hr trivial rfl, by decide, by decide⟩
  rw [Block.clears_iff]
  decide

end Ofs.Master
