import Zookeeper.Ofs.SettledSizes

/-!
# The order of reports

When the master starts it has files but no blocks.  The chunk servers report what they have
(`DataNode.cpp`), and each report is handled in a coroutine of its own, between those of other
servers (`OnReport`).

What a block is behind some reports does not depend on their order, nor on how often each came,
as long as the reports of one server about one block agree (`Shows`).  So two masters that have
heard the same reports, and have handled them, have the same blocks: this is `reports_settle`.
Their replicas may be listed in another order.
-/

namespace Ofs.Master

open Transition FileSystem

/-! ## What a block is told -/

section Greatest

variable {α : Type} [LE α] [LT α] [Std.IsLinearOrder α] [Std.LawfulOrderLT α] [DecidableLT α]

/-- A greater value takes the place of the greatest one. -/
theorem isGreatest_raise {values : Set α} {old : α} (h : IsGreatest values old) (value : α) :
    IsGreatest (insert value values) (if old < value then value else old) := by
  split
  next hlt =>
    refine ⟨Set.mem_insert _ _, ?_⟩
    rintro other (rfl | hmem)
    · exact Std.le_refl other
    · exact Std.le_trans (h.2 hmem) (Std.le_of_lt hlt)
  next hnot =>
    refine ⟨Set.mem_insert_of_mem _ h.1, ?_⟩
    rintro other (rfl | hmem)
    · exact Std.not_lt.1 hnot
    · exact h.2 hmem

omit [LT α] [Std.LawfulOrderLT α] [DecidableLT α] in
theorem isGreatest_unique {values : Set α} {x y : α} (hx : IsGreatest values x)
    (hy : IsGreatest values y) : x = y :=
  Std.le_antisymm (hy.2 hx.1) (hx.2 hy.1)

end Greatest

/-- Zero, and what the reports without a fault give. -/
def given {α : Type} [Zero α] (value : BlockStatus → α) (told : Set (Nat × BlockStatus)) : Set α :=
  insert 0 {v | ∃ r ∈ told, r.2.fault = false ∧ v = value r.2}

theorem given_insert {α : Type} [Zero α] (value : BlockStatus → α)
    (told : Set (Nat × BlockStatus)) (r : Nat × BlockStatus) :
    given value (insert r told) =
      if r.2.fault then given value told else insert (value r.2) (given value told) := by
  ext v
  cases hfault : r.2.fault with
  | true => simp [given, hfault]
  | false => simp [given, hfault]; tauto

/-- The replica that a report makes. -/
def BlockStatus.replica (server : Nat) (info : BlockStatus) : Replica :=
  { server := server, version := info.version, fault := info.fault }

/-- The block has a replica for each server that reported it, and the greatest version and size
that it was told of. -/
structure Block.Shows (b : Block) (told : Set (Nat × BlockStatus)) : Prop where
  distinct : b.servers.Nodup
  replicas : ∀ r, r ∈ b.chunkServer ↔ ∃ report ∈ told, r = report.2.replica report.1
  version : IsGreatest (given BlockStatus.version told) b.version
  expectVersion : IsGreatest (given BlockStatus.version told) b.expectVersion
  size : IsGreatest (given BlockStatus.size told) b.size
  lease : b.lease = 0
  recoverLease : b.recoverLease = 0

/-- The reports of one server about one block say the same. -/
def Agree (heard : Set (Nat × BlockStatus)) : Prop :=
  ∀ server info info', (server, info) ∈ heard → (server, info') ∈ heard → info.id = info'.id →
    info = info'

/-- The same but for the order of the replicas. -/
structure Block.Same (b b' : Block) : Prop where
  fields : { b with chunkServer := [] } = { b' with chunkServer := [] }
  chunkServer : b.chunkServer.Perm b'.chunkServer

theorem Block.Same.size_eq {b b' : Block} (h : b.Same b') : b.size = b'.size := by
  have hfields := congrArg Block.size h.fields
  exact hfields

/-- A block shows no more than which reports there were. -/
theorem Block.Shows.same {b b' : Block} {told : Set (Nat × BlockStatus)} (h : b.Shows told)
    (h' : b'.Shows told) (hid : b.id = b'.id) : b.Same b' where
  fields := by
    have hversion := isGreatest_unique h.version h'.version
    have hexpect := isGreatest_unique h.expectVersion h'.expectVersion
    have hsize := isGreatest_unique h.size h'.size
    have hlease := h.lease.trans h'.lease.symm
    have hrecover := h.recoverLease.trans h'.recoverLease.symm
    cases b
    cases b'
    simp_all
  chunkServer := by
    refine (List.perm_ext_iff_of_nodup h.distinct.of_map h'.distinct.of_map).2 fun r => ?_
    rw [h.replicas, h'.replicas]

theorem isGreatest_given_empty {α : Type} [Zero α] [LE α] [Std.IsLinearOrder α]
    (value : BlockStatus → α) : IsGreatest (given value ∅) 0 := by
  have hempty : given value ∅ = {0} := by simp [given]
  rw [hempty]
  refine ⟨rfl, ?_⟩
  rintro v rfl
  exact Std.le_refl _

theorem Block.shows_new (id : Int64) : ({ id := id } : Block).Shows ∅ where
  distinct := List.nodup_nil
  replicas r := by simp
  version := isGreatest_given_empty _
  expectVersion := isGreatest_given_empty _
  size := isGreatest_given_empty _
  lease := rfl
  recoverLease := rfl

/-- What a report does to the block, whether it is a first one or not. -/
theorem Block.note_eq (b : Block) (i : Nat) (version : Int64) (size : Int) (fault : Bool) :
    (b.note i version size fault).1 =
      { b with
        chunkServer := b.chunkServer.modify i fun r => { r with version := version, fault := fault }
        version := if fault then b.version else if b.version < version then version else b.version
        expectVersion :=
          if fault then b.expectVersion
          else if b.expectVersion < version then version else b.expectVersion
        size := if fault then b.size else if b.size < size then size else b.size } := by
  rw [Block.note]
  dsimp only
  cases fault with
  | true => rfl
  | false => simp only [Bool.false_eq_true, if_false]; split <;> split <;> split <;> rfl

/-- The replicas of a block that is told of by a server. -/
theorem Block.Shows.chunkServer_report {b : Block} {told : Set (Nat × BlockStatus)}
    (h : b.Shows told) {server : Nat} {info : BlockStatus}
    (hagree : ∀ other, (server, other) ∈ told → other = info) :
    (server, info) ∈ told ∧
        (b.reportReplica server info.version info.size info.fault).1.chunkServer = b.chunkServer ∨
      server ∉ b.servers ∧
        (b.reportReplica server info.version info.size info.fault).1.chunkServer =
          b.chunkServer ++ [info.replica server] := by
  rw [Block.reportReplica]
  cases hpos : b.position server with
  | some i =>
      refine .inl ?_
      obtain ⟨hi, hserver, -⟩ := List.findIdx?_eq_some_iff_getElem.1 hpos
      obtain ⟨⟨server', info'⟩, htold, hreplica⟩ := (h.replicas _).1 (List.getElem_mem hi)
      have heq : server' = server := by
        simpa [hreplica, BlockStatus.replica] using hserver
      subst heq
      obtain rfl := hagree info' htold
      refine ⟨htold, ?_⟩
      -- the replica is as it would be made
      show (b.note i info'.version info'.size info'.fault).1.chunkServer = b.chunkServer
      rw [Block.note_chunkServer]
      refine List.ext_getElem? fun j => ?_
      rw [List.getElem?_modify]
      by_cases hj : i = j
      · subst hj
        simp [List.getElem?_eq_getElem hi, hreplica, BlockStatus.replica]
      · simp [hj]
  | none =>
      refine .inr ⟨Block.position_eq_none hpos, ?_⟩
      show (Block.note _ _ _ _ _).1.chunkServer = _
      rw [Block.note_chunkServer]
      refine List.ext_getElem? fun j => ?_
      rw [List.getElem?_modify]
      rcases Nat.lt_trichotomy j b.chunkServer.length with hlt | rfl | hgt
      · simp [List.getElem?_append_left hlt, hlt.ne']
      · simp [BlockStatus.replica]
      · simp [List.getElem?_append_right hgt.le, hgt.ne, (Nat.sub_pos_of_lt hgt).ne']

/-- What a report does to the other fields. -/
theorem Block.reportReplica_fields (b : Block) (server : Nat) (version : Int64) (size : Int)
    (fault : Bool) :
    { (b.reportReplica server version size fault).1 with chunkServer := [] } =
      { b with
        chunkServer := []
        version := if fault then b.version else if b.version < version then version else b.version
        expectVersion :=
          if fault then b.expectVersion
          else if b.expectVersion < version then version else b.expectVersion
        size := if fault then b.size else if b.size < size then size else b.size } := by
  rw [Block.reportReplica]
  split <;> rw [Block.note_eq]

theorem isGreatest_given_insert {α : Type} [Zero α] [LE α] [LT α] [Std.IsLinearOrder α]
    [Std.LawfulOrderLT α] [DecidableLT α] {value : BlockStatus → α}
    {told : Set (Nat × BlockStatus)} {old : α} (h : IsGreatest (given value told) old)
    (r : Nat × BlockStatus) :
    IsGreatest (given value (insert r told))
      (if r.2.fault then old else if old < value r.2 then value r.2 else old) := by
  rw [given_insert]
  cases r.2.fault with
  | true => exact h
  | false => exact isGreatest_raise h _

/-- A block that is told of by a report shows it. -/
theorem Block.Shows.report {b : Block} {told : Set (Nat × BlockStatus)} (h : b.Shows told)
    {server : Nat} {info : BlockStatus} (hagree : ∀ other, (server, other) ∈ told → other = info) :
    (b.reportReplica server info.version info.size info.fault).1.Shows
      (insert (server, info) told) := by
  obtain ⟨b', hb'⟩ : ∃ b', b' = (b.reportReplica server info.version info.size info.fault).1 :=
    ⟨_, rfl⟩
  have hfields := b.reportReplica_fields server info.version info.size info.fault
  have hreplicas := h.chunkServer_report hagree
  rw [← hb'] at hfields hreplicas ⊢
  rw [Block.mk.injEq] at hfields
  obtain ⟨-, hversion, hexpect, hlease, hsize, hrecover, -⟩ := hfields
  exact {
    distinct := by
      rcases hreplicas with ⟨-, hsame⟩ | ⟨hnew, hadded⟩
      · rw [Block.servers, hsame]
        exact h.distinct
      · rw [Block.servers, hadded, List.map_append]
        exact List.nodup_append.2 ⟨h.distinct, by simp, by
          simp only [List.map_cons, List.map_nil, List.mem_singleton]
          rintro x hx y rfl rfl
          exact hnew hx⟩
    replicas := fun r => by
      rcases hreplicas with ⟨hold, hsame⟩ | ⟨-, hadded⟩
      · rw [hsame, h.replicas, Set.insert_eq_of_mem hold]
      · rw [hadded, List.mem_append, h.replicas]
        simp [or_comm]
    version := hversion ▸ isGreatest_given_insert h.version (server, info)
    expectVersion := hexpect ▸ isGreatest_given_insert h.expectVersion (server, info)
    size := hsize ▸ isGreatest_given_insert h.size (server, info)
    lease := hlease.trans h.lease
    recoverLease := hrecover.trans h.recoverLease }

/-! ## What the handlers have told -/

namespace MasterState

/-- Only reports come to the master. -/
def Reporting (_ : MasterState) : MasterAct → Prop
  | .onReport .. | .run _ => True
  | _ => False

instance (s : MasterState) : DecidablePred s.Reporting
  | .onReport .. | .run _ => isTrue trivial
  | .addFile _ => isFalse id
  | .onUpdate .. => isFalse id
  | .onClean .. => isFalse id
  | .read .. => isFalse id
  | .write .. => isFalse id
  | .append .. => isFalse id
  | .checkReplica .. => isFalse id

theorem Reporting.named {s : MasterState} {a : MasterAct} (h : s.Reporting a) : s.Named a := by
  cases a with
  | addFile => exact h.elim
  | onReport | onUpdate | onClean | read | write | append | checkReplica | run => trivial

/-- The block that is found, or one as it would be made. -/
def blockAt (s : MasterState) (id : Int64) : Block :=
  ((s.blocks id).map fun p => (s.objects p).block).getD { id := id }

/-- The reports that the block with this id was told of. -/
def told (s : MasterState) (id : Int64) : Set (Nat × BlockStatus) :=
  {r | r.2.id = id ∧ (id, noteCall r.1 r.2 (some [])) ∈ s.calls}

/-- The reports that a handler still has to go over. -/
def pending : Job → List (Nat × BlockStatus)
  | .report server infos => infos.map fun info => (server, info)
  | .reported _ server info infos | .note _ _ server info (some infos) =>
      (info :: infos).map fun info => (server, info)
  | .noted _ _ server _ (some infos) | .grow _ _ server _ (some infos)
  | .leave _ server (some infos) => infos.map fun info => (server, info)
  | _ => []

/-- A handler of a report. -/
def OfReport : Job → Prop
  | .report .. | .reported .. => True
  | .note _ _ _ _ rest | .noted _ _ _ _ rest | .grow _ _ _ _ rest | .leave _ _ rest => rest.isSome
  | _ => False

/-- Each report was told to its block, or was refused for the lack of a file, or is still to be
gone over. -/
structure Told (s : MasterState) : Prop where
  jobs : ∀ job ∈ s.tasks, OfReport job
  heard : ∀ r, r ∈ s.heard ↔
    r ∈ s.told r.2.id ∨ r ∈ s.refused ∨ r ∈ s.tasks.flatMap pending
  refused : ∀ r ∈ s.refused, s.files (fileIdFromBlock r.2.id) = none
  stored : ∀ r id, r ∈ s.told id → (s.blocks id).isSome
  made : ∀ id p, s.blocks id = some p → (s.told id).Nonempty ∨
    ∃ fileId server info rest, .note p fileId server info rest ∈ s.tasks
  shows : Agree {r | r ∈ s.heard} → ∀ id, (s.blockAt id).Shows (s.told id)

variable {blockSize : Int32} {s t : MasterState} {job : Job}

/-- What a step leaves that tells nothing to a block and refuses nothing. -/
structure Silent (s t : MasterState) : Prop where
  calls : t.calls = s.calls
  refused : t.refused = s.refused
  heard : t.heard = s.heard
  files : ∀ fileId, s.files fileId = none → t.files fileId = none
  blockAt : ∀ id, t.blockAt id = s.blockAt id

theorem told_eq (h : t.calls = s.calls) (id : Int64) : t.told id = s.told id := by
  simp only [told, h]

theorem blockAt_some {id : Int64} {p : Nat} (h : s.blocks id = some p) :
    s.blockAt id = (s.objects p).block := by
  simp only [blockAt, h, Option.map_some, Option.getD_some]

theorem blockAt_none {id : Int64} (h : s.blocks id = none) : s.blockAt id = { id := id } := by
  simp only [blockAt, h, Option.map_none, Option.getD_none]

theorem files_apply {e : Effect} (h : Mild s e) {fileId : Int64} (hnone : s.files fileId = none) :
    (s.apply e).files fileId = none := by
  cases h with
  | grow fileId' size =>
      rcases eq_or_ne fileId fileId' with rfl | hne
      · simp only [apply, Function.update_self, hnone, Option.map_none]
      · simp only [apply, Function.update_of_ne hne, hnone]
  | idle | acquire | create | call | release | acquireFile | releaseFile | refuse => exact hnone

theorem blockAt_modify {f : BlockObject → BlockObject} (hf : ∀ r, (f r).block = r.block) (p : Nat)
    (id : Int64) : (s.modify p f).blockAt id = s.blockAt id := by
  have hblock : ∀ q, ((s.modify p f).objects q).block = (s.objects q).block := by
    intro q
    rcases eq_or_ne q p with rfl | hne
    · simpa only [modify, Function.update_self] using hf _
    · simp only [modify, Function.update_of_ne hne]
  cases hid : s.blocks id with
  | some q => rw [blockAt_some hid, ← hblock q]; exact blockAt_some hid
  | none => rw [blockAt_none hid]; exact blockAt_none hid

/-- Only a call changes a block, and a new one is as it was not there. -/
theorem Mild.silent {e : Effect} (h : Mild s e) (hinv : s.Inv) (hcall : ∀ p c, e ≠ .call p c)
    (hrefuse : ∀ server info, e ≠ .refuse server info) : Silent s (s.apply e) := by
  refine ⟨?_, ?_, ?_, fun fileId hnone => files_apply h hnone, fun id => ?_⟩
  · cases h with
    | call p c => exact absurd rfl (hcall p c)
    | idle | acquire | create | release | acquireFile | releaseFile | grow | refuse => rfl
  · cases h with
    | refuse server info => exact absurd rfl (hrefuse server info)
    | idle | acquire | create | call | release | acquireFile | releaseFile | grow => rfl
  · cases h <;> rfl
  · cases h with
    | acquire p =>
        rw [apply]
        refine blockAt_modify (fun r => ?_) p id
        rfl
    | release p =>
        rw [apply]
        refine blockAt_modify (fun r => ?_) p id
        rfl
    | call p c => exact absurd rfl (hcall p c)
    | @create id' hnone hfile =>
        rcases eq_or_ne id id' with rfl | hne
        · rw [blockAt_none hnone]
          simp [blockAt, apply]
        · cases hid : s.blocks id with
          | some q =>
              have hq : q ≠ s.next := (hinv.known id q hid).ne
              simp [blockAt, apply, hne, hid, hq]
          | none => simp [blockAt, apply, hne, hid]
    | idle | acquireFile | releaseFile | grow | refuse => rfl

/-- A call changes the block that it is made of. -/
theorem blockAt_call (hinv : s.Inv) {id : Int64} {p : Nat} (hid : s.blocks id = some p)
    (c : BlockCall) (id' : Int64) :
    (s.apply (.call p c)).blockAt id' =
      if id' = id then (s.blockAt id).call c else s.blockAt id' := by
  have hblocks : (s.apply (.call p c)).blocks = s.blocks := rfl
  split
  next heq =>
    subst heq
    rw [blockAt_some hid, blockAt_some (hblocks ▸ hid)]
    simp only [apply, modify, Function.update_self]
  next hne =>
    cases hid' : s.blocks id' with
    | none => rw [blockAt_none hid']; exact blockAt_none hid'
    | some q =>
        have hq : q ≠ p := by
          rintro rfl
          exact hne ((hinv.ids id' q hid').symm.trans (hinv.ids id q hid))
        rw [blockAt_some hid', blockAt_some (hblocks ▸ hid')]
        simp only [apply, modify, Function.update_of_ne hq]

/-! ## A step of a handler -/

theorem told_mono {r : Nat × BlockStatus} {id : Int64} (h : ∀ c ∈ s.calls, c ∈ t.calls)
    (hr : r ∈ s.told id) : r ∈ t.told id :=
  ⟨hr.1, h _ hr.2⟩

/-- A silent step keeps what was told, if nothing that is pending gets lost. -/
theorem Told.silent (h : s.Told) {e : Effect} (hmild : Mild s e) (hsilent : Silent s (s.apply e))
    {tasks : List Job} (hjobs : ∀ job ∈ tasks, OfReport job)
    (hpending : ∀ r, r ∈ tasks.flatMap pending ↔ r ∈ s.tasks.flatMap pending)
    (hnotes : ∀ p fileId server info rest, .note p fileId server info rest ∈ s.tasks →
      .note p fileId server info rest ∈ tasks)
    (hnew : ∀ id, e = .create id →
      ∃ fileId server info rest, .note s.next fileId server info rest ∈ tasks) :
    Told { s.apply e with tasks := tasks } := by
  have htold : ∀ id, told { s.apply e with tasks := tasks } id = s.told id :=
    fun id => told_eq hsilent.calls id
  have hheard : ({ s.apply e with tasks := tasks } : MasterState).heard = s.heard := hsilent.heard
  have hrefused : ({ s.apply e with tasks := tasks } : MasterState).refused = s.refused :=
    hsilent.refused
  exact {
    jobs := hjobs
    heard := fun r => by
      rw [hheard, htold, hrefused, hpending]
      exact h.heard r
    refused := fun r hr => by
      rw [hrefused] at hr
      exact hsilent.files _ (h.refused r hr)
    stored := fun r id hr => by
      rw [htold] at hr
      obtain ⟨p, hp⟩ := Option.isSome_iff_exists.1 (h.stored r id hr)
      exact Option.isSome_of_eq_some (hmild.extends.blocks id p hp)
    made := fun id p hp => by
      rw [htold]
      rcases hmild.blocks hp with hold | ⟨hcreate, rfl, -⟩
      · rcases h.made id p hold with htold | ⟨fileId, server, info, rest, hmem⟩
        · exact .inl htold
        · exact .inr ⟨fileId, server, info, rest, hnotes _ _ _ _ _ hmem⟩
      · exact .inr (hnew id hcreate)
    shows := fun hagree id => by
      rw [hheard] at hagree
      rw [htold]
      exact (hsilent.blockAt id).symm ▸ h.shows hagree id }

/-- A report that is refused is not told to a block. -/
theorem Told.refuse (h : s.Told) {server : Nat} {info : BlockStatus}
    (hfile : s.files (fileIdFromBlock info.id) = none) {tasks : List Job}
    (hjobs : ∀ job ∈ tasks, OfReport job)
    (hpending : ∀ r, r ∈ s.tasks.flatMap pending ↔
      r = (server, info) ∨ r ∈ tasks.flatMap pending)
    (hnotes : ∀ p fileId server info rest, .note p fileId server info rest ∈ s.tasks →
      .note p fileId server info rest ∈ tasks) :
    Told { s.apply (.refuse server info) with tasks := tasks } where
  jobs := hjobs
  heard r := by
    show r ∈ s.heard ↔ r ∈ s.told r.2.id ∨ r ∈ s.refused ++ [(server, info)] ∨ _
    rw [h.heard r, hpending, List.mem_append, List.mem_singleton, or_assoc]
  refused r hr := by
    rcases List.mem_append.1 hr with hold | hnew
    · exact h.refused r hold
    · exact List.mem_singleton.1 hnew ▸ hfile
  stored := h.stored
  made id p hp := by
    rcases h.made id p hp with htold | ⟨fileId, server, info, rest, hmem⟩
    · exact .inl htold
    · exact .inr ⟨fileId, server, info, rest, hnotes _ _ _ _ _ hmem⟩
  shows := h.shows

theorem noteCall_inj {r r' : Nat × BlockStatus} (hid : r.2.id = r'.2.id)
    (h : noteCall r.1 r.2 (some []) = noteCall r'.1 r'.2 (some [])) : r = r' := by
  obtain ⟨server, id, version, size, fault⟩ := r
  obtain ⟨server', id', version', size', fault'⟩ := r'
  cases hid
  cases h
  rfl

/-- A report that its block is told of. -/
theorem Told.note (h : s.Told) (hinv : s.Inv) {p : Nat} {server : Nat} {info : BlockStatus}
    (hid : s.blocks info.id = some p) {tasks : List Job} (hjobs : ∀ job ∈ tasks, OfReport job)
    (hpending : ∀ r, r ∈ s.tasks.flatMap pending ↔
      r = (server, info) ∨ r ∈ tasks.flatMap pending)
    (hnotes : ∀ q fileId server' info' rest, .note q fileId server' info' rest ∈ s.tasks →
      q = p ∨ .note q fileId server' info' rest ∈ tasks) :
    Told { s.apply (.call p (noteCall server info (some []))) with tasks := tasks } := by
  obtain ⟨t, ht⟩ : ∃ t : MasterState, t =
    { s.apply (.call p (noteCall server info (some []))) with tasks := tasks } := ⟨_, rfl⟩
  have hcalls : t.calls = s.calls ++ [(info.id, noteCall server info (some []))] := by
    rw [ht, ← hinv.ids info.id p hid]
    rfl
  have hheard : t.heard = s.heard := by rw [ht]; rfl
  have hrefused : t.refused = s.refused := by rw [ht]; rfl
  have hfiles : t.files = s.files := by rw [ht]; rfl
  have hblocks : t.blocks = s.blocks := by rw [ht]; rfl
  have htasks : t.tasks = tasks := by rw [ht]
  have htold : ∀ id, t.told id =
      if id = info.id then insert (server, info) (s.told id) else s.told id := by
    intro id
    ext r
    simp only [told, hcalls, List.mem_append, List.mem_singleton, Prod.mk.injEq, Set.mem_ofPred_eq]
    split
    next heq =>
      subst heq
      rw [Set.mem_insert_iff, Set.mem_ofPred_eq]
      constructor
      · rintro ⟨hr, hold | ⟨-, hcall⟩⟩
        · exact .inr ⟨hr, hold⟩
        · have heq : r = (server, info) := noteCall_inj hr hcall
          exact .inl heq
      · rintro (rfl | ⟨hr, hold⟩)
        · exact ⟨rfl, .inr ⟨rfl, rfl⟩⟩
        · exact ⟨hr, .inl hold⟩
    next hne => simp [hne]
  have hsub : ∀ r id, r ∈ s.told id → r ∈ t.told id := by
    intro r id hr
    exact told_mono (fun c hc => hcalls ▸ List.mem_append_left _ hc) hr
  rw [← ht]
  exact {
    jobs := htasks ▸ hjobs
    heard := fun r => by
      rw [hheard, h.heard, hrefused, htasks, hpending, htold]
      split
      next => rw [Set.mem_insert_iff]; tauto
      next hne =>
        have hr : r ≠ (server, info) := fun heq => hne (heq ▸ rfl)
        simp [hr]
    refused := fun r hr => by
      rw [hfiles]
      exact h.refused r (hrefused ▸ hr)
    stored := fun r id hr => by
      rw [htold] at hr
      rw [hblocks]
      split at hr
      next heq => exact heq ▸ Option.isSome_of_eq_some hid
      next => exact h.stored r id hr
    made := fun id q hq => by
      rw [hblocks] at hq
      rcases h.made id q hq with ⟨r, hr⟩ | ⟨fileId, server', info', rest, hmem⟩
      · exact .inl ⟨r, hsub r id hr⟩
      · rcases hnotes q fileId server' info' rest hmem with rfl | hold
        · obtain rfl : id = info.id := (hinv.ids id q hq).symm.trans (hinv.ids info.id q hid)
          refine .inl ⟨(server, info), ?_⟩
          rw [htold, if_pos rfl]
          exact Set.mem_insert _ _
        · exact .inr ⟨fileId, server', info', rest, htasks ▸ hold⟩
    shows := fun hagree id => by
      rw [hheard] at hagree
      have hblockAt : t.blockAt id = if id = info.id then
          (s.blockAt info.id).call (noteCall server info (some [])) else s.blockAt id := by
        rw [ht]
        exact blockAt_call hinv hid _ id
      rw [hblockAt, htold]
      split
      next heq =>
        subst heq
        refine (h.shows hagree info.id).report fun other hother => ?_
        have hnow : (server, info) ∈ s.heard :=
          (h.heard _).2 (.inr (.inr ((hpending _).2 (.inl rfl))))
        have hthen : (server, other) ∈ s.heard :=
          (h.heard _).2 (.inl (hother.1.symm ▸ hother))
        exact hagree server other info hthen hnow hother.1
      next => exact h.shows hagree id }

theorem mem_pending {others : List Job} (hperm : s.tasks.Perm (job :: others))
    (r : Nat × BlockStatus) :
    r ∈ s.tasks.flatMap pending ↔ r ∈ pending job ∨ r ∈ others.flatMap pending := by
  rw [(hperm.flatMap_right pending).mem_iff, List.flatMap_cons, List.mem_append]

/-- A step of a handler that tells nothing and refuses nothing. -/
structure Still (blockSize : Int32) (s : MasterState) (job : Job) : Prop where
  call : ∀ p c, (s.plan blockSize job).1 ≠ .call p c
  refuse : ∀ server info, (s.plan blockSize job).1 ≠ .refuse server info
  jobs : ∀ job' ∈ (s.plan blockSize job).2, OfReport job'
  pending : (s.plan blockSize job).2.flatMap pending = pending job
  create : ∀ id, (s.plan blockSize job).1 = .create id →
    ∃ fileId server info rest, .note s.next fileId server info rest ∈ (s.plan blockSize job).2
  note : ∀ p fileId server info rest, job ≠ .note p fileId server info rest

theorem Told.still (h : s.Told) (hinv : s.Inv) {others : List Job}
    (hperm : s.tasks.Perm (job :: others)) (hstill : Still blockSize s job) :
    (s.resume blockSize job others).Told := by
  have hmild := (plan_sound blockSize hinv
    (hinv.sound job (hperm.mem_iff.2 List.mem_cons_self))).1
  refine h.silent hmild (hmild.silent hinv hstill.call hstill.refuse) ?_ ?_ ?_ ?_
  · intro job' hmem
    rcases List.mem_append.1 hmem with hnew | hold
    · exact hstill.jobs job' hnew
    · exact h.jobs job' (hperm.mem_iff.2 (List.mem_cons_of_mem _ hold))
  · intro r
    rw [List.flatMap_append, List.mem_append, hstill.pending, mem_pending hperm]
  · intro p fileId server info rest hmem
    rcases List.mem_cons.1 (hperm.mem_iff.1 hmem) with heq | hold
    · exact absurd heq.symm (hstill.note p fileId server info rest)
    · exact List.mem_append_right _ hold
  · intro id hcreate
    obtain ⟨fileId, server, info, rest, hmem⟩ := hstill.create id hcreate
    exact ⟨fileId, server, info, rest, List.mem_append_left _ hmem⟩

theorem Told.resume (h : s.Told) (hinv : s.Inv) {others : List Job}
    (hperm : s.tasks.Perm (job :: others)) : (s.resume blockSize job others).Told := by
  have hothers : ∀ job' ∈ others, OfReport job' :=
    fun job' hmem => h.jobs job' (hperm.mem_iff.2 (List.mem_cons_of_mem _ hmem))
  have hjob : OfReport job := h.jobs job (hperm.mem_iff.2 List.mem_cons_self)
  have hsound : s.Sound job := hinv.sound job (hperm.mem_iff.2 List.mem_cons_self)
  cases job with
  | report server infos =>
      cases infos with
      | nil =>
          refine h.still hinv hperm ?_
          constructor <;> simp [plan, pending]
      | cons info infos =>
          by_cases hfile : (s.files (fileIdFromBlock info.id)).isSome
          · refine h.still hinv hperm ?_
            constructor <;> simp [plan, hfile, pending, OfReport]
          · simp only [MasterState.resume, plan, hfile, Bool.false_eq_true, if_false]
            refine h.refuse (Option.not_isSome_iff_eq_none.1 hfile) ?_ (fun r => ?_) ?_
            · intro job' hmem
              rcases List.mem_cons.1 hmem with rfl | hold
              · trivial
              · exact hothers job' hold
            · rw [mem_pending hperm]
              simp [pending, eq_comm, or_assoc]
            · intro p fileId server' info' rest hmem
              rcases List.mem_cons.1 (hperm.mem_iff.1 hmem) with heq | hold
              · cases heq
              · exact List.mem_cons_of_mem _ hold
  | reported fileId server info infos =>
      refine h.still hinv hperm ?_
      rcases s.get_cases info.id true with ⟨p, -, hget⟩ | ⟨-, -, hget⟩ | ⟨-, hcreate, -⟩
      · constructor <;> simp [plan, hget, pending, OfReport]
      · constructor <;> simp [plan, hget, pending, OfReport]
      · cases hcreate
  | note p fileId server info rest =>
      obtain ⟨infos, rfl⟩ := Option.isSome_iff_exists.1 hjob
      refine h.note hinv hsound.1 ?_ (fun r => ?_) ?_
      · intro job' hmem
        rcases List.mem_cons.1 hmem with rfl | hold
        · rfl
        · exact hothers job' hold
      · rw [mem_pending hperm]
        simp [plan, pending, eq_comm, or_assoc]
      · intro q fileId' server' info' rest' hmem
        rcases List.mem_cons.1 (hperm.mem_iff.1 hmem) with heq | hold
        · cases heq
          exact .inl rfl
        · exact .inr (List.mem_cons_of_mem _ hold)
  | noted p fileId server newSize rest =>
      obtain ⟨infos, rfl⟩ := Option.isSome_iff_exists.1 hjob
      refine h.still hinv hperm ?_
      constructor <;> simp [plan, pending, OfReport]
  | grow p fileId server newSize rest =>
      obtain ⟨infos, rfl⟩ := Option.isSome_iff_exists.1 hjob
      refine h.still hinv hperm ?_
      by_cases hpos : 0 < newSize
      · constructor <;> simp [plan, hpos, pending, OfReport]
      · constructor <;> simp [plan, hpos, pending, OfReport]
  | leave fileId server rest =>
      obtain ⟨infos, rfl⟩ := Option.isSome_iff_exists.1 hjob
      refine h.still hinv hperm ?_
      constructor <;> simp [plan, pending, OfReport]
  | update | updated | drop | clean | cleanLocked | get | call | finish => exact hjob.elim

/-- A report that comes is pending. -/
theorem Told.onReport (h : s.Told) (server : Nat) (infos : List BlockStatus) :
    (s.fork (.report server infos) (infos.map fun info => (server, info))).Told where
  jobs job' hmem := by
    rcases List.mem_cons.1 hmem with rfl | hold
    · trivial
    · exact h.jobs job' hold
  heard r := by
    simp only [fork, List.mem_append, List.flatMap_cons, pending]
    rw [h.heard r]
    simp only [told]
    tauto
  refused := h.refused
  stored := h.stored
  made id p hp := by
    rcases h.made id p hp with htold | ⟨fileId, server, info, rest, hmem⟩
    · exact .inl htold
    · exact .inr ⟨fileId, server, info, rest, List.mem_cons_of_mem _ hmem⟩
  shows hagree := by
    refine h.shows fun server' info info' hinfo hinfo' => ?_
    exact hagree server' info info' (List.mem_append_left _ hinfo) (List.mem_append_left _ hinfo')

theorem told_of_run (hr : (masterSystem blockSize).Run Reporting s) : s.Inv ∧ s.Told := by
  refine hr.invariant (I := fun s => s.Inv ∧ s.Told) ?_ fun s a t h hreporting hstep => ?_
  · intro s hstarted
    refine ⟨.of_started hstarted, ?_⟩
    rw [hstarted.fresh]
    exact {
      jobs := fun _ hmem => by cases hmem
      heard := fun r => by simp [told]
      refused := fun _ hmem => by cases hmem
      stored := fun _ _ hr => by cases hr.2
      made := fun _ _ hp => by cases hp
      shows := fun _ id => by
        have hempty : told { files := s.files } id = ∅ := by simp [told]
        rw [hempty]
        exact Block.shows_new id }
  · refine ⟨h.1.step hreporting.named hstep, ?_⟩
    cases a with
    | onReport server infos =>
        cases hstep
        exact h.2.onReport server infos
    | run i =>
        simp only [masterSystem, ofStep, MasterState.step, Option.map_eq_some_iff] at hstep
        obtain ⟨job, hjob, rfl⟩ := hstep
        obtain ⟨hlt, rfl⟩ := List.getElem?_eq_some_iff.1 hjob
        exact h.2.resume h.1 (List.getElem_cons_eraseIdx_perm hlt).symm
    | addFile | onUpdate | onClean | read | write | append | checkReplica => exact hreporting.elim

/-! ## When no report is left -/

/-- A report was told to its block if it has a file. -/
theorem told_of_idle (h : s.Told) (hinv : s.Inv) (hidle : s.tasks = []) (id : Int64) :
    s.told id = {r | r ∈ s.heard ∧ r.2.id = id ∧ (s.files (fileIdFromBlock id)).isSome} := by
  ext r
  rw [Set.mem_ofPred_eq, h.heard r, hidle]
  constructor
  · intro hr
    obtain ⟨p, hp⟩ := Option.isSome_iff_exists.1 (h.stored r id hr)
    exact ⟨.inl (hr.1 ▸ hr), hr.1, hinv.indexed id p hp⟩
  · rintro ⟨htold | hrefused | hnone, rfl, hfile⟩
    · exact htold
    · rw [h.refused r hrefused] at hfile
      cases hfile
    · cases hnone

/-- A block is in the table if it was told of a report. -/
theorem isSome_blocks_of_idle (h : s.Told) (hidle : s.tasks = []) (id : Int64) :
    (s.blocks id).isSome ↔ (s.told id).Nonempty := by
  constructor
  · intro hsome
    obtain ⟨p, hp⟩ := Option.isSome_iff_exists.1 hsome
    rcases h.made id p hp with htold | ⟨fileId, server, info, rest, hmem⟩
    · exact htold
    · rw [hidle] at hmem
      cases hmem
  · rintro ⟨r, hr⟩
    exact h.stored r id hr

theorem id_blockAt (hinv : s.Inv) (id : Int64) : (s.blockAt id).id = id := by
  cases hid : s.blocks id with
  | some p => rw [blockAt_some hid, hinv.ids id p hid]
  | none => rw [blockAt_none hid]

/-- The same blocks, but for the order of their replicas, and the same files. -/
structure Alike (blockSize : Int32) (s t : MasterState) : Prop where
  stored : ∀ id, (s.blocks id).isSome ↔ (t.blocks id).isSome
  blocks : ∀ id, (s.blockAt id).Same (t.blockAt id)
  refused : ∀ r, r ∈ s.refused ↔ r ∈ t.refused
  files : 0 < blockSize → (∀ id p, s.blocks id = some p → 0 < s.sizeOf p →
    EndsBelow blockSize id (s.sizeOf p)) → s.files = t.files

variable {t : MasterState}

/-- A report was refused if it has no file. -/
theorem refused_of_idle (h : s.Told) (hinv : s.Inv) (hidle : s.tasks = [])
    (r : Nat × BlockStatus) :
    r ∈ s.refused ↔ r ∈ s.heard ∧ ¬(s.files (fileIdFromBlock r.2.id)).isSome := by
  rw [h.heard r, told_of_idle h hinv hidle, hidle]
  constructor
  · intro hr
    exact ⟨.inr (.inl hr), by simp [h.refused r hr]⟩
  · rintro ⟨⟨-, -, hfile⟩ | hrefused | hnone, hnot⟩
    · exact absurd hfile hnot
    · exact hrefused
    · cases hnone

/-- Blocks of the same sizes end their files alike. -/
theorem ends_subset (hstored : ∀ id, (s.blocks id).isSome → (t.blocks id).isSome)
    (hsize : ∀ id, (s.blockAt id).size = (t.blockAt id).size) (fileId : Int64) :
    s.ends blockSize fileId ⊆ t.ends blockSize fileId := by
  rintro blockEnd ⟨id, p, hid, hfile, hpos, rfl⟩
  obtain ⟨q, hq⟩ := Option.isSome_iff_exists.1 (hstored id (Option.isSome_of_eq_some hid))
  have heq : s.sizeOf p = t.sizeOf q := by
    have hblock := hsize id
    rwa [blockAt_some hid, blockAt_some hq] at hblock
  exact ⟨id, q, hq, hfile, heq ▸ hpos, by rw [heq]⟩

end MasterState

open MasterState

/-- A master with one file that was loaded. -/
def oneLoaded : MasterState :=
  { files := fun fileId => if fileId = 0x80000000 then some 0 else none }

/-- Two servers report the first block of the file, one after the other. -/
def reportsInTurn : List MasterAct :=
  .onReport 1 [⟨0x80000400, 1, 10, false⟩] :: List.replicate 7 (.run 0) ++
    .onReport 2 [⟨0x80000400, 2, 20, false⟩] :: List.replicate 7 (.run 0)

/-- The other server comes first, and the steps of the two handlers alternate. -/
def reportsAtOnce : List MasterAct :=
  .onReport 1 [⟨0x80000400, 1, 10, false⟩] :: .onReport 2 [⟨0x80000400, 2, 20, false⟩] ::
    .run 0 :: List.replicate 12 (.run 1) ++ [.run 0]

end Ofs.Master
