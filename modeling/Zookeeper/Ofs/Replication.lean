import Mathlib.Logic.Function.Basic
import Zookeeper.Ofs.NodeBlock
import Zookeeper.Ofs.Lease

/-!
# Replication of a block

The master, the chunk servers and the links between them, for one block.  A
client request runs in the three steps of `ClientService::Write` and `Append`:
it reads the version, performs the operation under the block lock, and reads
the version again to notify the other replicas.  The steps of different
requests interleave freely.  A link is a queue that may lose what it carries.

The state keeps a ghost `history`: the contents a block had when a version was
first reached.  `Consistent` says that every copy has the contents its version
stands for, and that every notice under way tells the truth about the history.
It is kept as long as the steps are `Serial`, which `replicas_agree` needs and
which two requests on one primary break (`racing_appends_diverge`).
-/

namespace Ofs

open Node (Op IoResult)

/-- `BlockLease`, as the master hands it to a client. -/
structure Lease where
  leaseUntil : Nat
  version : Int64
  newVersion : Int64
  /-- The server `ep` points at. -/
  primary : Nat
  chunkServers : List Nat
deriving DecidableEq, Repr

/-- `WriteNotify` and `AppendNotify`. -/
structure Notify where
  version : Int64
  newVersion : Int64
  op : Op
deriving DecidableEq, Repr

/-- `UpdataBlock`: a chunk server tells the master about its copy. -/
structure Report where
  version : Int64
  size : Int
  fault : Bool
deriving DecidableEq, Repr

/-- How far a request has come. -/
inductive Stage where
  /-- `oldVersion` is read. -/
  | started (oldVersion : Int64)
  /-- The operation took the block from version `before` to `after`. -/
  | performed (oldVersion before after : Int64)
  | finished
deriving DecidableEq, Repr

/-- A performed request saw no other version than those its operation went
between, `version` being what it is about to read. -/
def Stage.Exact (version : Int64) : Stage → Prop
  | .performed oldVersion before after => oldVersion = before ∧ version = after
  | _ => True

instance (version : Int64) : ∀ st : Stage, Decidable (st.Exact version)
  | .performed _ _ _ => inferInstanceAs (Decidable (_ ∧ _))
  | .started _ => inferInstanceAs (Decidable True)
  | .finished => inferInstanceAs (Decidable True)

/-- A `ClientService::Write` or `Append` call at the primary of its lease. -/
structure Request where
  lease : Lease
  op : Op
  stage : Stage
deriving DecidableEq, Repr

/-- The contents of a block: its size and its bytes. -/
abbrev Contents := Int × Bytes

/-- The contents each version was first reached with. -/
abbrev History := Int64 → Option Contents

/-- The master, the chunk servers and what is under way between them. -/
structure Cluster where
  master : Master.Block
  block : Nat → Option Node.Block := fun _ => none
  lease : List Lease := []
  request : List Request := []
  /-- The notices from one server to another. -/
  link : Nat → Nat → List Notify := fun _ _ => []
  /-- The reports from a server to the master. -/
  report : Nat → List Report := fun _ => []
  history : History := fun v => if v = 0 then some (0, []) else none

/-- The configuration of the master and the chunk servers. -/
structure Params where
  master : Master.Config
  batchSize : Nat
  blockSize : Int

inductive Act where
  /-- The master's `Write` or `Append` for a client. -/
  | grant (now : Nat) (useAble : Nat → Bool) (distributed : List Nat)
  /-- A request with the `l`th lease, up to the first `GetVersion`. -/
  | start (l : Nat) (op : Op) (now : Nat)
  /-- `Block::Write` or `Append` of the `i`th request. -/
  | perform (i : Nat) (dataIo metaIo : IoResult)
  /-- The second `GetVersion` of the `i`th request, the notices and the report. -/
  | finish (i : Nat)
  /-- `OnWrite` or `OnAppend` of the next notice. -/
  | deliver (src dst : Nat) (dataIo metaIo : IoResult)
  | lose (src dst : Nat)
  /-- The master's `UpdateReplica` for the next report. -/
  | update (src : Nat)
  | loseReport (src : Nat)

/-! ## Steps -/

namespace Cluster

variable (p : Params) (s : Cluster)

/-- `BlockManager::Get(id, true)` creates what is missing, for appends. -/
def getBlock (server : Nat) (op : Op) : Option Node.Block :=
  match s.block server, op with
  | some b, _ => some b
  | none, .append _ => some {}
  | none, .write _ _ => none

def setBlock (server : Nat) (b : Node.Block) : Cluster :=
  { s with block := Function.update s.block server (some b) }

def setStage (i : Nat) (stage : Stage) : Cluster :=
  { s with request := s.request.modify i fun r => { r with stage := stage } }

/-- The contents of a version are kept from when it is first reached. -/
def record (b : Node.Block) : Cluster :=
  { s with
    history := fun v =>
      if v = b.version ∧ s.history v = none then some (b.size, b.data) else s.history v }

def sendReport (server : Nat) (b : Node.Block) : Cluster :=
  { s with
    report := Function.update s.report server
      (s.report server ++ [⟨b.version, b.size, b.recovering⟩]) }

/-- `NodeService::Write` and `Append`: one notice to each of the others. -/
def sendNotify (server : Nat) (others : List Nat) (n : Notify) : Cluster :=
  { s with
    link := Function.update s.link server fun dst =>
      if dst ∈ others then s.link server dst ++ [n] else s.link server dst }

def popLink (src dst : Nat) : Cluster :=
  { s with
    link := Function.update s.link src (Function.update (s.link src) dst (s.link src dst).tail) }

def popReport (src : Nat) : Cluster :=
  { s with report := Function.update s.report src (s.report src).tail }

/-- The master grants a lease, or repeats the one that runs. -/
def grant (now : Nat) (useAble : Nat → Bool) (distributed : List Nat) : Cluster :=
  match s.master.write p.master useAble distributed now with
  | (m, none) => { s with master := m }
  | (m, some (main, others)) =>
      { s with
        master := m
        lease := s.lease ++ [⟨m.lease, m.version, m.expectVersion, main, others⟩] }

/-- `ClientService::Write` and `Append` up to the first `GetVersion`. -/
def start (l : Lease) (op : Op) (now : Nat) : Cluster :=
  if l.leaseUntil < now then s
  else if op.data.length ≠ p.batchSize then s
  else
    match s.getBlock l.primary op with
    | none => s
    | some b =>
        { s.setBlock l.primary b with request := s.request ++ [⟨l, op, .started b.version⟩] }

/-- The call of `Block::Write` or `Append` by request `i`. -/
def perform (i : Nat) (r : Request) (oldVersion : Int64) (b : Node.Block)
    (dataIo metaIo : IoResult) : Cluster :=
  match b.run p.blockSize r.op r.lease.version r.lease.newVersion false dataIo metaIo with
  | (b', code) =>
      ((s.record b').setBlock r.lease.primary b').setStage i
        (if code = .none then .performed oldVersion b.version b'.version else .finished)

/-- The notices and the report of request `i`. -/
def finish (i : Nat) (r : Request) (oldVersion : Int64) (b : Node.Block) : Cluster :=
  ((s.sendNotify r.lease.primary r.lease.chunkServers ⟨oldVersion, b.version, r.op⟩).sendReport
    r.lease.primary b).setStage i .finished

/-- `NodeService::OnWrite` and `OnAppend`. -/
def onNotify (dst : Nat) (n : Notify) (dataIo metaIo : IoResult) : Cluster :=
  match s.getBlock dst n.op with
  | none => s
  | some b =>
      match b.run p.blockSize n.op n.version n.newVersion true dataIo metaIo with
      | (b', .none) => (s.setBlock dst b').sendReport dst b'
      | (b', _) => s.setBlock dst b'

/-- One step of the cluster. -/
def step : Act → Option Cluster
  | .grant now useAble ds => some (s.grant p now useAble ds)
  | .start l op now => s.lease[l]?.map fun l => s.start p l op now
  | .perform i dataIo metaIo =>
      match s.request[i]? with
      | some ⟨l, op, .started old⟩ =>
          (s.block l.primary).map fun b => s.perform p i ⟨l, op, .started old⟩ old b dataIo metaIo
      | _ => none
  | .finish i =>
      match s.request[i]? with
      | some ⟨l, op, .performed old before after⟩ =>
          (s.block l.primary).map fun b => s.finish i ⟨l, op, .performed old before after⟩ old b
      | _ => none
  | .deliver src dst dataIo metaIo =>
      (s.link src dst).head?.map fun n => (s.popLink src dst).onNotify p dst n dataIo metaIo
  | .lose src dst => some (s.popLink src dst)
  | .update src =>
      (s.report src).head?.map fun r =>
        { s.popReport src with
          master := (s.master.updateReplica src r.version r.size r.fault).1 }
  | .loseReport src => some (s.popReport src)

/-- Nothing is under way, and every copy has the contents of its version. -/
def Fresh : Prop :=
  s.request = [] ∧ (∀ src dst, s.link src dst = []) ∧ s.history 0 = some (0, []) ∧
    ∀ i b, s.block i = some b → b.recovering = false → s.history b.version = some (b.size, b.data)

end Cluster

/-- The runs of a block's cluster. -/
def replication (p : Params) : Transition.System Cluster Act :=
  Transition.ofStep Cluster.Fresh fun s a => s.step p a

/-- Copies of one version that are not recovering are equal. -/
def Agree (s : Cluster) : Prop :=
  ∀ i j bi bj, s.block i = some bi → s.block j = some bj → bi.version = bj.version →
    bi.recovering = false → bj.recovering = false → bi.size = bj.size ∧ bi.data = bj.data

/-- What keeps versions and contents together.  A data file that fails to be
written is left alone.  The version an operation moves a primary to was never
reached before.  A request whose notices go out read its `oldVersion` and its
`newVersion` right before and right after its own operation. -/
def Serial (p : Params) (s : Cluster) : Act → Prop
  | .perform i dataIo _ =>
      ∀ r ∈ s.request[i]?, ∀ b ∈ s.block r.lease.primary,
        b.check p.blockSize r.op r.lease.version false = .none →
          dataIo.Clean ∧
            (dataIo = .success → s.history (b.bumped r.lease.newVersion false) = none)
  | .finish i =>
      ∀ r ∈ s.request[i]?, ∀ b ∈ s.block r.lease.primary, r.lease.chunkServers ≠ [] →
        r.stage.Exact b.version
  | .deliver _ _ dataIo _ => dataIo.Clean
  | _ => True

instance (p : Params) (s : Cluster) : ∀ a, Decidable (Serial p s a)
  | .perform _ _ _ => inferInstanceAs (Decidable (∀ r ∈ _, ∀ b ∈ _, _ → _ ∧ (_ → _)))
  | .finish _ => inferInstanceAs (Decidable (∀ r ∈ _, ∀ b ∈ _, _ → _))
  | .deliver _ _ _ _ => inferInstanceAs (Decidable (Node.IoResult.Clean _))
  | .grant _ _ _ => inferInstanceAs (Decidable True)
  | .start _ _ _ => inferInstanceAs (Decidable True)
  | .lose _ _ => inferInstanceAs (Decidable True)
  | .update _ => inferInstanceAs (Decidable True)
  | .loseReport _ => inferInstanceAs (Decidable True)

/-! ## The invariant -/

/-- The operation of a notice leads from the contents of its old version to
those of its new one. -/
def Notify.Truthful (h : History) (n : Notify) : Prop :=
  ∃ c, h n.version = some c ∧
    h n.newVersion = some (n.op.sizeAfter c.1, n.op.touch c.2 n.op.data.length)

/-- One history extends another. -/
def History.Le (h h' : History) : Prop := ∀ v c, h v = some c → h' v = some c

theorem History.Le.rfl {h : History} : h.Le h := fun _ _ hc => hc

theorem Notify.Truthful.mono {h h' : History} {n : Notify} (hn : n.Truthful h) (hle : h.Le h') :
    n.Truthful h' :=
  let ⟨c, hold, hnew⟩ := hn
  ⟨c, hle _ _ hold, hle _ _ hnew⟩

/-- A copy has the contents its version stands for. -/
def Node.Block.Faithful (h : History) (b : Node.Block) : Prop :=
  b.recovering = false → h b.version = some (b.size, b.data)

/-- What a `Serial` run keeps. -/
structure Consistent (s : Cluster) : Prop where
  zero : s.history 0 = some (0, [])
  held : ∀ i b, s.block i = some b → b.Faithful s.history
  sent : ∀ src dst, ∀ n ∈ s.link src dst, n.Truthful s.history
  done : ∀ r ∈ s.request, ∀ old before after, r.stage = .performed old before after →
    Notify.Truthful s.history ⟨before, after, r.op⟩

theorem Consistent.agree {s : Cluster} (h : Consistent s) : Agree s := by
  intro i j bi bj hi hj hv hri hrj
  have hci := h.held i bi hi hri
  have hcj := h.held j bj hj hrj
  rw [hv, hcj, Option.some.injEq, Prod.mk.injEq] at hci
  exact ⟨hci.1.symm, hci.2.symm⟩

theorem Consistent.of_fresh {s : Cluster} (h : s.Fresh) : Consistent s where
  zero := h.2.2.1
  held := h.2.2.2
  sent src dst n hn := by simp [h.2.1] at hn
  done r hr := by simp [h.1] at hr

/-! ## One step -/

namespace Consistent

variable {p : Params} {s : Cluster} {b : Node.Block}

theorem faithful_getBlock {server : Nat} {op : Op} (h : Consistent s)
    (hb : s.getBlock server op = some b) : b.Faithful s.history := by
  unfold Cluster.getBlock at hb
  split at hb
  next hs =>
    cases hb
    exact h.held _ _ hs
  next =>
    cases hb
    exact fun _ => h.zero
  next => cases hb

theorem setBlock (h : Consistent s) (server : Nat) (hb : b.Faithful s.history) :
    Consistent (s.setBlock server b) where
  zero := h.zero
  held i bi hi := by
    by_cases his : i = server
    · subst his
      simp only [Cluster.setBlock, Function.update_self, Option.some.injEq] at hi
      exact hi ▸ hb
    · simp only [Cluster.setBlock, Function.update_of_ne his] at hi
      exact h.held i bi hi
  sent := h.sent
  done := h.done

theorem record_le (s : Cluster) (b : Node.Block) : s.history.Le (s.record b).history := by
  intro v c hc
  simp [Cluster.record, hc]

/-- A recorded version that is new, or that the copy has already, is faithful. -/
theorem record_faithful (h : s.history b.version = none ∨ b.Faithful s.history) :
    b.Faithful (s.record b).history := by
  intro hr
  rcases h with hnone | hb
  · simp [Cluster.record, hnone]
  · exact record_le s b _ _ (hb hr)

theorem record (h : Consistent s) (b : Node.Block) : Consistent (s.record b) where
  zero := record_le s b _ _ h.zero
  held i bi hi hr := record_le s b _ _ (h.held i bi hi hr)
  sent src dst n hn := (h.sent src dst n hn).mono (record_le s b)
  done r hr old before after hst := (h.done r hr old before after hst).mono (record_le s b)

theorem setStage (h : Consistent s) {i : Nat} {stage : Stage}
    (hst : ∀ r, s.request[i]? = some r → ∀ old before after,
      stage = .performed old before after → Notify.Truthful s.history ⟨before, after, r.op⟩) :
    Consistent (s.setStage i stage) where
  zero := h.zero
  held := h.held
  sent := h.sent
  done r hr old before after hstage := by
    obtain ⟨j, hj⟩ := List.getElem?_of_mem hr
    simp only [Cluster.setStage, List.getElem?_modify] at hj
    obtain ⟨r', hr', heq⟩ := Option.map_eq_some_iff.mp hj
    split at heq
    next hij =>
      subst hij heq
      exact hst r' hr' old before after hstage
    next =>
      subst heq
      exact h.done _ (List.mem_of_getElem? hr') old before after hstage

theorem sendReport (h : Consistent s) (server : Nat) (b : Node.Block) :
    Consistent (s.sendReport server b) where
  zero := h.zero
  held := h.held
  sent := h.sent
  done := h.done

theorem popReport (h : Consistent s) (server : Nat) : Consistent (s.popReport server) where
  zero := h.zero
  held := h.held
  sent := h.sent
  done := h.done

theorem sendNotify (h : Consistent s) (server : Nat) {others : List Nat} {n : Notify}
    (hn : others ≠ [] → n.Truthful s.history) : Consistent (s.sendNotify server others n) where
  zero := h.zero
  held := h.held
  sent src dst m hm := by
    by_cases hsrc : src = server
    · subst hsrc
      simp only [Cluster.sendNotify, Function.update_self] at hm
      split at hm
      next hdst =>
        rcases List.mem_append.mp hm with hm | hm
        · exact h.sent _ _ m hm
        · rw [List.mem_singleton] at hm
          exact hm ▸ hn (List.ne_nil_of_mem hdst)
      next => exact h.sent _ _ m hm
    · simp only [Cluster.sendNotify, Function.update_of_ne hsrc] at hm
      exact h.sent _ _ m hm
  done := h.done

theorem popLink (h : Consistent s) (src dst : Nat) : Consistent (s.popLink src dst) where
  zero := h.zero
  held := h.held
  sent src' dst' m hm := by
    refine h.sent src' dst' m ?_
    by_cases hsrc : src' = src
    · subst hsrc
      by_cases hdst : dst' = dst
      · subst hdst
        simp only [Cluster.popLink, Function.update_self] at hm
        exact List.mem_of_mem_tail hm
      · simpa only [Cluster.popLink, Function.update_self, Function.update_of_ne hdst] using hm
    · simpa only [Cluster.popLink, Function.update_of_ne hsrc] using hm
  done := h.done

theorem grant (h : Consistent s) (now : Nat) (useAble : Nat → Bool) (ds : List Nat) :
    Consistent (s.grant p now useAble ds) := by
  rw [Cluster.grant]
  split
  · exact ⟨h.zero, h.held, h.sent, h.done⟩
  · exact ⟨h.zero, h.held, h.sent, h.done⟩

theorem start (h : Consistent s) (l : Lease) (op : Op) (now : Nat) :
    Consistent (s.start p l op now) := by
  rw [Cluster.start]
  split
  · exact h
  split
  · exact h
  split
  next => exact h
  next b hb =>
    have hset := h.setBlock l.primary (h.faithful_getBlock hb)
    refine ⟨hset.zero, hset.held, hset.sent, ?_⟩
    intro r hr old before after hstage
    rcases List.mem_append.mp hr with hr | hr
    · exact h.done r hr old before after hstage
    · rw [List.mem_singleton] at hr
      subst hr
      cases hstage

/-- An operation at the primary. -/
theorem perform (h : Consistent s) {i : Nat} {r : Request} {old : Int64} {dataIo metaIo : IoResult}
    (hr : s.request[i]? = some r) (hb : s.block r.lease.primary = some b)
    (hclean : b.check p.blockSize r.op r.lease.version false = .none → dataIo.Clean)
    (hnew : b.check p.blockSize r.op r.lease.version false = .none → dataIo = .success →
      s.history (b.bumped r.lease.newVersion false) = none) :
    Consistent (s.perform p i r old b dataIo metaIo) := by
  have hheld := h.held _ _ hb
  have hrun := b.run_clean p.blockSize r.op r.lease.version r.lease.newVersion false dataIo metaIo
    hclean
  rw [Cluster.perform]
  split
  next b' code heq =>
    rw [heq] at hrun
    rcases hrun with ⟨hsame, hcode⟩ | ⟨hio, hcheck, hperf⟩
    · simp only at hsame hcode
      subst hsame
      rw [if_neg hcode]
      exact ((h.record _).setBlock _ (record_faithful (.inr hheld))).setStage
        fun _ _ _ _ _ hst => by cases hst
    · have hb' : b' = b.perform r.op r.lease.newVersion false := congrArg Prod.fst hperf
      have hver : b'.version = b.bumped r.lease.newVersion false := by rw [hb']; rfl
      have hfaith : b'.Faithful (s.record b').history :=
        record_faithful (.inl (hver ▸ hnew hcheck hio))
      have hrec : b.recovering = false := Node.Block.check_recovering hcheck
      refine ((h.record _).setBlock _ hfaith).setStage ?_
      intro r' hr' old' before after hst
      obtain rfl : r' = r := Option.some.inj (hr'.symm.trans hr)
      split at hst
      next =>
        cases hst
        refine ⟨_, record_le s b' _ _ (hheld hrec), ?_⟩
        have hnow := hfaith (by rw [hb']; exact hrec)
        rw [hb'] at hnow ⊢
        exact hnow
      next => cases hst

/-- A notice at a replica. -/
theorem onNotify (h : Consistent s) {n : Notify} (hn : n.Truthful s.history) (dst : Nat)
    {dataIo metaIo : IoResult} (hclean : dataIo.Clean) :
    Consistent (s.onNotify p dst n dataIo metaIo) := by
  rw [Cluster.onNotify]
  split
  next => exact h
  next b hb =>
    have hheld := h.faithful_getBlock hb
    have hafter : (b.run p.blockSize n.op n.version n.newVersion true dataIo metaIo).1.Faithful
        s.history := by
      rcases b.run_clean p.blockSize n.op n.version n.newVersion true dataIo metaIo
        fun _ => hclean with ⟨hsame, _⟩ | ⟨_, hcheck, hperf⟩
      · rw [hsame]
        exact hheld
      · rw [hperf]
        intro _
        obtain ⟨c, hold, hnew⟩ := hn
        have hcur := hheld (Node.Block.check_recovering hcheck)
        rw [Node.Block.check_strict hcheck, hold, Option.some.injEq] at hcur
        subst hcur
        exact hnew
    split
    next b' heq =>
      rw [heq] at hafter
      exact (h.setBlock dst hafter).sendReport _ _
    next b' _ _ heq =>
      rw [heq] at hafter
      exact h.setBlock dst hafter

/-- A serial step keeps the invariant. -/
theorem step {a : Act} {s' : Cluster} (h : Consistent s) (ha : Serial p s a)
    (hs : s.step p a = some s') : Consistent s' := by
  cases a with
  | grant now useAble ds =>
      cases hs
      exact h.grant _ _ _
  | start l op now =>
      obtain ⟨lease, _, rfl⟩ := Option.map_eq_some_iff.mp hs
      exact h.start _ _ _
  | perform i dataIo metaIo =>
      simp only [Cluster.step] at hs
      split at hs
      next l op old hr =>
        obtain ⟨b, hb, rfl⟩ := Option.map_eq_some_iff.mp hs
        have hok := ha _ hr b hb
        exact h.perform hr hb (fun hc => (hok hc).1) (fun hc => (hok hc).2)
      next => cases hs
  | finish i =>
      simp only [Cluster.step] at hs
      split at hs
      next l op old before after hr =>
        obtain ⟨b, hb, rfl⟩ := Option.map_eq_some_iff.mp hs
        refine ((h.sendNotify _ fun hothers => ?_).sendReport _ _).setStage
          fun _ _ _ _ _ hst => by cases hst
        obtain ⟨hold, hver⟩ := ha _ hr b hb hothers
        rw [hold, hver]
        exact h.done _ (List.mem_of_getElem? hr) old before after rfl
      next => cases hs
  | deliver src dst dataIo metaIo =>
      obtain ⟨n, hn, rfl⟩ := Option.map_eq_some_iff.mp hs
      have htrue := h.sent src dst n (List.mem_of_mem_head? hn)
      exact (h.popLink src dst).onNotify htrue dst ha
  | lose src dst =>
      cases hs
      exact h.popLink src dst
  | update src =>
      obtain ⟨r, _, rfl⟩ := Option.map_eq_some_iff.mp hs
      have hpop := h.popReport src
      exact ⟨hpop.zero, hpop.held, hpop.sent, hpop.done⟩
  | loseReport src =>
      cases hs
      exact h.popReport src

end Consistent

/-! ## Runs -/

/-- In every run of serial steps, copies of one version are equal. -/
theorem replicas_agree (p : Params) {s : Cluster} (h : (replication p).Run (Serial p) s) :
    Agree s :=
  (Transition.System.Run.invariant (fun _ hf => Consistent.of_fresh hf)
    (fun _ _ _ hc ha hs => hc.step ha hs) h).agree

/-- A master with two servers, batches of one kilobyte and blocks of one
megabyte. -/
def twoServers : Params := { master := Master.oneMinute, batchSize := 1024, blockSize := 1048576 }

/-- The master grants server 1 a lease, with server 2 to follow. -/
def grantFirst : Act := .grant 1000 (fun _ => true) [1, 2]

/-- An append of one batch. -/
def appendBatch (x : UInt8) : Op := .append (List.replicate 1024 x)

/-- Two appends that overlap: both read version 0 first and `2 ^ 32 + 1` last.
The notice of the first is delivered. -/
def racingAppends : List Act :=
  [grantFirst, .start 0 (appendBatch 65) 1000, .start 0 (appendBatch 66) 1000,
    .perform 0 .success .success, .perform 1 .success .success,
    .finish 0, .finish 1, .deliver 1 2 .success .success]

/-- One append and its notice. -/
def singleAppend : List Act :=
  [grantFirst, .start 0 (appendBatch 65) 1000, .perform 0 .success .success, .finish 0,
    .deliver 1 2 .success .success, .update 1, .update 2]

/-- The version and size of a server's copy, unless it is recovering. -/
def Cluster.status (s : Cluster) (server : Nat) : Option (Int64 × Int) :=
  match s.block server with
  | some b => if b.recovering then none else some (b.version, b.size)
  | none => none

theorem Cluster.status_eq_some {s : Cluster} {server : Nat} {v : Int64} {size : Int}
    (h : s.status server = some (v, size)) :
    ∃ b, s.block server = some b ∧ b.recovering = false ∧ b.version = v ∧ b.size = size := by
  rw [Cluster.status] at h
  split at h
  next b hb =>
    split at h
    next => cases h
    next hrec =>
      cases h
      exact ⟨b, hb, by simpa using hrec, rfl, rfl⟩
  next => cases h

theorem Cluster.fresh_default (m : Master.Block) : Cluster.Fresh { master := m } :=
  ⟨rfl, fun _ _ => rfl, rfl, fun _ _ h => by cases h⟩

/-- Overlapping appends leave two servers with one version and two sizes. -/
theorem racing_appends_diverge :
    ¬ ∀ s, (replication twoServers).Reachable s → Agree s := by
  intro h
  have hrun : (Transition.exec (Cluster.step twoServers) { master := { id := 7 } }
      racingAppends).map (fun s => (s.status 1, s.status 2)) =
      some (some (0x100000001, 2048), some (0x100000001, 1024)) := by
    decide +kernel
  obtain ⟨s, hs, hstatus⟩ := Option.map_eq_some_iff.mp hrun
  rw [Prod.mk.injEq] at hstatus
  obtain ⟨b1, hb1, hr1, hv1, hz1⟩ := Cluster.status_eq_some hstatus.1
  obtain ⟨b2, hb2, hr2, hv2, hz2⟩ := Cluster.status_eq_some hstatus.2
  have hagree := h s (Transition.exec_reachable (Cluster.fresh_default _) hs)
  have hsize := (hagree 1 2 b1 b2 hb1 hb2 (hv1.trans hv2.symm) hr1 hr2).1
  rw [hz1, hz2] at hsize
  exact absurd hsize (by decide)

/-- After one append both servers hold the same kilobyte. -/
theorem replicas_agree_single_append :
    ∃ s, Transition.exec (Cluster.step twoServers) { master := { id := 7 } } singleAppend = some s ∧
      s.status 1 = some (0x100000000, 1024) ∧ s.status 2 = some (0x100000000, 1024) ∧
      Agree s := by
  have hrun : (Transition.exec (Cluster.step twoServers) { master := { id := 7 } }
      singleAppend).map (fun s => (s.status 1, s.status 2)) =
      some (some (0x100000000, 1024), some (0x100000000, 1024)) := by
    decide +kernel
  obtain ⟨s, hs, hstatus⟩ := Option.map_eq_some_iff.mp hrun
  rw [Prod.mk.injEq] at hstatus
  have hserial : Transition.Guarded (Cluster.step twoServers) (Serial twoServers)
      { master := { id := 7 } } singleAppend := by
    decide +kernel
  exact ⟨s, hs, hstatus.1, hstatus.2, replicas_agree twoServers
    (Transition.exec_run (.start (Cluster.fresh_default _)) hserial hs)⟩

end Ofs
