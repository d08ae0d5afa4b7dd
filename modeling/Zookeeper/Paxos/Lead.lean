import Mathlib.Data.Finset.Card
import Mathlib.Data.Fintype.Card
import Zookeeper.Bytes
import Zookeeper.Paxos.ZxId

/-!
# The leader's drafts

A leader queues the proposals it is given as drafts, in the order of their ids,
and launches one after the other: the first draft is saved and sent, and the
next one follows when a majority of the votes has committed it
(`paxos/paxos/lead.cpp`).  Servers are numbered from zero, by their slot in the
leader's tables.

`Lead.propose` and `Lead.ackPropose` are the two calls that change the queue.
Whether `DataSet::Propose` saves a draft is an argument.
-/

namespace Paxos

/-- `Lead::Draft`.  `vote` holds the slots set to true. -/
structure Draft (n : Nat) where
  /-- The server that asked for it. -/
  id : Fin n
  requestId : Int64
  zxId : Int64
  data : Bytes
  vote : Finset (Fin n) := ∅
deriving DecidableEq

/-- The part of `Lead` that the two calls use. -/
structure Lead (n : Nat) where
  id : Fin n
  peerEpoch : Int32
  nextId : Int64 := 1
  /-- `_uncommit`, in the order of the ids. -/
  uncommit : List (Draft n) := []
deriving DecidableEq

/-- What a call of `LaunchNextDraft` does. -/
structure Launch (n : Nat) where
  uncommit : List (Draft n)
  /-- The draft `DataSet::Propose` saved.  It is sent unless the call throws. -/
  saved : Option (Draft n) := none
  /-- The drafts it could not save and answered with a failure. -/
  failed : List (Draft n) := []
  ok : Bool := true
  thrown : Bool := false
deriving DecidableEq

/-- How `DataSet::Commit` ends. -/
inductive CommitEnd where
  | returns
  | throwsBefore
  /-- The bill is applied, and saving the snapshot fails. -/
  | throwsAfter
deriving DecidableEq, Repr

variable {n : Nat}

/-- Assignment to the map `_uncommit`. -/
def insertDraft (d : Draft n) : List (Draft n) → List (Draft n)
  | [] => [d]
  | x :: xs =>
      if d.zxId < x.zxId then d :: x :: xs
      else if x.zxId = d.zxId then d :: xs
      else x :: insertDraft d xs

/-- The loop of `Lead::LaunchNextDraft`.  The first draft that is saved or
answered releases the lock, and releasing it again throws. -/
def launchLoop (save : Int64 → Bool) : Bool → List (Draft n) → Launch n
  | _, [] => { uncommit := [] }
  | locked, d :: ds =>
      if save d.zxId then { uncommit := d :: ds, saved := some d, thrown := !locked }
      else if locked then
        let rest := launchLoop save false ds
        { rest with failed := d :: rest.failed, ok := false }
      else { uncommit := ds, ok := false, thrown := true }

namespace Lead

variable (l : Lead n)

/-- `Lead::LaunchNextDraft`, called with the lock held. -/
def launchNextDraft (save : Int64 → Bool) : Lead n × Launch n :=
  let launch := launchLoop save true l.uncommit
  ({ l with uncommit := launch.uncommit }, launch)

/-- The first lines of `Lead::Propose`: the draft is queued with the vote of
the server that asked for it. -/
def enqueue (id : Fin n) (requestId : Int64) (data : Bytes) : Lead n :=
  let zxId := zxIdOf l.peerEpoch l.nextId
  { l with
    nextId := l.nextId + 1
    uncommit := insertDraft { id, requestId, zxId, data, vote := {id} } l.uncommit }

/-- `Lead::Propose`, with what the launch does if there is one. -/
def propose (id : Fin n) (requestId : Int64) (data : Bytes) (save : Int64 → Bool) :
    Lead n × Option (Launch n) :=
  let l := l.enqueue id requestId data
  if l.uncommit.length = 1 then
    let (l, launch) := l.launchNextDraft save
    (l, some launch)
  else (l, none)

/-- The first lines of `Lead::AckPropose`: a vote for the first draft, and the
draft if that makes a majority. -/
def vote (id : Fin n) (zxId : Int64) : Lead n × Option (Draft n) :=
  match l.uncommit with
  | [] => (l, none)
  | d :: ds =>
      if d.zxId = zxId then
        let d := { d with vote := insert id d.vote }
        ({ l with uncommit := d :: ds }, if n / 2 + 1 ≤ d.vote.card then some d else none)
      else (l, none)

/-- Take a draft off the queue. -/
def erase (zxId : Int64) : Lead n :=
  { l with uncommit := l.uncommit.filter fun d => d.zxId ≠ zxId }

/-- The part of `Lead::AckPropose` behind `DataSet::Commit`: the draft is taken
off the queue and the next one is launched. -/
def afterCommit (zxId : Int64) (save : Int64 → Bool) : Lead n × Option (Launch n) :=
  let l := l.erase zxId
  if l.uncommit = [] then (l, none)
  else
    let (l, launch) := l.launchNextDraft save
    (l, some launch)

/-- `Lead::AckPropose` where `DataSet::Commit` returns: the draft committed, and
what the launch of the next one does. -/
def ackPropose (id : Fin n) (zxId : Int64) (save : Int64 → Bool) :
    Lead n × Option (Draft n) × Option (Launch n) :=
  match l.vote id zxId with
  | (l, none) => (l, none, none)
  | (l, some d) =>
      let (l, launch) := l.afterCommit zxId save
      (l, some d, launch)

end Lead

/-! ## The ids -/

/-- An id this leader has given to a draft. -/
def Lead.Given (l : Lead n) (zxId : Int64) : Prop :=
  ∃ k, IsDraftId k ∧ k < l.nextId ∧ zxId = zxIdOf l.peerEpoch k

theorem Lead.Given.lt {l : Lead n} {zxId : Int64} (h : l.Given zxId) (hn : IsDraftId l.nextId) :
    zxId < zxIdOf l.peerEpoch l.nextId := by
  obtain ⟨k, hk, hlt, rfl⟩ := h
  exact zxIdOf_lt_zxIdOf _ hk hn hlt

/-! ## The queue -/

/-- A draft with the greatest id goes to the end. -/
theorem insertDraft_last {d : Draft n} {ds : List (Draft n)} (h : ∀ x ∈ ds, x.zxId < d.zxId) :
    insertDraft d ds = ds ++ [d] := by
  induction ds with
  | nil => rfl
  | cons x xs ih =>
      have hx : x.zxId < d.zxId := h x (.head _)
      have hrest := ih fun y hy => h y (.tail _ hy)
      have hlt : ¬ d.zxId < x.zxId := by grind
      have hne : x.zxId ≠ d.zxId := by grind
      simp only [insertDraft, if_neg hlt, if_neg hne, hrest, List.cons_append]

theorem mem_insertDraft {d x : Draft n} {ds : List (Draft n)} (h : x ∈ insertDraft d ds) :
    x = d ∨ x ∈ ds := by
  induction ds with
  | nil => exact .inl (List.mem_singleton.mp h)
  | cons y ys ih =>
      rw [insertDraft] at h
      split at h
      next => exact List.mem_cons.mp h
      next =>
        split at h
        next => exact (List.mem_cons.mp h).imp id (.tail _)
        next =>
          rcases List.mem_cons.mp h with rfl | h
          · exact .inr (.head _)
          · exact (ih h).imp id (.tail _)

theorem insertDraft_ne_nil (d : Draft n) (ds : List (Draft n)) : insertDraft d ds ≠ [] := by
  cases ds with
  | nil => exact List.cons_ne_nil d []
  | cons x xs =>
      rw [insertDraft]
      split
      next => exact List.cons_ne_nil d _
      next =>
        split
        next => exact List.cons_ne_nil d _
        next => exact List.cons_ne_nil x _

/-- A queue of one is left where no other draft is. -/
theorem insertDraft_length_one (d : Draft n) (ds : List (Draft n)) :
    (insertDraft d ds).length = 1 ↔ (∀ x ∈ ds, x.zxId = d.zxId) ∧ ds.length ≤ 1 := by
  cases ds with
  | nil => simp [insertDraft]
  | cons x xs =>
      rw [insertDraft]
      split
      next hlt =>
        have hne : x.zxId ≠ d.zxId := fun heq => Int64.lt_irrefl (heq ▸ hlt)
        simp [hne]
      next =>
        split
        next heq => cases xs <;> simp [heq]
        next hne => simp [hne, insertDraft_ne_nil]

/-- The map stays in the order of its keys. -/
theorem insertDraft_ascending (d : Draft n) {ds : List (Draft n)}
    (h : ds.Pairwise fun x y => x.zxId < y.zxId) :
    (insertDraft d ds).Pairwise fun x y => x.zxId < y.zxId := by
  induction ds with
  | nil => exact List.pairwise_singleton _ d
  | cons x xs ih =>
      obtain ⟨hx, hxs⟩ := List.pairwise_cons.mp h
      rw [insertDraft]
      split
      next hlt =>
        refine List.pairwise_cons.mpr ⟨fun y hy => ?_, h⟩
        rcases List.mem_cons.mp hy with rfl | hy
        · exact hlt
        · exact Int64.lt_trans hlt (hx y hy)
      next hge =>
        split
        next heq => exact List.pairwise_cons.mpr ⟨fun y hy => heq ▸ hx y hy, hxs⟩
        next hne =>
          refine List.pairwise_cons.mpr ⟨fun y hy => ?_, ih hxs⟩
          rcases mem_insertDraft hy with rfl | hy
          · grind
          · exact hx y hy

/-- A launch takes drafts off the front. -/
theorem launchLoop_suffix (save : Int64 → Bool) (ds : List (Draft n)) (locked : Bool) :
    (launchLoop save locked ds).uncommit <:+ ds := by
  induction ds generalizing locked with
  | nil => exact List.nil_suffix
  | cons d ds ih =>
      rw [launchLoop]
      split
      · exact List.suffix_rfl
      · split
        · exact (ih false).trans (List.suffix_cons d ds)
        · exact List.suffix_cons d ds

namespace Lead

variable {l : Lead n}

/-- A voted-for draft is the first one, with one more vote. -/
theorem vote_cases (l : Lead n) (id : Fin n) (zxId : Int64) :
    l.vote id zxId = (l, none) ∨
      ∃ d ds, l.uncommit = d :: ds ∧ d.zxId = zxId ∧
        l.vote id zxId = ({ l with uncommit := { d with vote := insert id d.vote } :: ds },
          if n / 2 + 1 ≤ (insert id d.vote).card then some { d with vote := insert id d.vote }
          else none) := by
  rw [vote]
  cases hq : l.uncommit with
  | nil => exact .inl rfl
  | cons d ds =>
      simp only
      split
      next hz => exact .inr ⟨d, ds, rfl, hz, rfl⟩
      next => exact .inl rfl

@[simp] theorem vote_id (l : Lead n) (id : Fin n) (zxId : Int64) :
    (l.vote id zxId).1.id = l.id := by
  rcases l.vote_cases id zxId with heq | ⟨_, _, _, _, heq⟩ <;> rw [heq]

/-- A draft that is ready to be committed is the first one, and has a majority. -/
theorem vote_some {id : Fin n} {zxId : Int64} {d : Draft n} (h : (l.vote id zxId).2 = some d) :
    d.zxId = zxId ∧ n / 2 + 1 ≤ d.vote.card ∧
      ∃ ds, (l.vote id zxId).1 = { l with uncommit := d :: ds } := by
  rcases l.vote_cases id zxId with heq | ⟨d', ds, hq, hz, heq⟩
  · rw [heq] at h
    cases h
  · rw [heq] at h
    dsimp only at h
    split at h
    next hcard =>
      cases h
      exact ⟨hz, hcard, ds, by rw [heq]⟩
    next => cases h

/-- In a queue of one stands the draft that was queued last. -/
theorem enqueue_single (l : Lead n) {id : Fin n} {requestId : Int64} {data : Bytes}
    (hone : (l.enqueue id requestId data).uncommit.length = 1) :
    ∃ d, (l.enqueue id requestId data).uncommit = [d] ∧ d.zxId = zxIdOf l.peerEpoch l.nextId := by
  obtain ⟨d, hd⟩ := List.length_eq_one_iff.mp hone
  refine ⟨d, hd, ?_⟩
  obtain ⟨hids, -⟩ := (insertDraft_length_one _ _).mp hone
  have hmem : d ∈ (l.enqueue id requestId data).uncommit := by
    rw [hd]
    exact List.mem_singleton_self d
  rcases mem_insertDraft hmem with rfl | hold
  · rfl
  · exact hids d hold

/-- The first draft leaves the queue. -/
theorem erase_front {d : Draft n} {ds : List (Draft n)} (hq : l.uncommit = d :: ds)
    (h : l.uncommit.Pairwise fun x y => x.zxId < y.zxId) :
    l.erase d.zxId = { l with uncommit := ds } := by
  rw [hq] at h
  have hrest : ds.filter (fun x => x.zxId ≠ d.zxId) = ds := by
    rw [List.filter_eq_self]
    intro x hx
    have hlt := (List.pairwise_cons.mp h).1 x hx
    simp only [decide_eq_true_eq]
    grind
  rw [erase, hq, List.filter_cons_of_neg (by simp), hrest]

/-- Behind a commit, the draft leaves the queue and a launch may drop others. -/
theorem afterCommit_eq (l : Lead n) (zxId : Int64) (save : Int64 → Bool) :
    ∃ ds, ds <:+ l.uncommit.filter (fun d => d.zxId ≠ zxId) ∧
      (l.afterCommit zxId save).1 = { l with uncommit := ds } := by
  rw [afterCommit]
  dsimp only
  split
  next => exact ⟨_, List.suffix_rfl, rfl⟩
  next => exact ⟨_, launchLoop_suffix _ _ _, rfl⟩

/-- A proposal is queued, and a launch may drop drafts. -/
theorem propose_eq (l : Lead n) (id : Fin n) (requestId : Int64) (data : Bytes)
    (save : Int64 → Bool) :
    ∃ ds, ds <:+ (l.enqueue id requestId data).uncommit ∧
      (l.propose id requestId data save).1 =
        { l.enqueue id requestId data with uncommit := ds } := by
  rw [propose]
  dsimp only
  split
  · exact ⟨_, launchLoop_suffix _ _ _, rfl⟩
  · exact ⟨_, List.suffix_rfl, rfl⟩

/-- An acknowledgement votes, or votes and commits the first draft. -/
theorem ackPropose_cases (l : Lead n) (id : Fin n) (zxId : Int64) (save : Int64 → Bool) :
    l.ackPropose id zxId save = ((l.vote id zxId).1, none, none) ∨
      ∃ d launch, (l.vote id zxId).2 = some d ∧
        l.ackPropose id zxId save =
          (((l.vote id zxId).1.afterCommit zxId save).1, some d, launch) := by
  rw [ackPropose]
  rcases hv : l.vote id zxId with ⟨l', d⟩
  cases d with
  | none => exact .inl rfl
  | some d => exact .inr ⟨d, _, rfl, rfl⟩

end Lead

end Paxos
