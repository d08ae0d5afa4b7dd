import Zookeeper.Paxos.Joining

/-!
# Leaders that propose and commit

What a leader does keeps `Cluster.Inv`.  A bill that it saves or commits goes to all
connections in its table in the same step (`Inv.broadcast`).  When a draft has a majority of
the votes, a majority has logged it, also where the vote of the server that asked for it
does not count, since the leader itself has (`Inv.majority`).  The common log may then grow to
that of the leader (`Inv.commits`).
-/

namespace Paxos

open Majority ReplicatedLog

variable {n : Nat} {σ τ : Type}

/-! ## Drafts -/

namespace Cluster

namespace DraftsSound

variable {zxId : Int64} {lead : Lead n} {d : Draft n} {ds : List (Draft n)}

theorem tail (h : DraftsSound zxId lead) (hds : ds <:+ lead.uncommit) :
    DraftsSound zxId { lead with uncommit := ds } where
  given d hd := h.given d (hds.subset hd)
  ascending := h.ascending.sublist hds.sublist
  above d hd := h.above d (hds.subset hd)
  next := h.next

theorem enqueue_eq (h : DraftsSound zxId lead) (hn : IsDraftId lead.nextId) (id : Fin n)
    (requestId : Int64) (data : Bytes) :
    lead.enqueue id requestId data = { lead with
      nextId := lead.nextId + 1
      uncommit := lead.uncommit ++
        [⟨id, requestId, zxIdOf lead.peerEpoch lead.nextId, data, {id}⟩] } := by
  let d : Draft n := ⟨id, requestId, zxIdOf lead.peerEpoch lead.nextId, data, {id}⟩
  have hlast : insertDraft d lead.uncommit = lead.uncommit ++ [d] :=
    insertDraft_last fun x hx => (h.given x hx).lt hn
  unfold Lead.enqueue
  dsimp only
  rw [hlast]

theorem enqueue (h : DraftsSound zxId lead) (hn : IsDraftId lead.nextId) (id : Fin n)
    (requestId : Int64) (data : Bytes) :
    DraftsSound zxId (lead.enqueue id requestId data) := by
  rw [h.enqueue_eq hn]
  refine ⟨fun d hd => ?_, ?_, fun d hd => ?_, fun k hk hle => ?_⟩
  · rcases List.mem_append.mp hd with hd | hd
    · obtain ⟨k, hk, hlt, heq⟩ := h.given d hd
      exact ⟨k, hk, Int64.lt_trans hlt hn.lt_add_one, heq⟩
    · cases List.mem_singleton.mp hd
      exact ⟨lead.nextId, hn, hn.lt_add_one, rfl⟩
  · refine List.pairwise_append.mpr ⟨h.ascending, List.pairwise_singleton .., ?_⟩
    intro d hd d' hd'
    cases List.mem_singleton.mp hd'
    exact (h.given d hd).lt hn
  · rcases List.mem_append.mp hd with hd | hd
    · exact h.above d hd
    · cases List.mem_singleton.mp hd
      exact h.next lead.nextId hn Int64.le_rfl
  · exact h.next k hk (Int64.le_trans (Int64.le_of_lt hn.lt_add_one) hle)

/-- Behind the commit of the first draft. -/
theorem commit (h : DraftsSound zxId lead) (hq : lead.uncommit = d :: ds) :
    DraftsSound d.zxId { lead with uncommit := ds } where
  given d' hd' := h.given d' (by rw [hq]; exact .tail _ hd')
  ascending := by
    have hascending := h.ascending
    rw [hq] at hascending
    exact hascending.of_cons
  above := by
    have hascending := h.ascending
    rw [hq] at hascending
    exact (List.pairwise_cons.mp hascending).1
  next k hk hle := by
    obtain ⟨k', hk', hlt, heq⟩ := h.given d (by rw [hq]; exact .head _)
    rw [heq]
    exact zxIdOf_lt_zxIdOf _ hk' hk (Int64.lt_of_lt_of_le hlt hle)

/-- Only the first draft has the id that is committed. -/
theorem erase_eq (h : DraftsSound zxId lead) (hq : lead.uncommit = d :: ds) :
    lead.erase d.zxId = { lead with uncommit := ds } := by
  have hascending := h.ascending
  rw [hq] at hascending
  have hrest : ds.filter (fun d' => d'.zxId ≠ d.zxId) = ds := by
    refine List.filter_eq_self.mpr fun d' hd' => decide_eq_true ?_
    exact (Int64.ne_of_lt ((List.pairwise_cons.mp hascending).1 d' hd')).symm
  rw [Lead.erase]
  rw [hq, List.filter_cons_of_neg (by simp), hrest]

end DraftsSound

open Member

variable {m : Machine σ τ} {s : Cluster n σ} {common : List Bill} {i : Fin n}
  {l l' : Leadership n} {d : Draft n} {ds : List (Draft n)}

/-! ## A leader's log -/

section Log

variable (h : s.Inv common) (hl : (s.members i).leading = some l) (hq : l.lead.uncommit = d :: ds)

include h hl hq

theorem Inv.uncommit_eq : (s.members i).data.uncommit = [⟨d.zxId, d.data⟩] := by
  have hfirst := (h.queues i l hl).first
  rw [hq] at hfirst
  exact hfirst

theorem Inv.above (bill : Bill) (hbill : bill ∈ (s.members i).applied) : bill.zxId < d.zxId := by
  have hle : (s.members i).applied <+: common := h.agreed.applied_le i
  have hlast := le_lastOf (h.ascending.sublist hle.sublist)
    (fun bill hbill => h.positive bill (hle.subset hbill)) hbill
  rw [← (h.sound i).zxId] at hlast
  exact Int64.lt_of_le_of_lt hlast ((h.queues i l hl).drafts.above d (by rw [hq]; exact .head _))

theorem Inv.log_eq : (s.members i).log = (s.members i).applied ++ [⟨d.zxId, d.data⟩] := by
  rw [Member.log, h.uncommit_eq hl hq]

theorem Inv.log_ascending : (s.members i).log.Pairwise fun a b => a.zxId < b.zxId := by
  have hle : (s.members i).applied <+: common := h.agreed.applied_le i
  rw [h.log_eq hl hq]
  refine List.pairwise_append.mpr ⟨h.ascending.sublist hle.sublist, List.pairwise_singleton .., ?_⟩
  intro bill hbill b hb
  cases List.mem_singleton.mp hb
  exact h.above hl hq bill hbill

theorem Inv.log_positive (bill : Bill) (hbill : bill ∈ (s.members i).log) : 0 < bill.zxId := by
  have hle : (s.members i).applied <+: common := h.agreed.applied_le i
  rw [h.log_eq hl hq] at hbill
  rcases List.mem_append.mp hbill with hbill | hbill
  · exact h.positive bill (hle.subset hbill)
  · cases List.mem_singleton.mp hbill
    refine Int64.lt_of_le_of_lt ?_ ((h.queues i l hl).drafts.above d (by rw [hq]; exact .head _))
    rw [(h.sound i).zxId]
    exact lastOf_nonneg fun bill hbill => h.positive bill (hle.subset hbill)

/-- Whoever has acknowledged the first draft has logged all that the leader has. -/
theorem Inv.acked_le {p : Fin n} (hacked : Acked s.members i p d.zxId) :
    (s.members i).log <+: (s.members p).log := by
  obtain ⟨log, hi, hp, hlast⟩ := hacked
  rw [h.log_eq hl hq, List.prefix_concat_iff] at hi
  rcases hi with rfl | hi
  · rwa [h.log_eq hl hq]
  · obtain ⟨bill, hbill, heq⟩ := Option.map_eq_some_iff.mp hlast
    have hlt := h.above hl hq bill (hi.subset (List.mem_of_getLast? hbill))
    rw [heq] at hlt
    exact absurd hlt Int64.lt_irrefl

/-- Behind a majority of votes stands a majority of logs.  The server that asked may not
have logged the draft, and then the leader stands in for it. -/
theorem Inv.majority (hcard : n / 2 + 1 ≤ d.vote.card) :
    ∃ Q : Finset (Fin n), IsMajority Q ∧ ∀ p ∈ Q, (s.members i).log <+: (s.members p).log := by
  have hmajority : IsMajority d.vote := by
    rw [IsMajority]
    rwa [Fintype.card_fin]
  have hvotes := (h.queues i l hl).votes d (by rw [hq]; rfl)
  by_cases hi : i ∈ d.vote
  · refine ⟨d.vote, hmajority, fun p hp => ?_⟩
    rcases hvotes p hp with rfl | ⟨-, hle⟩
    · rcases hvotes i hi with heq | ⟨hne, -⟩
      · rw [← heq]
      · exact absurd rfl hne
    · exact hle
  · refine ⟨insert i (d.vote.erase d.id), hmajority.exchange hi, fun p hp => ?_⟩
    rcases Finset.mem_insert.mp hp with rfl | hp
    · exact List.prefix_rfl
    · obtain ⟨hne, hp⟩ := Finset.mem_erase.mp hp
      rcases hvotes p hp with heq | ⟨-, hle⟩
      · exact absurd heq hne
      · exact hle

/-- The common log grows to that of the leader. -/
theorem Inv.commits (hcard : n / 2 + 1 ≤ d.vote.card) :
    ∃ common', s.Inv common' ∧ (s.members i).log <+: common' := by
  obtain ⟨Q, hQ, hlogs⟩ := h.majority hl hq hcard
  obtain ⟨common', hle, hlog, hcommon, hagreed⟩ := h.agreed.commit hQ hlogs
  refine ⟨common', { h with agreed := hagreed, ascending := ?_, positive := ?_, sent := ?_ }, hlog⟩
  · rcases hcommon with rfl | rfl
    · exact h.ascending
    · exact h.log_ascending hl hq
  · rcases hcommon with rfl | rfl
    · exact h.positive
    · exact h.log_positive hl hq
  · exact fun k c hc => (h.sent k c hc).trans hle

end Log

/-! ## What a leader sends -/

theorem setMember_setMember (s : Cluster n σ) (i : Fin n) (x x' : Member n σ) :
    (s.setMember i x).setMember i x' = s.setMember i x' := by
  unfold Cluster.setMember
  rw [Function.update_idem]

theorem setMember_setLeading (s : Cluster n σ) (i : Fin n) (x : Member n σ)
    (l : Option (Leadership n)) :
    (s.setMember i x).setLeading i l = s.setMember i { x with leading := l } := by
  rw [Cluster.setLeading, setMember_self, setMember_setMember]

theorem broadcast_setLeading (s : Cluster n σ) (i : Fin n) (l : Leadership n) (frame : DownFrame)
    (l' : Option (Leadership n)) :
    (s.broadcast i l frame).setLeading i l' = (s.setLeading i l').broadcast i l frame := by
  have hcopy : ((s.setLeading i l').members i).copy = (s.members i).copy := by
    rw [Cluster.setLeading, setMember_self]
    rfl
  unfold Cluster.broadcast
  rw [hcopy]
  rfl

/-- What a broadcast does to a connection. -/
def forward (i : Fin n) (l : Leadership n) (frame : DownFrame) (copy : List Bill × List Bill)
    (k : Nat) (c : Connection n) : Connection n :=
  if c.lead = i ∧ l.forwarding c.id = some k then
    { c with down := c.down ++ [frame], sent := copy }
  else c

theorem forward_pos {frame : DownFrame} {copy : List Bill × List Bill} {k : Nat} {c : Connection n}
    (hk : c.lead = i ∧ l.forwarding c.id = some k) :
    forward i l frame copy k c = { c with down := c.down ++ [frame], sent := copy } := if_pos hk

theorem forward_neg {frame : DownFrame} {copy : List Bill × List Bill} {k : Nat} {c : Connection n}
    (hk : ¬ (c.lead = i ∧ l.forwarding c.id = some k)) : forward i l frame copy k c = c := if_neg hk

/-- A frame goes to the connections of a table that lead to what the leader had before.  The
leader's own table is empty meanwhile. -/
theorem Inv.forward (h : s.Inv common) {frame : DownFrame} (hframe : frame.isOpening = false)
    (hsent : ∀ k c, s.connections k = some c → c.lead = i ∧ l.forwarding c.id = some k →
      c.handler.copied = true ∧ frame.act c.sent = some (s.members i).copy)
    (hempty : ∀ l₀, (s.members i).leading = some l₀ → ∀ p, l₀.forwarding p = none) :
    (s.broadcast i l frame).Inv common := by
  refine h.map (Cluster.forward i l frame (s.members i).copy) ?_ ?_ ?_ ?_ ?_
  · intro k c _
    by_cases hk : c.lead = i ∧ l.forwarding c.id = some k
    · rw [forward_pos hk]
      exact ⟨rfl, rfl⟩
    · rw [forward_neg hk]
      exact ⟨rfl, rfl⟩
  · intro k c hc
    by_cases hk : c.lead = i ∧ l.forwarding c.id = some k
    · rw [forward_pos hk]
      exact h.agreed.applied_le i
    · rw [forward_neg hk]
      exact h.sent k c hc
  · intro k c hc hreads
    by_cases hk : c.lead = i ∧ l.forwarding c.id = some k
    · rw [forward_pos hk] at hreads ⊢
      obtain ⟨hcopied, hact⟩ := hsent k c hc hk
      exact (h.readers k c hc hreads).push hcopied hframe hact
    · rw [forward_neg hk] at hreads ⊢
      exact h.readers k c hc hreads
  · intro k c hc hopen
    by_cases hk : c.lead = i ∧ l.forwarding c.id = some k
    · rw [forward_pos hk] at hopen ⊢
      have hhandler := h.handlers k c hc hopen
      refine ⟨hhandler.leading, hhandler.distinct, fun _ => ?_, hhandler.acks⟩
      rw [show c.lead = i from hk.1]
      exact List.prefix_rfl
    · rw [forward_neg hk] at hopen ⊢
      exact h.handlers k c hc hopen
  · intro l₀ k c hc hl₀ hk₀
    obtain ⟨c', hc', -, -, hcopied, hcopy⟩ := h.tables c.lead l₀ hl₀ c.id k hk₀
    cases hc.symm.trans hc'
    have hne : c.lead ≠ i := by
      intro hlead
      rw [hlead] at hl₀
      cases (hempty l₀ hl₀ c.id).symm.trans hk₀
    rw [forward_neg fun hk => hne hk.1]
    exact ⟨hcopied, hcopy⟩

/-- A leader's data set changes, and a frame about it goes to all in its table. -/
theorem Inv.broadcast (h : s.Inv common) {x : Member n σ} {frame : DownFrame}
    (hl : (s.members i).leading = some l) (hx : x.leading = some l')
    (hfollowing : x.following = (s.members i).following)
    (hforwarding : l'.forwarding = l.forwarding) (hframe : frame.isOpening = false)
    (hact : frame.act (s.members i).copy = some x.copy) (happlied : x.applied <+: common)
    (hsound : x.Sound) (hqueue : QueueSound (s.setMember i x).members i l'.lead) :
    ((s.setMember i x).broadcast i l frame).Inv common := by
  have hlog : (s.members i).log <+: x.log := (DownFrame.act_le hframe hact).2
  have hnone : x.following = none := hfollowing.trans (h.idle hl)
  -- the table is empty while the connections change
  let l₀ : Leadership n := { l' with forwarding := fun _ => none }
  let x₀ : Member n σ := { x with leading := some l₀ }
  have hself : (s.setMember i x₀).members i = x₀ := setMember_self ..
  have hmember : (s.setMember i x₀).Inv common := by
    refine h.setMember hlog happlied ⟨hsound.zxId, hsound.minZxId⟩ ?_ ?_ ?_ ?_ ?_
    · intro l₁ hl₁
      cases hl₁
      have hgrows : Grows (s.setMember i x).members ((s.setMember i x).setMember i x₀).members := by
        refine grows_update ?_
        rw [setMember_self]
        exact List.prefix_rfl
      rw [setMember_setMember] at hgrows
      refine hqueue.grow hgrows ?_
      rw [hself, setMember_self]
      exact ⟨rfl, rfl⟩
    · intro l₁ hl₁ p k hk
      cases hl₁
      cases hk
    · rintro k c hc hreads rfl
      cases (h.idle hl).symm.trans (h.readers k c hc hreads).following
    · intro hleading
      cases hleading
    · intro k hk
      cases hnone.symm.trans hk
  have hforward : ((s.setMember i x₀).broadcast i l frame).Inv common := by
    refine hmember.forward hframe ?_ ?_
    · rintro k c hc ⟨rfl, hk⟩
      obtain ⟨c', hc', -, -, hcopied, hcopy⟩ := h.tables c.lead l hl c.id k hk
      cases hc.symm.trans hc'
      refine ⟨hcopied, ?_⟩
      rw [hcopy, hself]
      exact hact
    · intro l₁ hl₁ p
      rw [hself] at hl₁
      cases hl₁
      rfl
  have hleads : (((s.setMember i x₀).broadcast i l frame).setLeading i (some l')).Inv common := by
    refine hforward.setLeading ((congrArg Member.following hself).trans hnone) l'
      (hforward.queues i l₀ (congrArg Member.leading hself)) fun p k hk => ?_
    rw [hforwarding] at hk
    obtain ⟨c, hc, rfl, rfl, hcopied, -⟩ := h.tables i l hl p k hk
    refine ⟨_, Option.map_eq_some_iff.mpr ⟨c, hc, rfl⟩, ?_⟩
    rw [if_pos ⟨rfl, hk⟩]
    exact ⟨rfl, rfl, hcopied, rfl⟩
  have hx₀ : ({ x₀ with leading := some l' } : Member n σ) = x := by
    rw [← hx]
  rw [broadcast_setLeading, setMember_setLeading, hx₀] at hleads
  exact hleads

/-- A broadcast reads only the table. -/
theorem broadcast_congr (s : Cluster n σ) (i : Fin n) (frame : DownFrame)
    (h : l'.forwarding = l.forwarding) : s.broadcast i l' frame = s.broadcast i l frame := by
  unfold Cluster.broadcast
  rw [h]

/-- The first draft is saved and sent. -/
theorem Inv.launch (h : s.Inv common) (hl : (s.members i).leading = some l)
    (hforwarding : l'.forwarding = l.forwarding) (huncommit : (s.members i).data.uncommit = [])
    (hq : l'.lead.uncommit = d :: ds) (hdrafts : DraftsSound (s.members i).data.zxId l'.lead)
    (hvotes : ∀ d' ∈ l'.lead.uncommit, d'.vote = {d'.id}) {launch : Launch n}
    (hsaved : launch.saved = some d) (hthrown : launch.thrown = false) :
    ((s.setLeading i (some l')).launch i l' launch).Inv common := by
  let bill : Bill := ⟨d.zxId, d.data⟩
  let x : Member n σ := { ((s.members i).propose bill true).1 with leading := some l' }
  have hself : (s.setMember i x).members i = x := setMember_self ..
  have heq : (s.setLeading i (some l')).launch i l' launch =
      (s.setMember i x).broadcast i l (.propose bill) := by
    rw [Cluster.launch]
    rw [hsaved, hthrown]
    dsimp only
    rw [if_neg Bool.false_ne_true, broadcast_congr _ _ _ hforwarding, Cluster.setLeading,
      setMember_self, setMember_setMember]
    rfl
  rw [heq]
  refine h.broadcast hl rfl rfl hforwarding rfl rfl (h.agreed.applied_le i)
    ⟨(h.sound i).zxId, (h.sound i).minZxId⟩ ⟨?_, ?_, ?_, ?_⟩
  · rw [hself]
    exact hdrafts
  · rw [hself, hq]
    change (s.members i).data.uncommit ++ [bill] = _
    rw [huncommit]
    rfl
  · intro d' hd' p hp
    rw [hq] at hd'
    cases hd'
    rw [hvotes d (by rw [hq]; exact .head _)] at hp
    exact .inl (Finset.mem_singleton.mp hp)
  · exact fun d' hd' => hvotes d' (List.mem_of_mem_tail hd')

/-- A draft is queued, and launched if it is the only one. -/
theorem Inv.propose (h : s.Inv common) (hl : (s.members i).leading = some l)
    (hn : IsDraftId l.lead.nextId) (id : Fin n) (requestId : Int64) (data : Bytes)
    (save : Int64 → Bool) : (s.propose i l id requestId data save).Inv common := by
  have hqueue := h.queues i l hl
  let d : Draft n := ⟨id, requestId, zxIdOf l.lead.peerEpoch l.lead.nextId, data, {id}⟩
  let lead : Lead n := l.lead.enqueue id requestId data
  have hlead : lead.uncommit = l.lead.uncommit ++ [d] := by
    rw [show lead = _ from hqueue.drafts.enqueue_eq hn id requestId data]
  have hdrafts : DraftsSound (s.members i).data.zxId lead :=
    hqueue.drafts.enqueue hn id requestId data
  rw [Cluster.propose, Lead.propose]
  dsimp only
  cases hq : l.lead.uncommit with
  | nil =>
      have hone : lead.uncommit = [d] := by rw [hlead, hq, List.nil_append]
      have huncommit : (s.members i).data.uncommit = [] := by
        rw [hqueue.first, hq]
        rfl
      rw [if_pos (show lead.uncommit.length = 1 by rw [hone]; rfl)]
      rw [Lead.launchNextDraft]
      dsimp only
      rw [show (l.lead.enqueue id requestId data).uncommit = [d] from hone]
      rw [launchLoop]
      split
      next =>
        let l' : Leadership n := { l with lead := { lead with uncommit := [d] } }
        have htable : l'.forwarding = l.forwarding := rfl
        have hvotes : ∀ d' ∈ l'.lead.uncommit, d'.vote = {d'.id} := by
          intro d' hd'
          cases List.mem_singleton.mp hd'
          rfl
        exact h.launch hl htable huncommit rfl (hdrafts.tail (by rw [hone])) hvotes rfl rfl
      next =>
        exact h.setLeading (h.idle hl) _ (.of_nil (hdrafts.tail List.nil_suffix) rfl huncommit)
          (h.tables i l hl)
  | cons first ds =>
      have hmore : ¬ lead.uncommit.length = 1 := by
        rw [hlead, hq, List.length_append, List.length_cons, List.length_singleton]
        omega
      rw [if_neg hmore]
      refine h.setLeading (h.idle hl) _ ⟨hdrafts, ?_, ?_, ?_⟩ (h.tables i l hl)
      · rw [hqueue.first, hq]
        change _ = (lead.uncommit.head?.map fun d => (⟨d.zxId, d.data⟩ : Bill)).toList
        rw [hlead, hq]
        rfl
      · change ∀ d' ∈ lead.uncommit.head?, _
        rw [hlead, hq]
        intro d' hd'
        exact hqueue.votes d' (by rwa [hq])
      · change ∀ d' ∈ lead.uncommit.tail, _
        rw [hlead, hq]
        intro d' hd'
        rcases List.mem_append.mp hd' with hd' | hd'
        · exact hqueue.tail d' (by rwa [hq])
        · cases List.mem_singleton.mp hd'
          rfl

/-! ## What a leader commits -/

/-- One more vote for the first draft. -/
def withVote (d : Draft n) (p : Fin n) : Draft n := { d with vote := insert p d.vote }

theorem Inv.voted (h : s.Inv common) (hl : (s.members i).leading = some l)
    (hq : l.lead.uncommit = d :: ds) {p : Fin n} (hp : p ≠ i)
    (hacked : Acked s.members i p d.zxId) :
    QueueSound s.members i { l.lead with uncommit := withVote d p :: ds } := by
  have hqueue := h.queues i l hl
  have hdrafts := hqueue.drafts
  refine ⟨⟨fun d' hd' => ?_, ?_, fun d' hd' => ?_, hdrafts.next⟩, ?_, ?_, ?_⟩
  · rcases List.mem_cons.mp hd' with rfl | hd'
    · exact hdrafts.given d (by rw [hq]; exact .head _)
    · exact hdrafts.given d' (by rw [hq]; exact .tail _ hd')
  · have hascending := hdrafts.ascending
    rw [hq] at hascending
    exact List.pairwise_cons.mpr (List.pairwise_cons.mp hascending)
  · rcases List.mem_cons.mp hd' with rfl | hd'
    · exact hdrafts.above d (by rw [hq]; exact .head _)
    · exact hdrafts.above d' (by rw [hq]; exact .tail _ hd')
  · rw [h.uncommit_eq hl hq]
    rfl
  · intro d' hd' q hv
    cases hd'
    rcases Finset.mem_insert.mp hv with rfl | hv
    · exact .inr ⟨hp, h.acked_le hl hq hacked⟩
    · exact hqueue.votes d (by rw [hq]; rfl) q hv
  · intro d' hd'
    exact hqueue.tail d' (by rwa [hq])

theorem afterCommit_eq {lead : Lead n} {zxId : Int64} (hdrafts : DraftsSound zxId lead)
    (hq : lead.uncommit = d :: ds) {save : Int64 → Bool}
    (hsave : ∀ d' ∈ ds, save d'.zxId = true) :
    lead.afterCommit d.zxId save = ({ lead with uncommit := ds },
      ds.head?.map fun d' => { uncommit := ds, saved := some d' }) := by
  rw [Lead.afterCommit]
  rw [hdrafts.erase_eq hq]
  cases ds with
  | nil => rfl
  | cons d' ds =>
      dsimp only
      rw [if_neg (List.cons_ne_nil _ _)]
      rw [Lead.launchNextDraft, launchLoop]
      dsimp only
      rw [if_pos (hsave d' (.head _))]
      rfl

/-- The first draft is committed, and the next one is launched. -/
theorem Inv.committed (h : s.Inv common) (hl : (s.members i).leading = some l)
    (hq : l.lead.uncommit = d :: ds) (hlog : (s.members i).log <+: common) (k : Nat)
    {save : Int64 → Bool} (hsave : ∀ d' ∈ ds, save d'.zxId = true) {data : DataSet σ}
    (huncommit : data.uncommit = []) (hz : data.zxId = d.zxId)
    (hmin : data.minZxId = (s.members i).data.minZxId) :
    ((s.setMember i { s.members i with
      data := data, applied := (s.members i).applied ++ [⟨d.zxId, d.data⟩] }).committed i l k
        d.zxId save).Inv common := by
  have hqueue := h.queues i l hl
  let bill : Bill := ⟨d.zxId, d.data⟩
  -- the queue is empty until the next draft is launched
  let lead : Lead n := { l.lead with uncommit := [] }
  let x : Member n σ := { s.members i with
    data := data, applied := (s.members i).applied ++ [bill] }
  let x₀ : Member n σ := { x with leading := some { l with lead := lead } }
  have hself : (s.setMember i x₀).members i = x₀ := setMember_self ..
  have hdrafts : DraftsSound data.zxId { l.lead with uncommit := ds } := by
    rw [hz]
    exact hqueue.drafts.commit hq
  have hcommit : ((s.setMember i x₀).broadcast i l (.commit d.zxId)).Inv common := by
    have hx : x.Sound := (h.sound i).commit hz hmin
    refine h.broadcast hl rfl rfl rfl rfl ?_ ?_ ⟨hx.zxId, hx.minZxId⟩ (.of_nil ?_ rfl ?_)
    · unfold DownFrame.act Member.copy
      rw [h.uncommit_eq hl hq]
      dsimp only
      rw [if_pos rfl, huncommit]
    · change (s.members i).applied ++ [bill] <+: common
      rwa [← h.log_eq hl hq]
    · rw [hself]
      exact hdrafts.tail List.nil_suffix
    · rw [hself]
      exact huncommit
  let l' : Leadership n := { l with lead := { l.lead with uncommit := ds } }
  have heq : ((s.setMember i x).broadcast i l (.commit d.zxId)).setLeading i (some l') =
      ((s.setMember i x₀).broadcast i l (.commit d.zxId)).setLeading i (some l') := by
    rw [broadcast_setLeading, broadcast_setLeading, setMember_setLeading, setMember_setLeading]
  rw [Cluster.committed]
  rw [afterCommit_eq hqueue.drafts hq hsave]
  cases ds with
  | nil =>
      dsimp only [List.head?_nil, Option.map_none]
      rw [heq]
      exact hcommit.keepDrafts (congrArg Member.leading hself) _ rfl fun _ _ hk => hk
  | cons d' ds =>
      dsimp only [List.head?_cons, Option.map_some]
      rw [heq]
      let sent : Cluster n σ := (s.setMember i x₀).broadcast i l (.commit d.zxId)
      have hz' : (sent.members i).data.zxId = data.zxId :=
        congrArg (fun x : Member n σ => x.data.zxId) hself
      rw [← hz'] at hdrafts
      have huncommit' : (sent.members i).data.uncommit = [] :=
        (congrArg (fun x : Member n σ => x.data.uncommit) hself).trans huncommit
      have hvotes : ∀ e ∈ l'.lead.uncommit, e.vote = {e.id} :=
        fun e he => hqueue.tail e (by rwa [hq])
      have htable : l'.forwarding = ({ l with lead := lead } : Leadership n).forwarding := rfl
      have hlaunch : ((sent.setLeading i (some l')).launch i l'
          { uncommit := d' :: ds, saved := some d' }).Inv common :=
        hcommit.launch (congrArg Member.leading hself) htable huncommit' rfl hdrafts hvotes rfl rfl
      exact hlaunch.closeHandler k

/-- An acknowledgement is counted, and the draft is committed with a majority. -/
theorem Inv.ackPropose (h : s.Inv common) (hl : (s.members i).leading = some l) {p : Fin n}
    (hp : p ≠ i) {zxId : Int64} (hacked : Acked s.members i p zxId) (k : Nat) {io : ReadIo τ}
    (happlies : (s.members i).Applies m io) {save : Int64 → Bool}
    (hsave : ∀ d ∈ l.lead.uncommit, save d.zxId = true) :
    ∃ common', (s.ackPropose m i l k p zxId io save).Inv common' := by
  rw [Cluster.ackPropose]
  rcases l.lead.vote_cases p zxId with hvote | ⟨d, ds, hq, rfl, hvote⟩
  · rw [hvote]
    exact ⟨common, h.keepDrafts hl _ rfl fun _ _ hk => hk⟩
  · change l.lead.vote p d.zxId = ({ l.lead with uncommit := withVote d p :: ds },
      if n / 2 + 1 ≤ (withVote d p).vote.card then some (withVote d p) else none) at hvote
    rw [hvote]
    let lv : Leadership n := { l with lead := { l.lead with uncommit := withVote d p :: ds } }
    have hv : (s.setLeading i (some lv)).Inv common :=
      h.setLeading (h.idle hl) lv (h.voted hl hq hp hacked) (h.tables i l hl)
    have hself : (s.setLeading i (some lv)).members i =
        { s.members i with leading := some lv } := setMember_self ..
    have hlv : ((s.setLeading i (some lv)).members i).leading = some lv :=
      congrArg Member.leading hself
    by_cases hcard : n / 2 + 1 ≤ (withVote d p).vote.card
    · rw [if_pos hcard]
      dsimp only
      obtain ⟨common', hv', hlog⟩ := hv.commits hlv (d := withVote d p) rfl hcard
      have huncommit : ((s.setLeading i (some lv)).members i).data.uncommit = [⟨d.zxId, d.data⟩] :=
        hv.uncommit_eq hlv (d := withVote d p) rfl
      obtain ⟨hsnap, happly⟩ := happlies
      have happlied : (m.applyBill ((s.setLeading i (some lv)).members i).data.stateData
          ⟨d.zxId, d.data⟩ (if d.id = i then io.transaction else none)).isSome = true := by
        obtain ⟨hwith, hwithout⟩ := happly ⟨d.zxId, d.data⟩ (by rw [h.uncommit_eq hl hq]; rfl)
        rw [hself]
        split
        · exact hwith
        · exact hwithout
      obtain ⟨data, hcommit, hdata, hz, hmin⟩ := commit_eq io.nextCount huncommit happlied
      have hreturns : ((s.setLeading i (some lv)).members i).commit m d.zxId
          (if (withVote d p).id = i then io.transaction else none) io.snapSaved io.nextCount =
            ({ (s.setLeading i (some lv)).members i with
              data := data
              applied := ((s.setLeading i (some lv)).members i).applied ++ [⟨d.zxId, d.data⟩] },
              none) := by
        rw [hsnap]
        exact hcommit
      rw [hreturns]
      exact ⟨common', hv'.committed hlv (d := withVote d p) rfl hlog k
        (fun d' hd' => hsave d' (by rw [hq]; exact .tail _ hd')) hdata hz hmin⟩
    · rw [if_neg hcard]
      exact ⟨common, hv⟩

end Cluster

end Paxos
