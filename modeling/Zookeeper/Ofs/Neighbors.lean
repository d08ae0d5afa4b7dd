import Mathlib.Data.List.Basic
import Mathlib.Data.List.Nodup
import Mathlib.Data.Nat.Basic
import Mathlib.Logic.Embedding.Basic
import Mathlib.Logic.Function.Basic
import Mathlib.Order.Lattice
import Zookeeper.Transition

/-!
# How chunk servers find each other

A chunk server that registers is told of a neighbour that the master draws, and the neighbour
is told of it (`DataNodeService::OnRegister`).  Both pass on what they are told to the servers
they are connected to (`NodeService::OnNeighborNotify`), and a server that hears of one with a
greater id connects to it, once for each address (`MessageQueue::Connect`).  What is passed on
is not passed on again.

Messages may come in any order, and connections stay up.  What becomes of connections that end
is in `Zookeeper.Ofs.MessageQueue`.  The addresses of the servers differ.

Of two servers only the lower one dials, and only once (`one_connection`).  Where every server
registers once, and the next one when all is settled, the connections depend on nothing but the
order of the servers and the draws (`settled_links`).  All are connected to all if and only if
every server has a greater id than those before it, its neighbour apart (`settled_mesh_iff`).
-/

namespace Ofs.Neighbors

open Transition

variable {ι α : Type} [LinearOrder ι] [DecidableEq α]

/-! ## Messages and handlers -/

/-- `c2m::Neighbor`. -/
structure Neighbor (ι α : Type) where
  id : ι
  harbor : α
deriving DecidableEq

/-- `c2m::NeighborNotify` and `c2m::NeighborGossip`. -/
inductive Mail (ι α : Type) where
  | notify (neighbor : Neighbor ι α)
  | gossip (neighbor : Neighbor ι α)
deriving DecidableEq

def Mail.neighbor : Mail ι α → Neighbor ι α
  | .notify neighbor => neighbor
  | .gossip neighbor => neighbor

/-- The master and the message queues of the chunk servers. -/
structure Network (ι α : Type) where
  /-- The cluster addresses of the nodes that the master knows. -/
  registered : ι → Option α := fun _ => none
  /-- The ids whose `_node` is set, by server. -/
  nodes : ι → List ι := fun _ => []
  /-- `_connected`, by server. -/
  connected : ι → List α := fun _ => []
  /-- The coroutines of `Connect` that have no connection yet. -/
  waiting : List (ι × Neighbor ι α) := []
  /-- The first headers on their way: who gets it, and who has dialled. -/
  headers : List (ι × ι) := []
  /-- The messages on their way to a server. -/
  mail : List (ι × Mail ι α) := []
  /-- The connections: who has dialled whom.  No step depends on it. -/
  links : List (ι × ι) := []
  /-- Who has registered, and the neighbours, the last first.  No step depends on it. -/
  joined : List (ι × Option ι) := []

inductive Act (ι α : Type) where
  /-- `Register` of a server is handled, with the draw of `ChooseOne`. -/
  | register (p : ι) (neighbor : Option ι)
  | receive (p : ι) (mail : Mail ι α)
  /-- `hn_connect` returns, and the header is sent. -/
  | dial (p : ι) (neighbor : Neighbor ι α) (q : ι)
  /-- The header is read. -/
  | accept (q p : ι)

namespace Network

/-- `_node[i] = fd`. -/
def record (s : Network ι α) (p i : ι) : Network ι α :=
  { s with nodes := Function.update s.nodes p ((s.nodes p).insert i) }

/-- `MessageQueue::Connect`. -/
def connect (s : Network ι α) (p : ι) (neighbor : Neighbor ι α) : Network ι α :=
  if neighbor.harbor ∈ s.connected p then s
  else
    { s with
      connected := Function.update s.connected p (s.connected p ++ [neighbor.harbor])
      waiting := s.waiting ++ [(p, neighbor)] }

/-- `NodeService::OnNeighborGossip`. -/
def onNeighborGossip (s : Network ι α) (p : ι) (neighbor : Neighbor ι α) : Network ι α :=
  if p < neighbor.id then s.connect p neighbor else s

/-- `NodeService::OnNeighborNotify`. -/
def onNeighborNotify (s : Network ι α) (p : ι) (neighbor : Neighbor ι α) : Network ι α :=
  let s := { s with mail := s.mail ++ (s.nodes p).map fun i => (i, .gossip neighbor) }
  if p < neighbor.id then s.connect p neighbor else s

/-- `DataNodeService::OnRegister`. -/
def onRegister (harbor : ι → α) (s : Network ι α) (p : ι) (neighbor : Option ι) : Network ι α :=
  let s := { s with
    registered := Function.update s.registered p (some (harbor p))
    joined := (p, neighbor) :: s.joined }
  match neighbor.bind fun i => (s.registered i).map (Neighbor.mk i) with
  | none => s
  | some neighbor =>
      { s with
        mail := s.mail ++ [(p, .notify neighbor), (neighbor.id, .notify ⟨p, harbor p⟩)] }

/-- One step, where `harbor` says at which address a server listens. -/
def step (harbor : ι → α) (s : Network ι α) : Act ι α → Option (Network ι α)
  | .register p neighbor =>
      if ∀ i ∈ neighbor, i ≠ p ∧ (s.registered i).isSome = true then
        some (s.onRegister harbor p neighbor)
      else none
  | .receive p mail =>
      if (p, mail) ∈ s.mail then
        let s := { s with mail := s.mail.erase (p, mail) }
        match mail with
        | .notify neighbor => some (s.onNeighborNotify p neighbor)
        | .gossip neighbor => some (s.onNeighborGossip p neighbor)
      else none
  | .dial p neighbor q =>
      if (p, neighbor) ∈ s.waiting ∧ harbor q = neighbor.harbor then
        let s := { s with
          waiting := s.waiting.erase (p, neighbor)
          headers := s.headers ++ [(q, p)]
          links := (p, q) :: s.links }
        some (s.record p neighbor.id)
      else none
  | .accept q p =>
      if (q, p) ∈ s.headers then
        some ({ s with headers := s.headers.erase (q, p) }.record q p)
      else none

/-- Nothing is on its way. -/
def Settled (s : Network ι α) : Prop := s.mail = [] ∧ s.waiting = [] ∧ s.headers = []

end Network

/-- The servers that listen at their addresses. -/
def network (harbor : ι ↪ α) : System (Network ι α) (Act ι α) :=
  ofStep (fun s => s = {}) (Network.step harbor)

/-! ## What a step leaves -/

namespace Network

variable {harbor : ι ↪ α} {s s' : Network ι α} {p q : ι} {neighbor : Neighbor ι α}

omit [DecidableEq α] in
theorem mem_nodes_record {i j : ι} : j ∈ (s.record p i).nodes q ↔
    j ∈ s.nodes q ∨ q = p ∧ j = i := by
  rw [record]
  rcases eq_or_ne q p with rfl | hne
  · simp [or_comm]
  · simp [hne]

theorem mem_connected_connect {a : α} : a ∈ (s.connect p neighbor).connected q ↔
    a ∈ s.connected q ∨ q = p ∧ a = neighbor.harbor := by
  rw [connect]
  split
  next hold =>
    refine ⟨.inl, fun h => h.elim id ?_⟩
    rintro ⟨rfl, rfl⟩
    exact hold
  next =>
    rcases eq_or_ne q p with rfl | hne
    · simp
    · simp [hne]

theorem mem_waiting_connect {e : ι × Neighbor ι α} : e ∈ (s.connect p neighbor).waiting ↔
    e ∈ s.waiting ∨ neighbor.harbor ∉ s.connected p ∧ e = (p, neighbor) := by
  rw [connect]
  split
  next hold => simp [hold]
  next hnew => simp [hnew]

omit [DecidableEq α] in
theorem isSome_registered_update {i : ι} :
    (Function.update s.registered p (some (harbor p)) i).isSome = true ↔
      i = p ∨ (s.registered i).isSome = true := by
  rcases eq_or_ne i p with rfl | hne
  · simp
  · simp [hne]

/-- What hearing of a server does not change. -/
structure SameMail (s s' : Network ι α) : Prop where
  registered : s'.registered = s.registered
  nodes : s'.nodes = s.nodes
  headers : s'.headers = s.headers
  mail : s'.mail = s.mail
  links : s'.links = s.links
  joined : s'.joined = s.joined

theorem sameMail_connect (s : Network ι α) (p : ι) (neighbor : Neighbor ι α) :
    s.SameMail (s.connect p neighbor) := by
  rw [connect]
  split <;> exact ⟨rfl, rfl, rfl, rfl, rfl, rfl⟩

/-! ## Who dials whom -/

/-- Of two servers the lower one dials, once.  What is recorded are the connections. -/
structure Sound (harbor : ι ↪ α) (s : Network ι α) : Prop where
  registered : ∀ i a, s.registered i = some a → a = harbor i
  mail : ∀ p m, (p, m) ∈ s.mail → (s.registered p).isSome = true ∧
    m.neighbor.harbor = harbor m.neighbor.id ∧ (s.registered m.neighbor.id).isSome = true
  connected : ∀ p a, a ∈ s.connected p → ∃ q, a = harbor q ∧ p < q ∧
    (s.registered p).isSome = true ∧ (s.registered q).isSome = true
  waiting : ∀ p n, (p, n) ∈ s.waiting →
    n.harbor = harbor n.id ∧ n.harbor ∈ s.connected p ∧ (p, n.id) ∉ s.links
  waitingNodup : s.waiting.Nodup
  dialled : ∀ p q, harbor q ∈ s.connected p → (p, ⟨q, harbor q⟩) ∈ s.waiting ∨ (p, q) ∈ s.links
  linksNodup : s.links.Nodup
  links : ∀ p q, (p, q) ∈ s.links →
    harbor q ∈ s.connected p ∧ q ∈ s.nodes p ∧ ((q, p) ∈ s.headers ∨ p ∈ s.nodes q)
  headers : ∀ q p, (q, p) ∈ s.headers → (p, q) ∈ s.links
  nodes : ∀ p q, q ∈ s.nodes p → (p, q) ∈ s.links ∨ (q, p) ∈ s.links

namespace Sound

omit [DecidableEq α] in
theorem lt (h : s.Sound harbor) (hq : harbor q ∈ s.connected p) : p < q ∧
    (s.registered p).isSome = true ∧ (s.registered q).isSome = true := by
  obtain ⟨q', heq, hrest⟩ := h.connected p _ hq
  obtain rfl := harbor.injective heq
  exact hrest

omit [DecidableEq α] in
/-- Whom a server is connected to has registered, and so has the server. -/
theorem nodes_registered (h : s.Sound harbor) (hq : q ∈ s.nodes p) :
    (s.registered p).isSome = true ∧ (s.registered q).isSome = true := by
  rcases h.nodes p q hq with hlink | hlink
  · exact (h.lt (h.links _ _ hlink).1).2
  · exact (h.lt (h.links _ _ hlink).1).2.symm

theorem connect (h : s.Sound harbor) (hlt : p < neighbor.id)
    (hharbor : neighbor.harbor = harbor neighbor.id) (hp : (s.registered p).isSome = true)
    (hneighbor : (s.registered neighbor.id).isSome = true) :
    (s.connect p neighbor).Sound harbor := by
  have hsame := sameMail_connect s p neighbor
  refine ⟨?_, ?_, ?_, ?_, ?_, ?_, ?_, ?_, ?_, ?_⟩
  · rw [hsame.registered]
    exact h.registered
  · rw [hsame.registered, hsame.mail]
    exact h.mail
  · rw [hsame.registered]
    intro q a ha
    rcases mem_connected_connect.mp ha with hold | ⟨rfl, rfl⟩
    · exact h.connected q a hold
    · exact ⟨neighbor.id, hharbor, hlt, hp, hneighbor⟩
  · rw [hsame.links]
    intro q n hn
    rw [mem_connected_connect]
    rcases mem_waiting_connect.mp hn with hold | ⟨hnew, heq⟩
    · obtain ⟨heq, hconnected, hlink⟩ := h.waiting q n hold
      exact ⟨heq, .inl hconnected, hlink⟩
    · cases heq
      refine ⟨hharbor, .inr ⟨rfl, rfl⟩, fun hlink => hnew ?_⟩
      rw [hharbor]
      exact (h.links _ _ hlink).1
  · rw [Network.connect]
    split
    next => exact h.waitingNodup
    next hnew =>
      refine List.nodup_append.mpr ⟨h.waitingNodup, List.nodup_singleton _, ?_⟩
      rintro e he e' he' rfl
      cases List.mem_singleton.mp he'
      exact hnew (h.waiting _ _ he).2.1
  · rw [hsame.links]
    intro p' q hq
    rw [mem_waiting_connect]
    by_cases hold : harbor q ∈ s.connected p'
    · exact (h.dialled p' q hold).imp_left .inl
    · rcases mem_connected_connect.mp hq with hold' | ⟨rfl, heq⟩
      · exact absurd hold' hold
      · rw [heq] at hold
        rw [hharbor] at heq
        obtain rfl := harbor.injective heq
        exact .inl (.inr ⟨hold, by rw [← hharbor]⟩)
  · rw [hsame.links]
    exact h.linksNodup
  · rw [hsame.links, hsame.nodes, hsame.headers]
    intro p' q hlink
    obtain ⟨hconnected, hrest⟩ := h.links p' q hlink
    exact ⟨mem_connected_connect.mpr (.inl hconnected), hrest⟩
  · rw [hsame.headers, hsame.links]
    exact h.headers
  · rw [hsame.nodes, hsame.links]
    exact h.nodes

/-- A server hears of another one. -/
theorem hears (h : s.Sound harbor) (hharbor : neighbor.harbor = harbor neighbor.id)
    (hp : (s.registered p).isSome = true)
    (hneighbor : (s.registered neighbor.id).isSome = true) :
    (s.onNeighborGossip p neighbor).Sound harbor := by
  rw [onNeighborGossip]
  split
  next hlt => exact h.connect hlt hharbor hp hneighbor
  next => exact h

omit [DecidableEq α] in
/-- Other messages that are as they have to be. -/
theorem setMail (h : s.Sound harbor) (mail : List (ι × Mail ι α))
    (hmail : ∀ p m, (p, m) ∈ mail → (s.registered p).isSome = true ∧
      m.neighbor.harbor = harbor m.neighbor.id ∧ (s.registered m.neighbor.id).isSome = true) :
    { s with mail := mail }.Sound harbor :=
  ⟨h.registered, hmail, h.connected, h.waiting, h.waitingNodup, h.dialled, h.linksNodup, h.links,
    h.headers, h.nodes⟩

theorem onNeighborNotify (h : s.Sound harbor) (hharbor : neighbor.harbor = harbor neighbor.id)
    (hp : (s.registered p).isSome = true)
    (hneighbor : (s.registered neighbor.id).isSome = true) :
    (s.onNeighborNotify p neighbor).Sound harbor := by
  refine hears (h.setMail _ fun i m hm => ?_) hharbor hp hneighbor
  rcases List.mem_append.mp hm with hold | hnew
  · exact h.mail i m hold
  · obtain ⟨i', hi, heq⟩ := List.mem_map.mp hnew
    cases heq
    exact ⟨(h.nodes_registered hi).2, hharbor, hneighbor⟩

omit [DecidableEq α] in
theorem onRegister (h : s.Sound harbor) (p : ι) (neighbor : Option ι) :
    (s.onRegister harbor p neighbor).Sound harbor := by
  have hstays {i : ι} (hi : (s.registered i).isSome = true) :
      (Function.update s.registered p (some (harbor p)) i).isSome = true :=
    isSome_registered_update.mpr (.inr hi)
  have hregistered : ({ s with
      registered := Function.update s.registered p (some (harbor p))
      joined := (p, neighbor) :: s.joined } : Network ι α).Sound harbor := by
    refine ⟨fun i a ha => ?_, fun i m hm => ?_, fun i a ha => ?_, h.waiting, h.waitingNodup,
      h.dialled, h.linksNodup, h.links, h.headers, h.nodes⟩
    · dsimp only at ha
      rcases eq_or_ne i p with rfl | hne
      · rw [Function.update_self] at ha
        exact (Option.some.inj ha).symm
      · rw [Function.update_of_ne hne] at ha
        exact h.registered i a ha
    · obtain ⟨hi, hharbor, hneighbor⟩ := h.mail i m hm
      exact ⟨hstays hi, hharbor, hstays hneighbor⟩
    · obtain ⟨q, rfl, hlt, hi, hq⟩ := h.connected i a ha
      exact ⟨q, rfl, hlt, hstays hi, hstays hq⟩
  rw [Network.onRegister]
  dsimp only
  split
  next => exact hregistered
  next n hn =>
    obtain ⟨i, -, hi⟩ := Option.bind_eq_some_iff.mp hn
    obtain ⟨a, ha, rfl⟩ := Option.map_eq_some_iff.mp hi
    have hself : (Function.update s.registered p (some (harbor p)) p).isSome = true :=
      isSome_registered_update.mpr (.inl rfl)
    have hother : (Function.update s.registered p (some (harbor p)) i).isSome = true := by
      rw [ha]
      rfl
    refine hregistered.setMail _ fun j m hm => ?_
    rcases List.mem_append.mp hm with hold | hnew
    · exact hregistered.mail j m hold
    · rcases List.mem_cons.mp hnew with heq | hlast
      · cases heq
        exact ⟨hself, hregistered.registered i a ha, hother⟩
      · cases List.mem_singleton.mp hlast
        exact ⟨hother, rfl, hself⟩

omit [DecidableEq α] in
/-- The neighbour that is told is the server at its address. -/
theorem onRegister_some (h : s.Sound harbor) {n : ι} (hne : n ≠ p)
    (hn : (s.registered n).isSome = true) :
    s.onRegister harbor p (some n) = { s with
      registered := Function.update s.registered p (some (harbor p))
      joined := (p, some n) :: s.joined
      mail := s.mail ++ [(p, .notify ⟨n, harbor n⟩), (n, .notify ⟨p, harbor p⟩)] } := by
  obtain ⟨a, ha⟩ := Option.isSome_iff_exists.mp hn
  obtain rfl := h.registered n a ha
  rw [Network.onRegister]
  simp only [Option.bind_some, Function.update_of_ne hne, ha, Option.map_some]

theorem dial (h : s.Sound harbor) (hwaiting : (p, neighbor) ∈ s.waiting)
    (hlistens : harbor q = neighbor.harbor) :
    ({ s with
        waiting := s.waiting.erase (p, neighbor)
        headers := s.headers ++ [(q, p)]
        links := (p, q) :: s.links }.record p neighbor.id : Network ι α).Sound harbor := by
  obtain ⟨hharbor, hconnected, hlink⟩ := h.waiting p neighbor hwaiting
  obtain rfl : q = neighbor.id := harbor.injective (hlistens.trans hharbor)
  refine ⟨h.registered, h.mail, h.connected, fun p' n hn => ?_, h.waitingNodup.erase _,
    fun p' q hq => ?_, ?_, fun p' q hq => ?_, fun q p' hq => ?_, fun p' q hq => ?_⟩
  · obtain ⟨heq, hconnected', hlink'⟩ := h.waiting p' n (List.mem_of_mem_erase hn)
    refine ⟨heq, hconnected', fun hmem => ?_⟩
    rcases List.mem_cons.mp hmem with hsame | hold
    · obtain ⟨rfl, hid⟩ := Prod.mk.injEq .. ▸ hsame
      have hn' : n = neighbor := by
        cases n
        cases neighbor
        simp_all
      rw [hn'] at hn
      exact h.waitingNodup.not_mem_erase hn
    · exact hlink' hold
  · by_cases hsame : (p', (⟨q, harbor q⟩ : Neighbor ι α)) = (p, neighbor)
    · cases hsame
      exact .inr (.head _)
    · exact (h.dialled p' q hq).imp (List.mem_erase_of_ne hsame).mpr (.tail _)
  · exact List.nodup_cons.mpr ⟨hlink, h.linksNodup⟩
  · rw [mem_nodes_record, mem_nodes_record]
    rcases List.mem_cons.mp hq with hsame | hold
    · cases hsame
      refine ⟨hharbor ▸ hconnected, .inr ⟨rfl, rfl⟩, .inl ?_⟩
      exact List.mem_append_right _ (List.mem_singleton.mpr rfl)
    · obtain ⟨hconnected', hnodes, hrest⟩ := h.links p' q hold
      exact ⟨hconnected', .inl hnodes, hrest.imp (List.mem_append_left _) .inl⟩
  · rcases List.mem_append.mp hq with hold | hnew
    · exact .tail _ (h.headers q p' hold)
    · cases List.mem_singleton.mp hnew
      exact .head _
  · rcases mem_nodes_record.mp hq with hold | ⟨rfl, rfl⟩
    · exact (h.nodes p' q hold).imp (.tail _) (.tail _)
    · exact .inl (.head _)

omit [DecidableEq α] in
theorem accept (h : s.Sound harbor) (hheader : (q, p) ∈ s.headers) :
    ({ s with headers := s.headers.erase (q, p) }.record q p : Network ι α).Sound harbor := by
  refine ⟨h.registered, h.mail, h.connected, h.waiting, h.waitingNodup, h.dialled, h.linksNodup,
    fun p' q' hlink => ?_, fun q' p' hq => h.headers q' p' (List.mem_of_mem_erase hq),
    fun p' q' hq => ?_⟩
  · rw [mem_nodes_record, mem_nodes_record]
    obtain ⟨hconnected, hnodes, hrest⟩ := h.links p' q' hlink
    refine ⟨hconnected, .inl hnodes, ?_⟩
    by_cases hsame : (q', p') = (q, p)
    · cases hsame
      exact .inr (.inr ⟨rfl, rfl⟩)
    · exact hrest.imp (List.mem_erase_of_ne hsame).mpr .inl
  · rcases mem_nodes_record.mp hq with hold | ⟨rfl, rfl⟩
    · exact h.nodes p' q' hold
    · exact .inr (h.headers _ _ hheader)

theorem step (h : s.Sound harbor) {a : Act ι α} (hs : s.step harbor a = some s') :
    s'.Sound harbor := by
  cases a with
  | register p neighbor =>
      rw [Network.step] at hs
      split at hs <;> cases hs
      exact h.onRegister p neighbor
  | receive p mail =>
      rw [Network.step] at hs
      split at hs
      next hmem =>
        obtain ⟨hp, hharbor, hneighbor⟩ := h.mail p mail hmem
        have htaken := h.setMail (s.mail.erase (p, mail))
          fun i m hm => h.mail i m (List.mem_of_mem_erase hm)
        cases mail with
        | notify neighbor =>
            cases hs
            exact htaken.onNeighborNotify hharbor hp hneighbor
        | gossip neighbor =>
            cases hs
            exact htaken.hears hharbor hp hneighbor
      next => cases hs
  | dial p neighbor q =>
      rw [Network.step] at hs
      split at hs
      next hdial =>
        cases hs
        exact h.dial hdial.1 hdial.2
      next => cases hs
  | accept q p =>
      rw [Network.step] at hs
      split at hs
      next hheader =>
        cases hs
        exact h.accept hheader
      next => cases hs

end Sound

/-! ## The connections that the draws lead to -/

end Network

/-- Who is connected when everything is settled.  A server is connected to its neighbour, and to
those of its neighbour's connections that have a lesser id. -/
def Linked : List (ι × Option ι) → ι → ι → Prop
  | [], _, _ => False
  | (_, none) :: joined, p, q => Linked joined p q
  | (x, some n) :: joined, p, q =>
      Linked joined p q ∨ p = x ∧ (q = n ∨ q < x ∧ Linked joined n q) ∨
        q = x ∧ (p = n ∨ p < x ∧ Linked joined n p)

/-- Every server has registered once, and its neighbour before it. -/
def Ordered : List (ι × Option ι) → Prop
  | [] => True
  | (x, neighbor) :: joined =>
      x ∉ joined.map Prod.fst ∧ (∀ n ∈ neighbor, n ∈ joined.map Prod.fst) ∧ Ordered joined

/-- Every server but the first has a neighbour, and a greater id than all before it but that. -/
def Ascending : List (ι × Option ι) → Prop
  | [] => True
  | (x, neighbor) :: joined =>
      (∀ p ∈ joined.map Prod.fst, ∃ n, neighbor = some n ∧ (p = n ∨ p < x)) ∧ Ascending joined

section Joined

variable {joined : List (ι × Option ι)} {p q : ι}

theorem linked_symm (h : Linked joined p q) : Linked joined q p := by
  induction joined with
  | nil => exact h
  | cons e joined ih =>
      obtain ⟨x, neighbor⟩ := e
      cases neighbor with
      | none => exact ih h
      | some n =>
          rcases h with hold | hp | hq
          · exact .inl (ih hold)
          · exact .inr (.inr hp)
          · exact .inr (.inl hq)

theorem mem_of_linked (hordered : Ordered joined) (h : Linked joined p q) :
    p ∈ joined.map Prod.fst ∧ q ∈ joined.map Prod.fst := by
  induction joined generalizing p q with
  | nil => exact h.elim
  | cons e joined ih =>
      obtain ⟨x, neighbor⟩ := e
      obtain ⟨-, hneighbor, hrest⟩ := hordered
      rw [List.map_cons]
      cases neighbor with
      | none =>
          obtain ⟨hp, hq⟩ := ih hrest h
          exact ⟨.tail _ hp, .tail _ hq⟩
      | some n =>
          have hn : n ∈ joined.map Prod.fst := hneighbor n rfl
          have hmeets {i : ι} (hi : i = n ∨ i < x ∧ Linked joined n i) :
              i ∈ joined.map Prod.fst := by
            rcases hi with rfl | ⟨-, hi⟩
            · exact hn
            · exact (ih hrest hi).2
          rcases h with hold | ⟨rfl, hq⟩ | ⟨rfl, hp⟩
          · obtain ⟨hp, hq⟩ := ih hrest hold
            exact ⟨.tail _ hp, .tail _ hq⟩
          · exact ⟨.head _, .tail _ (hmeets hq)⟩
          · exact ⟨.tail _ (hmeets hp), .head _⟩

theorem ne_of_linked (hordered : Ordered joined) (h : Linked joined p q) : p ≠ q := by
  induction joined with
  | nil => exact h.elim
  | cons e joined ih =>
      obtain ⟨x, neighbor⟩ := e
      obtain ⟨hnew, hneighbor, hrest⟩ := hordered
      cases neighbor with
      | none => exact ih hrest h
      | some n =>
          have hmeets {i : ι} (hi : i = n ∨ i < x ∧ Linked joined n i) : i ≠ x := by
            rcases hi with rfl | ⟨hlt, -⟩
            · rintro rfl
              exact hnew (hneighbor _ rfl)
            · exact ne_of_lt hlt
          rcases h with hold | ⟨rfl, hq⟩ | ⟨rfl, hp⟩
          · exact ih hrest hold
          · exact (hmeets hq).symm
          · exact hmeets hp

/-- All are connected if and only if the ids ascend, the neighbours apart. -/
theorem linked_all_iff (hordered : Ordered joined) :
    (∀ p ∈ joined.map Prod.fst, ∀ q ∈ joined.map Prod.fst, p ≠ q → Linked joined p q) ↔
      Ascending joined := by
  induction joined with
  | nil => exact iff_of_true nofun trivial
  | cons e joined ih =>
      obtain ⟨x, neighbor⟩ := e
      obtain ⟨hnew, hneighbor, hrest⟩ := hordered
      rw [Ascending, ← ih hrest, List.map_cons]
      constructor
      · intro hall
        have hold : ∀ p ∈ joined.map Prod.fst, ∀ q ∈ joined.map Prod.fst, p ≠ q →
            Linked joined p q := by
          intro p hp q hq hne
          have hlinked := hall p (.tail _ hp) q (.tail _ hq) hne
          cases neighbor with
          | none => exact hlinked
          | some n =>
              rcases hlinked with hold | ⟨rfl, -⟩ | ⟨rfl, -⟩
              · exact hold
              · exact absurd hp hnew
              · exact absurd hq hnew
        refine ⟨fun p hp => ?_, hold⟩
        have hne : p ≠ x := fun heq => hnew (heq ▸ hp)
        have hlinked := hall x (.head _) p (.tail _ hp) hne.symm
        cases neighbor with
        | none => exact absurd (mem_of_linked hrest hlinked).1 hnew
        | some n =>
            refine ⟨n, rfl, ?_⟩
            rcases hlinked with hold | ⟨-, hmeets⟩ | ⟨heq, -⟩
            · exact absurd (mem_of_linked hrest hold).1 hnew
            · exact hmeets.imp_right And.left
            · exact absurd heq hne
      · rintro ⟨hgreater, hold⟩
        have hnewest {p : ι} (hp : p ∈ joined.map Prod.fst) :
            Linked ((x, neighbor) :: joined) x p := by
          obtain ⟨n, rfl, hmeets⟩ := hgreater p hp
          refine .inr (.inl ⟨rfl, ?_⟩)
          by_cases heq : p = n
          · exact .inl heq
          · exact .inr ⟨hmeets.resolve_left heq, hold n (hneighbor n rfl) p hp (Ne.symm heq)⟩
        intro p hp q hq hne
        rcases List.mem_cons.mp hp with rfl | hp' <;> rcases List.mem_cons.mp hq with rfl | hq'
        · exact absurd rfl hne
        · exact hnewest hq'
        · exact linked_symm (hnewest hp')
        · have hlinked := hold p hp' q hq' hne
          cases neighbor with
          | none => exact hlinked
          | some n => exact .inl hlinked

end Joined

namespace Network

variable {harbor : ι ↪ α} {s s' : Network ι α} {p q : ι} {neighbor : Neighbor ι α}

/-- Every server registers once, and the next one when all is settled. -/
def OneByOne (s : Network ι α) : Act ι α → Prop
  | .register p _ => s.Settled ∧ s.registered p = none
  | _ => True

instance (s : Network ι α) : Decidable s.Settled :=
  inferInstanceAs (Decidable (_ ∧ _ ∧ _))

instance (s : Network ι α) : (a : Act ι α) → Decidable (s.OneByOne a)
  | .register _ _ => inferInstanceAs (Decidable (_ ∧ _))
  | .receive _ _ | .dial _ _ _ | .accept _ _ => inferInstanceAs (Decidable True)

/-- A server will hear of another one. -/
def OnWay (harbor : ι ↪ α) (s : Network ι α) (p q : ι) : Prop :=
  (p, .notify ⟨q, harbor q⟩) ∈ s.mail ∨ (p, .gossip ⟨q, harbor q⟩) ∈ s.mail ∨
    ∃ i, (i, .notify ⟨q, harbor q⟩) ∈ s.mail ∧ p ∈ s.nodes i

/-- Nobody hears of a server that it is not to be connected to. -/
structure Told (harbor : ι ↪ α) (s : Network ι α) : Prop where
  ordered : Ordered s.joined
  registered : ∀ p, (s.registered p).isSome = true ↔ p ∈ s.joined.map Prod.fst
  connected : ∀ p q, harbor q ∈ s.connected p → Linked s.joined p q
  gossip : ∀ p n, (p, .gossip n) ∈ s.mail → p < n.id → Linked s.joined p n.id
  notify : ∀ p n, (p, .notify n) ∈ s.mail → Linked s.joined p n.id ∧
    ∀ i, Linked s.joined p i → i < n.id → Linked s.joined i n.id

/-- And everybody has dialled those it is to be connected to, or will hear of them. -/
structure Settles (harbor : ι ↪ α) (s : Network ι α) : Prop extends s.Told harbor where
  complete : ∀ p q, p < q → Linked s.joined p q → harbor q ∈ s.connected p ∨ s.OnWay harbor p q

omit [DecidableEq α] in
theorem Told.linked_of_nodes (h : s.Told harbor) (hsound : s.Sound harbor) (hq : q ∈ s.nodes p) :
    Linked s.joined p q := by
  rcases hsound.nodes p q hq with hlink | hlink
  · exact h.connected p q (hsound.links p q hlink).1
  · exact linked_symm (h.connected q p (hsound.links q p hlink).1)

/-- A server hears of another one that it is to be connected to. -/
theorem Told.hears (h : s.Told harbor) (hharbor : neighbor.harbor = harbor neighbor.id)
    (hlinked : p < neighbor.id → Linked s.joined p neighbor.id)
    (hcomplete : ∀ i q, i < q → Linked s.joined i q →
      i = p ∧ q = neighbor.id ∨ harbor q ∈ s.connected i ∨ s.OnWay harbor i q) :
    (s.onNeighborGossip p neighbor).Settles harbor := by
  rw [onNeighborGossip]
  split
  next hlt =>
    have hsame := sameMail_connect s p neighbor
    refine ⟨⟨?_, ?_, fun i q hq => ?_, ?_, ?_⟩, fun i q hiq hl => ?_⟩
    · rw [hsame.joined]
      exact h.ordered
    · rw [hsame.registered, hsame.joined]
      exact h.registered
    · rw [hsame.joined]
      rcases mem_connected_connect.mp hq with hold | ⟨rfl, heq⟩
      · exact h.connected i q hold
      · obtain rfl := harbor.injective (heq.trans hharbor)
        exact hlinked hlt
    · rw [hsame.mail, hsame.joined]
      exact h.gossip
    · rw [hsame.mail, hsame.joined]
      exact h.notify
    · rw [OnWay, hsame.mail, hsame.nodes, mem_connected_connect]
      rw [hsame.joined] at hl
      rcases hcomplete i q hiq hl with ⟨rfl, rfl⟩ | hold | hway
      · exact .inl (.inr ⟨rfl, hharbor.symm⟩)
      · exact .inl (.inl hold)
      · exact .inr hway
  next hle =>
    refine ⟨h, fun i q hiq hl => (hcomplete i q hiq hl).resolve_left ?_⟩
    rintro ⟨rfl, rfl⟩
    exact hle hiq

namespace Settles

omit [DecidableEq α] in
/-- When nothing is on its way, the connections are as they have to be. -/
theorem nodes_iff (h : s.Settles harbor) (hsound : s.Sound harbor) (hsettled : s.Settled) :
    q ∈ s.nodes p ↔ Linked s.joined p q := by
  obtain ⟨hmail, hwaiting, hheaders⟩ := hsettled
  have hlinks {p q : ι} (hlt : p < q) (hlinked : Linked s.joined p q) : (p, q) ∈ s.links := by
    rcases h.complete p q hlt hlinked with hconnected | hway
    · rcases hsound.dialled p q hconnected with hwaits | hlink
      · rw [hwaiting] at hwaits
        cases hwaits
      · exact hlink
    · rw [OnWay, hmail] at hway
      rcases hway with hm | hm | ⟨i, hm, -⟩ <;> cases hm
  refine ⟨h.linked_of_nodes hsound, fun hlinked => ?_⟩
  rcases lt_or_gt_of_ne (ne_of_linked h.ordered hlinked) with hlt | hlt
  · exact (hsound.links p q (hlinks hlt hlinked)).2.1
  · rcases (hsound.links q p (hlinks hlt (linked_symm hlinked))).2.2 with hheader | hnodes
    · rw [hheaders] at hheader
      cases hheader
    · exact hnodes

theorem receiveGossip (h : s.Settles harbor) (hsound : s.Sound harbor)
    (hmem : (p, .gossip neighbor) ∈ s.mail) :
    (Network.onNeighborGossip { s with mail := s.mail.erase (p, .gossip neighbor) }
      p neighbor).Settles harbor := by
  obtain ⟨-, hharbor, -⟩ := hsound.mail p _ hmem
  refine Told.hears ⟨h.ordered, h.registered, h.connected,
    fun i n hm => h.gossip i n (List.mem_of_mem_erase hm),
    fun i n hm => h.notify i n (List.mem_of_mem_erase hm)⟩ hharbor (h.gossip p neighbor hmem)
    fun i q hiq hl => ?_
  rcases h.complete i q hiq hl with hold | hnotify | hgossip | ⟨j, hnotify, hnodes⟩
  · exact .inr (.inl hold)
  · exact .inr (.inr (.inl ((List.mem_erase_of_ne (by simp)).mpr hnotify)))
  · by_cases hsame : (i, Mail.gossip ⟨q, harbor q⟩) = (p, .gossip neighbor)
    · cases hsame
      exact .inl ⟨rfl, rfl⟩
    · exact .inr (.inr (.inr (.inl ((List.mem_erase_of_ne hsame).mpr hgossip))))
  · exact .inr (.inr (.inr (.inr ⟨j, (List.mem_erase_of_ne (by simp)).mpr hnotify, hnodes⟩)))

/-- What is passed on reaches those who are connected to the neighbour. -/
theorem receiveNotify (h : s.Settles harbor) (hsound : s.Sound harbor)
    (hmem : (p, .notify neighbor) ∈ s.mail) :
    (Network.onNeighborNotify { s with mail := s.mail.erase (p, .notify neighbor) }
      p neighbor).Settles harbor := by
  obtain ⟨-, hharbor, -⟩ := hsound.mail p _ hmem
  obtain ⟨hlinked, hothers⟩ := h.notify p neighbor hmem
  refine Told.hears (s := { s with
      mail := s.mail.erase (p, .notify neighbor) ++
        (s.nodes p).map fun i => (i, .gossip neighbor) })
    ⟨h.ordered, h.registered, h.connected, fun i n hm => ?_, fun i n hm => ?_⟩ hharbor
    (fun _ => hlinked) fun i q hiq hl => ?_
  · rcases List.mem_append.mp hm with hold | hnew
    · exact h.gossip i n (List.mem_of_mem_erase hold)
    · obtain ⟨j, hj, heq⟩ := List.mem_map.mp hnew
      cases heq
      exact hothers i (h.linked_of_nodes hsound hj)
  · rcases List.mem_append.mp hm with hold | hnew
    · exact h.notify i n (List.mem_of_mem_erase hold)
    · obtain ⟨j, -, heq⟩ := List.mem_map.mp hnew
      cases heq
  · rcases h.complete i q hiq hl with hold | hnotify | hgossip | ⟨j, hnotify, hnodes⟩
    · exact .inr (.inl hold)
    · by_cases hsame : (i, Mail.notify ⟨q, harbor q⟩) = (p, .notify neighbor)
      · cases hsame
        exact .inl ⟨rfl, rfl⟩
      · exact .inr (.inr (.inl (List.mem_append_left _ ((List.mem_erase_of_ne hsame).mpr hnotify))))
    · refine .inr (.inr (.inr (.inl (List.mem_append_left _ ?_))))
      exact (List.mem_erase_of_ne (by simp)).mpr hgossip
    · by_cases hsame : (j, Mail.notify ⟨q, harbor q⟩) = (p, .notify neighbor)
      · cases hsame
        refine .inr (.inr (.inr (.inl (List.mem_append_right _ ?_))))
        exact List.mem_map.mpr ⟨i, hnodes, rfl⟩
      · refine .inr (.inr (.inr (.inr ⟨j, List.mem_append_left _ ?_, hnodes⟩)))
        exact (List.mem_erase_of_ne hsame).mpr hnotify

omit [DecidableEq α] in
/-- More is recorded. -/
theorem grow (h : s.Settles harbor) (hregistered : s'.registered = s.registered)
    (hconnected : s'.connected = s.connected) (hmail : s'.mail = s.mail)
    (hjoined : s'.joined = s.joined) (hnodes : ∀ i, s.nodes i ⊆ s'.nodes i) :
    s'.Settles harbor := by
  refine ⟨⟨?_, ?_, ?_, ?_, ?_⟩, ?_⟩
  · rw [hjoined]
    exact h.ordered
  · rw [hregistered, hjoined]
    exact h.registered
  · rw [hconnected, hjoined]
    exact h.connected
  · rw [hmail, hjoined]
    exact h.gossip
  · rw [hmail, hjoined]
    exact h.notify
  · intro i q hiq hl
    rw [hconnected, OnWay, hmail]
    rw [hjoined] at hl
    refine (h.complete i q hiq hl).imp_right (.imp_right (.imp_right ?_))
    rintro ⟨j, hm, hi⟩
    exact ⟨j, hm, hnodes j hi⟩

section Registering

variable {n : ι}

omit [DecidableEq α] in
/-- A server that has not registered is not among those that joined. -/
theorem not_joined (h : s.Settles harbor) (hnew : s.registered p = none) :
    p ∉ s.joined.map Prod.fst := fun hmem => by
  have hsome := (h.registered p).mpr hmem
  rw [hnew] at hsome
  cases hsome

omit [DecidableEq α] in
theorem registered_joined (h : s.Settles harbor) (neighbor : Option ι) (i : ι) :
    (Function.update s.registered p (some (harbor p)) i).isSome = true ↔
      i ∈ ((p, neighbor) :: s.joined).map Prod.fst := by
  rw [isSome_registered_update, List.map_cons, List.mem_cons, h.registered]

omit [LinearOrder ι] [DecidableEq α] in
/-- The two messages are all there are. -/
theorem mem_mail_settled (hsettled : s.Settled) {i : ι} {m : Mail ι α} :
    (i, m) ∈ s.mail ++ [(p, Mail.notify ⟨n, harbor n⟩), (n, .notify ⟨p, harbor p⟩)] ↔
      i = p ∧ m = .notify ⟨n, harbor n⟩ ∨ i = n ∧ m = .notify ⟨p, harbor p⟩ := by
  rw [hsettled.1]
  simp

omit [DecidableEq α] in
/-- The server and its neighbour are to be connected, and so are those that hear of either. -/
theorem told_onRegister (h : s.Settles harbor) (hsound : s.Sound harbor) (hsettled : s.Settled)
    (hnew : s.registered p = none) (hne : n ≠ p) (hn : (s.registered n).isSome = true) :
    (s.onRegister harbor p (some n)).Told harbor := by
  have hfresh {i : ι} : ¬ Linked s.joined p i :=
    fun hlinked => h.not_joined hnew (mem_of_linked h.ordered hlinked).1
  have hneighbor : ∀ i ∈ some n, i ∈ s.joined.map Prod.fst := by
    rintro i ⟨⟩
    exact (h.registered n).mp hn
  rw [hsound.onRegister_some hne hn]
  refine ⟨⟨h.not_joined hnew, hneighbor, h.ordered⟩, h.registered_joined _,
    fun i q hq => .inl (h.connected i q hq), fun i m hm => ?_, fun i m hm => ?_⟩
  · rcases (mem_mail_settled hsettled).mp hm with ⟨-, heq⟩ | ⟨-, heq⟩ <;> cases heq
  · rcases (mem_mail_settled hsettled).mp hm with ⟨rfl, heq⟩ | ⟨rfl, heq⟩ <;> cases heq
    · refine ⟨.inr (.inl ⟨rfl, .inl rfl⟩), fun j hj hlt => ?_⟩
      rcases hj with hold | ⟨-, rfl | ⟨-, hmeets⟩⟩ | ⟨-, heq | ⟨hself, -⟩⟩
      · exact absurd hold hfresh
      · exact absurd hlt (lt_irrefl _)
      · exact .inl (linked_symm hmeets)
      · exact absurd heq.symm hne
      · exact absurd hself (lt_irrefl _)
    · refine ⟨.inr (.inr ⟨rfl, .inl rfl⟩), fun j hj hlt => ?_⟩
      rcases hj with hold | ⟨heq, -⟩ | ⟨rfl, -⟩
      · exact .inr (.inr ⟨rfl, .inr ⟨hlt, hold⟩⟩)
      · exact absurd heq hne
      · exact absurd hlt (lt_irrefl _)

omit [DecidableEq α] in
/-- The next server registers when all is settled. -/
theorem onRegister (h : s.Settles harbor) (hsound : s.Sound harbor) (hsettled : s.Settled)
    (hnew : s.registered p = none) {neighbor : Option ι}
    (hneighbor : ∀ i ∈ neighbor, i ≠ p ∧ (s.registered i).isSome = true) :
    (s.onRegister harbor p neighbor).Settles harbor := by
  cases neighbor with
  | none =>
      rw [Network.onRegister]
      exact ⟨⟨⟨h.not_joined hnew, nofun, h.ordered⟩, h.registered_joined none, h.connected,
        h.gossip, h.notify⟩, h.complete⟩
  | some n =>
      obtain ⟨hne, hn⟩ := hneighbor n rfl
      refine ⟨h.told_onRegister hsound hsettled hnew hne hn, ?_⟩
      rw [hsound.onRegister_some hne hn]
      intro i q hiq hl
      rw [OnWay]
      simp only [mem_mail_settled hsettled]
      rcases hl with hold | ⟨rfl, rfl | ⟨hlt, -⟩⟩ | ⟨rfl, rfl | ⟨-, hmeets⟩⟩
      · rcases h.complete i q hiq hold with hconnected | hway
        · exact .inl hconnected
        · rw [OnWay, hsettled.1] at hway
          rcases hway with hm | hm | ⟨j, hm, -⟩ <;> cases hm
      · exact .inr (.inl (.inl ⟨rfl, rfl⟩))
      · exact absurd hiq (lt_asymm hlt)
      · exact .inr (.inl (.inr ⟨rfl, rfl⟩))
      · exact .inr (.inr (.inr ⟨n, .inr ⟨rfl, rfl⟩, (h.nodes_iff hsound hsettled).mpr hmeets⟩))

end Registering

theorem step (h : s.Settles harbor) (hsound : s.Sound harbor) {a : Act ι α}
    (hone : s.OneByOne a) (hs : s.step harbor a = some s') : s'.Settles harbor := by
  cases a with
  | register p neighbor =>
      rw [Network.step] at hs
      split at hs
      next hneighbor =>
        cases hs
        exact h.onRegister hsound hone.1 hone.2 hneighbor
      next => cases hs
  | receive p mail =>
      rw [Network.step] at hs
      split at hs
      next hmem =>
        cases mail with
        | notify neighbor =>
            cases hs
            exact h.receiveNotify hsound hmem
        | gossip neighbor =>
            cases hs
            exact h.receiveGossip hsound hmem
      next => cases hs
  | dial p neighbor q =>
      rw [Network.step] at hs
      split at hs <;> cases hs
      exact h.grow rfl rfl rfl rfl fun i j hj => mem_nodes_record.mpr (.inl hj)
  | accept q p =>
      rw [Network.step] at hs
      split at hs <;> cases hs
      exact h.grow rfl rfl rfl rfl fun i j hj => mem_nodes_record.mpr (.inl hj)

end Settles

end Network

/-! ## Runs -/

variable {harbor : ι ↪ α} {s : Network ι α}

theorem sound_of_run {ok : Network ι α → Act ι α → Prop} (hr : (network harbor).Run ok s) :
    s.Sound harbor := by
  refine System.Run.invariant (I := Network.Sound harbor) ?_ (fun _ _ _ h _ hs => h.step hs) hr
  rintro s rfl
  refine ⟨?_, ?_, ?_, ?_, .nil, ?_, .nil, ?_, ?_, ?_⟩ <;> intros <;> contradiction

/-- There are no two connections between the same servers, the lower one has dialled, and both
have registered.  What a server has recorded are its connections. -/
theorem one_connection (hr : (network harbor).Reachable s) :
    s.links.Nodup ∧
      (∀ p q, (p, q) ∈ s.links →
        p < q ∧ (s.registered p).isSome = true ∧ (s.registered q).isSome = true) ∧
      ∀ p q, q ∈ s.nodes p → (p, q) ∈ s.links ∨ (q, p) ∈ s.links := by
  have h := sound_of_run hr
  exact ⟨h.linksNodup, fun p q hlink => h.lt (h.links p q hlink).1, h.nodes⟩

/-- Server 3 registers before server 2, and the neighbour of both is server 1. -/
def outOfOrder : List (Act Nat Nat) :=
  [.register 1 none,
    .register 3 (some 1), .receive 3 (.notify ⟨1, 1⟩), .receive 1 (.notify ⟨3, 3⟩),
    .dial 1 ⟨3, 3⟩ 3, .accept 3 1,
    .register 2 (some 1), .receive 2 (.notify ⟨1, 1⟩), .receive 1 (.notify ⟨2, 2⟩),
    .receive 3 (.gossip ⟨2, 2⟩), .dial 1 ⟨2, 2⟩ 2, .accept 2 1]

/-- Before the last message is read. -/
theorem one_connection_outOfOrder : ∃ s,
    exec (Network.step (Function.Embedding.refl Nat)) {} (outOfOrder.take 9) = some s ∧
      s.links = [(1, 3)] ∧ s.links.Nodup := by
  have hrun : (exec (Network.step (Function.Embedding.refl Nat)) {} (outOfOrder.take 9)).map
      (fun s => s.links) = some [(1, 3)] := by
    decide +kernel
  obtain ⟨s, hs, hview⟩ := Option.map_eq_some_iff.mp hrun
  have hr : (network (Function.Embedding.refl Nat)).Reachable s := exec_reachable rfl hs
  exact ⟨s, hs, hview, (one_connection hr).1⟩

theorem settles_of_run (hr : (network harbor).Run Network.OneByOne s) :
    s.Sound harbor ∧ s.Settles harbor := by
  refine System.Run.invariant (I := fun s => s.Sound harbor ∧ s.Settles harbor) ?_ ?_ hr
  · intro s hs
    have hstart : (network harbor).Run Network.OneByOne s := .start hs
    refine ⟨sound_of_run hstart, ?_⟩
    cases hs
    refine ⟨⟨trivial, ?_, ?_, ?_, ?_⟩, ?_⟩
    · exact fun p => iff_of_false nofun List.not_mem_nil
    all_goals intros; contradiction
  · exact fun s a s' h hone hs => ⟨h.1.step hs, h.2.step h.1 hone hs⟩

/-- Whoever is drawn, and in whatever order the messages come, the connections are those that
the draws lead to. -/
theorem settled_links (hr : (network harbor).Run Network.OneByOne s) (hsettled : s.Settled)
    (p q : ι) : q ∈ s.nodes p ↔ Linked s.joined p q := by
  obtain ⟨hsound, h⟩ := settles_of_run hr
  exact h.nodes_iff hsound hsettled

theorem run_outOfOrder : ∃ s,
    exec (Network.step (Function.Embedding.refl Nat)) {} outOfOrder = some s ∧
      (network (Function.Embedding.refl Nat)).Run Network.OneByOne s ∧ s.Settled ∧
      s.nodes 3 = [1] ∧ s.joined = [(2, some 1), (3, some 1), (1, none)] := by
  have hrun : (exec (Network.step (Function.Embedding.refl Nat)) {} outOfOrder).map
      (fun s => (decide s.Settled, s.nodes 3, s.joined)) =
        some (true, [1], [(2, some 1), (3, some 1), (1, none)]) := by
    decide +kernel
  obtain ⟨s, hs, hview⟩ := Option.map_eq_some_iff.mp hrun
  simp only [Prod.mk.injEq, decide_eq_true_eq] at hview
  have hguard : Guarded (Network.step (Function.Embedding.refl Nat)) Network.OneByOne {}
      outOfOrder := by
    decide +kernel
  exact ⟨s, hs, exec_run (.start rfl) hguard hs, hview⟩

/-- Server 3 hears of server 2 and leaves it at that, and server 2 does not hear of server 3. -/
theorem settled_links_outOfOrder : ∃ s,
    exec (Network.step (Function.Embedding.refl Nat)) {} outOfOrder = some s ∧
      ¬ Linked s.joined 3 2 := by
  obtain ⟨s, hs, hr, hsettled, hnodes, -⟩ := run_outOfOrder
  refine ⟨s, hs, ?_⟩
  rw [← settled_links hr hsettled, hnodes]
  decide

/-- All are connected to all if and only if the ids ascend, the neighbours apart. -/
theorem settled_mesh_iff (hr : (network harbor).Run Network.OneByOne s) (hsettled : s.Settled) :
    (∀ p q, (s.registered p).isSome = true → (s.registered q).isSome = true → p ≠ q →
        q ∈ s.nodes p) ↔ Ascending s.joined := by
  obtain ⟨hsound, h⟩ := settles_of_run hr
  rw [← linked_all_iff h.ordered]
  simp only [h.registered, h.nodes_iff hsound hsettled]
  exact ⟨fun hall p hp q hq hne => hall p q hp hq hne, fun hall p q hp hq hne => hall p hp q hq hne⟩

/-- Server 2 has a lesser id than server 3, which is not its neighbour. -/
theorem settled_mesh_iff_outOfOrder : ∃ s,
    exec (Network.step (Function.Embedding.refl Nat)) {} outOfOrder = some s ∧
      ¬ ∀ p q, (s.registered p).isSome = true → (s.registered q).isSome = true → p ≠ q →
        q ∈ s.nodes p := by
  obtain ⟨s, hs, hr, hsettled, -, hjoined⟩ := run_outOfOrder
  refine ⟨s, hs, ?_⟩
  rw [settled_mesh_iff hr hsettled, hjoined]
  rintro ⟨hgreater, -⟩
  obtain ⟨n, heq, hmeets⟩ := hgreater 3 (by decide)
  cases heq
  exact absurd hmeets (by decide)

end Ofs.Neighbors
