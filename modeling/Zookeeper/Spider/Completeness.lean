import Mathlib.Algebra.BigOperators.Fin
import Mathlib.Algebra.Order.BigOperators.Group.Finset
import Zookeeper.Spider.UrlGraph

/-!
# What a finished crawl has seen

The main loop of `UrlGraph::Search` stops when as many URLs are done as were handed
out.  Every URL that a processor has taken is at one place: with a processor, in an
event, or in `dones` (`Placed`).  So when the two numbers agree no processor is at work
and no event is left for a page, and as a processor posts the links of a page before it
posts that the page is done, all links of all pages were dealt with (`Linked`).

`search_complete` is what follows for every state of every run.
-/

namespace Spider

variable {Url Content : Type} {k : Nat}

/-- What can be reached from the entry by pages that were fetched. -/
inductive Reached (processFn : Url → Content → List Url) (entry : Url)
    (fetched : List (Url × Option Content)) : Url → Prop where
  | entry : Reached processFn entry fetched entry
  | link {url link : Url} {content : Content} : Reached processFn entry fetched url →
      (url, some content) ∈ fetched → link ∈ processFn url content →
      Reached processFn entry fetched link

/-- No URL is handed out twice, and not more than the limit.  When the channels are
closed everything that was handed out was fetched, and without a limit everything that
can be reached was handed out. -/
structure Complete (processFn : Url → Content → List Url) (limit : Nat) (entry : Url)
    (s : Crawl Url Content k) : Prop where
  once : (s.taken ++ s.waitDoing).Nodup
  bounded : 0 < limit → (s.taken ++ s.waitDoing).length ≤ limit
  fetched : s.main = .closed → ∀ url ∈ s.taken ++ s.waitDoing, ∃ r, (url, r) ∈ s.fetched
  reached : s.main = .closed → limit = 0 → ∀ url, Reached processFn entry s.fetched url →
    url ∈ s.taken

/-! ## The moves of a crawl -/

section Moves

variable [DecidableEq Url] {processFn : Url → Content → List Url} {limit : Nat}

/-- What a step can do. -/
inductive Moves (processFn : Url → Content → List Url) (limit : Nat) (s : Crawl Url Content k) :
    Crawl Url Content k → Prop where
  | pass {url : Url} {evts : List (UrlEvent Url)} : s.main = .receiving →
      s.evts = ⟨url, .uesOpen⟩ :: evts → (limit = 0 → url ∈ s.pendings) →
      Moves processFn limit s { s with evts := evts }
  | opens {url : Url} {evts : List (UrlEvent Url)} : s.main = .receiving →
      s.evts = ⟨url, .uesOpen⟩ :: evts → limit = 0 ∨ s.pendings.length < limit →
      url ∉ s.pendings → Moves processFn limit s { s with evts := evts, main := .sending url }
  | done {url : Url} {evts : List (UrlEvent Url)} : s.main = .receiving →
      s.evts = ⟨url, .uesDone⟩ :: evts →
      Moves processFn limit s ({ s with evts := evts }.deal limit ⟨url, .uesDone⟩)
  | send {url : Url} : s.main = .sending url →
      Moves processFn limit s { s with
        main := .receiving
        waitDoing := s.waitDoing ++ [url]
        pendings := s.pendings ++ [url] }
  | take {i : Fin k} {url : Url} {waitDoing : List Url} : s.worker i = .idle →
      s.waitDoing = url :: waitDoing →
      Moves processFn limit s
        ({ s with waitDoing := waitDoing, taken := s.taken ++ [url] }.setWorker i (.fetching url))
  | stop {i : Fin k} : s.main = .closed →
      s.worker i = .idle ∨ (∃ urls url, s.worker i = .posting urls url) →
      Moves processFn limit s (s.setWorker i .ended)
  | fetch {i : Fin k} {url : Url} {content : Option Content} : s.worker i = .fetching url →
      Moves processFn limit s
        ({ s with fetched := s.fetched ++ [(url, content)] }.setWorker i
          (.posting (Crawl.links processFn url content) url))
  | postLink {i : Fin k} {link url : Url} {urls : List Url} :
      s.worker i = .posting (link :: urls) url →
      Moves processFn limit s ((s.pushEvt link .uesOpen).setWorker i (.posting urls url))
  | postDone {i : Fin k} {url : Url} : s.worker i = .posting [] url →
      Moves processFn limit s ((s.pushEvt url .uesDone).setWorker i .idle)

theorem step_moves {s s' : Crawl Url Content k} {a : CrawlAct Content k}
    (hs : s.step processFn limit a = some s') : Moves processFn limit s s' := by
  cases a with
  | receive =>
      simp only [Crawl.step] at hs
      split at hs
      next evt evts hmain hevts =>
        cases hs
        obtain ⟨url, status⟩ := evt
        cases status with
        | uesOpen =>
            simp only [Crawl.deal]
            split
            next hopens => exact .opens hmain hevts hopens.1 hopens.2
            next hpass =>
              refine .pass hmain hevts fun hlimit => ?_
              by_contra hnew
              exact hpass ⟨.inl hlimit, hnew⟩
        | uesDone => exact .done hmain hevts
      next => cases hs
  | send =>
      simp only [Crawl.step] at hs
      split at hs
      next url hmain =>
        split at hs
        next => cases hs; exact .send hmain
        next => cases hs
      next => cases hs
  | take i =>
      simp only [Crawl.step] at hs
      split at hs
      next hidle hclosed => cases hs; exact .stop hclosed (.inl hidle)
      next url waitDoing hidle hwait _ => cases hs; exact .take hidle hwait
      next => cases hs
  | fetch i content =>
      simp only [Crawl.step] at hs
      split at hs
      next url hfetching => cases hs; exact .fetch hfetching
      next => cases hs
  | post i =>
      simp only [Crawl.step] at hs
      split at hs
      next urls url hposting hclosed => cases hs; exact .stop hclosed (.inr ⟨urls, url, hposting⟩)
      next link urls url hposting _ => cases hs; exact .postLink hposting
      next url hposting _ => cases hs; exact .postDone hposting
      next => cases hs

end Moves

/-! ## Where a URL is -/

/-- The page that a processor is at work on. -/
def Worker.held : Worker Url → Multiset Url
  | .fetching url => {url}
  | .posting _ url => {url}
  | .idle | .ended => 0

namespace Crawl

variable {s : Crawl Url Content k}

/-- The pages that processors are at work on. -/
def held (s : Crawl Url Content k) : Multiset Url := ∑ i, (s.worker i).held

/-- The pages with an event that they are done. -/
def doneEvts (s : Crawl Url Content k) : List Url :=
  s.evts.filterMap fun evt => if evt.status = .uesDone then some evt.url else none

theorem setWorker_self (s : Crawl Url Content k) (i : Fin k) (w : Worker Url) :
    (s.setWorker i w).worker i = w := by
  simp only [setWorker, Function.update_self]

theorem setWorker_of_ne (s : Crawl Url Content k) {i j : Fin k} (h : j ≠ i) (w : Worker Url) :
    (s.setWorker i w).worker j = s.worker j := by
  simp only [setWorker, Function.update_of_ne h]

/-- A processor gives up what it holds for something else. -/
theorem held_setWorker {i : Fin k} {w : Worker Url} {old new : Multiset Url}
    (hi : (s.worker i).held = old) (hw : w.held = new) :
    (s.setWorker i w).held + old = s.held + new := by
  have hold := Finset.add_sum_erase Finset.univ (fun j => (s.worker j).held) (Finset.mem_univ i)
  have hnew := Finset.add_sum_erase Finset.univ (fun j => ((s.setWorker i w).worker j).held)
    (Finset.mem_univ i)
  have hrest : ∑ j ∈ Finset.univ.erase i, ((s.setWorker i w).worker j).held =
      ∑ j ∈ Finset.univ.erase i, (s.worker j).held := by
    refine Finset.sum_congr rfl fun j hj => ?_
    rw [setWorker_of_ne s (Finset.ne_of_mem_erase hj)]
  simp only [setWorker_self, hrest, hw] at hnew
  rw [hi] at hold
  rw [held, held, ← hnew, ← hold]
  ac_rfl

theorem held_keep {i : Fin k} {w : Worker Url} (h : w.held = (s.worker i).held) :
    (s.setWorker i w).held = s.held :=
  add_right_cancel (held_setWorker rfl h)

theorem mem_held {url : Url} {i : Fin k} (h : url ∈ (s.worker i).held) : url ∈ s.held :=
  Multiset.mem_of_le (Finset.single_le_sum (f := fun j => (s.worker j).held)
    (fun _ _ => Multiset.zero_le _) (Finset.mem_univ i)) h

/-- Every URL that was handed out is in a processor's queue, or was taken and is at
one place. -/
structure Placed (limit : Nat) (s : Crawl Url Content k) : Prop where
  handed : s.taken ++ s.waitDoing = s.pendings
  nodup : s.pendings.Nodup
  bounded : 0 < limit → s.pendings.length ≤ limit
  sending : ∀ url, s.main = .sending url →
    url ∉ s.pendings ∧ (limit = 0 ∨ s.pendings.length < limit)
  placed : (s.taken : Multiset Url) = s.held + (s.doneEvts ++ s.dones : List Url)
  closed : s.main = .closed → s.dones.length = s.pendings.length

namespace Placed

variable {limit : Nat}

theorem taken_nodup (h : s.Placed limit) : s.taken.Nodup := by
  have hnodup := h.nodup
  rw [← h.handed] at hnodup
  exact hnodup.of_append_left

/-- A page at one place is at no other place. -/
theorem once (h : s.Placed limit) {url : Url} :
    (url ∈ s.held → url ∉ s.doneEvts ∧ url ∉ s.dones) ∧ (url ∈ s.doneEvts → url ∉ s.dones) := by
  have hnodup : (s.taken : Multiset Url).Nodup := Multiset.coe_nodup.mpr h.taken_nodup
  rw [h.placed, Multiset.nodup_add, Multiset.coe_nodup] at hnodup
  obtain ⟨_, hlist, hdisjoint⟩ := hnodup
  refine ⟨fun hheld => ?_, fun hevt hdone => ?_⟩
  · have hno : url ∉ s.doneEvts ++ s.dones := fun hmem =>
      Multiset.disjoint_left.mp hdisjoint hheld (Multiset.mem_coe.mpr hmem)
    exact ⟨fun hmem => hno (List.mem_append_left _ hmem),
      fun hmem => hno (List.mem_append_right _ hmem)⟩
  · exact (List.disjoint_of_nodup_append hlist) hevt hdone

/-- When the channels are closed, nothing is left to do. -/
theorem finished (h : s.Placed limit) (hclosed : s.main = .closed) :
    s.waitDoing = [] ∧ s.held = 0 ∧ s.doneEvts = [] := by
  have hlength := h.closed hclosed
  have hcard := congrArg Multiset.card h.placed
  have hhanded := congrArg List.length h.handed
  rw [Multiset.card_add, Multiset.coe_card, Multiset.coe_card, List.length_append] at hcard
  rw [List.length_append] at hhanded
  refine ⟨?_, ?_, ?_⟩
  · exact List.length_eq_zero_iff.mp (by omega)
  · exact Multiset.card_eq_zero.mp (by omega)
  · exact List.length_eq_zero_iff.mp (by omega)

end Placed

theorem doneEvts_open (s : Crawl Url Content k) (url : Url) (evts : List (UrlEvent Url))
    (h : s.evts = ⟨url, .uesOpen⟩ :: evts) : s.doneEvts = doneEvts { s with evts := evts } := by
  rw [doneEvts, h]
  rfl

theorem doneEvts_done (s : Crawl Url Content k) (url : Url) (evts : List (UrlEvent Url))
    (h : s.evts = ⟨url, .uesDone⟩ :: evts) :
    s.doneEvts = url :: doneEvts { s with evts := evts } := by
  rw [doneEvts, h]
  rfl

theorem doneEvts_push (s : Crawl Url Content k) (url : Url) (status : UrlStatus) :
    (s.pushEvt url status).doneEvts =
      s.doneEvts ++ if status = .uesDone then [url] else [] := by
  rw [doneEvts, pushEvt, List.filterMap_append, doneEvts]
  cases status with
  | uesOpen => rfl
  | uesDone => rfl

/-- A move keeps every URL at one place. -/
theorem Placed.moves [DecidableEq Url] {processFn : Url → Content → List Url} {limit : Nat}
    {s' : Crawl Url Content k} (h : s.Placed limit) (hs : Moves processFn limit s s') :
    s'.Placed limit := by
  cases hs with
  | pass hmain hevts _ =>
      have hplaced := h.placed
      rw [doneEvts_open s _ _ hevts] at hplaced
      exact ⟨h.handed, h.nodup, h.bounded, h.sending, hplaced, h.closed⟩
  | opens hmain hevts hroom hnew =>
      have hplaced := h.placed
      rw [doneEvts_open s _ _ hevts] at hplaced
      refine ⟨h.handed, h.nodup, h.bounded, ?_, hplaced, fun hc => by cases hc⟩
      intro url hurl
      cases hurl
      exact ⟨hnew, hroom⟩
  | @done url evts hmain hevts =>
      have hplaced := h.placed
      rw [doneEvts_done s _ _ hevts] at hplaced
      have hnew : url ∉ s.dones := by
        refine h.once.2 ?_
        rw [doneEvts_done s _ _ hevts]
        exact List.mem_cons_self
      simp only [deal, if_neg hnew]
      refine ⟨h.handed, h.nodup, h.bounded, fun u hu => ?_, ?_, fun hc => ?_⟩
      · split at hu <;> cases hu
      · refine hplaced.trans (congrArg (s.held + ·) (Multiset.coe_eq_coe.mpr ?_))
        rw [← List.append_assoc]
        exact (List.perm_append_singleton url _).symm
      · by_contra hne
        rw [if_neg hne] at hc
        cases hc
  | send hmain =>
      obtain ⟨hnew, hroom⟩ := h.sending _ hmain
      refine ⟨?_, ?_, ?_, fun url hurl => (by cases hurl), h.placed, fun hc => (by cases hc)⟩
      · rw [← List.append_assoc, h.handed]
      · exact List.nodup_append_comm.mp (List.nodup_cons.mpr ⟨hnew, h.nodup⟩)
      · intro hpos
        rw [List.length_append, List.length_singleton]
        omega
  | @take i url waitDoing hidle hwait =>
      let s₁ : Crawl Url Content k := { s with waitDoing := waitDoing, taken := s.taken ++ [url] }
      have hi : (s₁.worker i).held = 0 := congrArg Worker.held hidle
      have hheld := held_setWorker (w := .fetching url) hi rfl
      rw [add_zero] at hheld
      refine ⟨?_, h.nodup, h.bounded, h.sending, ?_, h.closed⟩
      · rw [← h.handed, hwait]
        exact List.append_assoc _ _ _
      · show ((s.taken ++ [url] : List Url) : Multiset Url) =
          (s₁.setWorker i (.fetching url)).held + (s.doneEvts ++ s.dones : List Url)
        rw [hheld, ← Multiset.coe_add, Multiset.coe_singleton, h.placed]
        exact add_right_comm _ _ _
  | @stop i hclosed hworker =>
      have hnone : (s.worker i).held = 0 := by
        refine Multiset.eq_zero_of_forall_notMem fun url hurl => ?_
        have hmem := mem_held hurl
        rw [(h.finished hclosed).2.1] at hmem
        exact Multiset.notMem_zero url hmem
      have hheld := held_keep (s := s) (i := i) (w := .ended) hnone.symm
      exact ⟨h.handed, h.nodup, h.bounded, h.sending, hheld ▸ h.placed, h.closed⟩
  | @fetch i url content hfetching =>
      let s₁ : Crawl Url Content k := { s with fetched := s.fetched ++ [(url, content)] }
      have hheld := held_keep (s := s₁) (i := i) (w := .posting (links processFn url content) url)
        (congrArg Worker.held hfetching).symm
      exact ⟨h.handed, h.nodup, h.bounded, h.sending, hheld ▸ h.placed, h.closed⟩
  | @postLink i link url urls hposting =>
      have hheld := held_keep (s := s.pushEvt link .uesOpen) (i := i) (w := .posting urls url)
        (congrArg Worker.held hposting).symm
      have hevts := doneEvts_push s link .uesOpen
      rw [if_neg (by decide), List.append_nil] at hevts
      refine ⟨h.handed, h.nodup, h.bounded, h.sending, ?_, h.closed⟩
      show (s.taken : Multiset Url) =
        ((s.pushEvt link .uesOpen).setWorker i (.posting urls url)).held +
        ((s.pushEvt link .uesOpen).doneEvts ++ s.dones : List Url)
      rw [hheld, hevts]
      exact h.placed
  | @postDone i url hposting =>
      have hheld : ((s.pushEvt url .uesDone).setWorker i .idle).held + {url} = s.held :=
        (held_setWorker (s := s.pushEvt url .uesDone) (w := .idle)
          (congrArg Worker.held hposting) rfl).trans (add_zero _)
      have hevts := doneEvts_push s url .uesDone
      rw [if_pos rfl] at hevts
      refine ⟨h.handed, h.nodup, h.bounded, h.sending, ?_, h.closed⟩
      have hperm : (s.doneEvts ++ [url] ++ s.dones).Perm ([url] ++ (s.doneEvts ++ s.dones)) := by
        rw [← List.append_assoc]
        exact (List.perm_append_comm).append_right s.dones
      show (s.taken : Multiset Url) = ((s.pushEvt url .uesDone).setWorker i .idle).held +
        ((s.pushEvt url .uesDone).doneEvts ++ s.dones : List Url)
      rw [hevts, Multiset.coe_eq_coe.mpr hperm, ← Multiset.coe_add, Multiset.coe_singleton,
        ← add_assoc, hheld]
      exact h.placed

/-! ## What was fetched -/

/-- A page that is being posted, or that is done, was fetched. -/
structure Fetched (s : Crawl Url Content k) : Prop where
  worker : ∀ i urls url, s.worker i = .posting urls url → ∃ r, (url, r) ∈ s.fetched
  evts : ∀ url ∈ s.doneEvts, ∃ r, (url, r) ∈ s.fetched
  dones : ∀ url ∈ s.dones, ∃ r, (url, r) ∈ s.fetched

/-- A processor that posts after one of them has changed. -/
theorem posting_setWorker {i j : Fin k} {w : Worker Url} {urls : List Url} {url : Url}
    (h : (s.setWorker i w).worker j = .posting urls url) :
    (j = i ∧ w = .posting urls url) ∨ (j ≠ i ∧ s.worker j = .posting urls url) := by
  rcases eq_or_ne j i with rfl | hj
  · rw [setWorker_self] at h
    exact .inl ⟨rfl, h⟩
  · rw [setWorker_of_ne s hj] at h
    exact .inr ⟨hj, h⟩

theorem Fetched.moves [DecidableEq Url] {processFn : Url → Content → List Url} {limit : Nat}
    {s' : Crawl Url Content k} (h : s.Fetched) (hs : Moves processFn limit s s') : s'.Fetched := by
  have hother : ∀ {i : Fin k} {w : Worker Url} {t : Crawl Url Content k}, t.worker = s.worker →
      s.fetched ⊆ t.fetched → (∀ urls url, w = .posting urls url → ∃ r, (url, r) ∈ t.fetched) →
      ∀ j urls url, (t.setWorker i w).worker j = .posting urls url → ∃ r, (url, r) ∈ t.fetched := by
    intro i w t hworker hsub hw j urls url hj
    rcases posting_setWorker hj with ⟨_, hnew⟩ | ⟨_, hold⟩
    · exact hw urls url hnew
    · rw [hworker] at hold
      obtain ⟨r, hr⟩ := h.worker j urls url hold
      exact ⟨r, hsub hr⟩
  cases hs with
  | pass hmain hevts _ =>
      have hold := h.evts
      rw [doneEvts_open s _ _ hevts] at hold
      exact ⟨h.worker, hold, h.dones⟩
  | opens hmain hevts _ _ =>
      have hold := h.evts
      rw [doneEvts_open s _ _ hevts] at hold
      exact ⟨h.worker, hold, h.dones⟩
  | @done url evts hmain hevts =>
      have hold := h.evts
      rw [doneEvts_done s _ _ hevts] at hold
      refine ⟨h.worker, fun u hu => hold u (List.mem_cons_of_mem url hu), fun u hu => ?_⟩
      simp only [deal] at hu
      split at hu
      next => exact h.dones u hu
      next =>
        rcases List.mem_append.mp hu with hu | hu
        · exact h.dones u hu
        · rw [List.mem_singleton.mp hu]
          exact hold url List.mem_cons_self
  | send hmain => exact ⟨h.worker, h.evts, h.dones⟩
  | take hidle hwait =>
      exact ⟨hother rfl (fun _ hr => hr) (fun _ _ hw => by cases hw), h.evts, h.dones⟩
  | stop hclosed hworker =>
      exact ⟨hother rfl (fun _ hr => hr) (fun _ _ hw => by cases hw), h.evts, h.dones⟩
  | @fetch i url content hfetching =>
      have hsub : s.fetched ⊆ s.fetched ++ [(url, content)] := List.subset_append_left _ _
      refine ⟨hother rfl hsub ?_, fun u hu => ?_, fun u hu => ?_⟩
      · intro urls u hw
        cases hw
        exact ⟨content, List.mem_append_right _ List.mem_cons_self⟩
      · obtain ⟨r, hr⟩ := h.evts u hu
        exact ⟨r, hsub hr⟩
      · obtain ⟨r, hr⟩ := h.dones u hu
        exact ⟨r, hsub hr⟩
  | @postLink i link url urls hposting =>
      have hpage := h.worker i _ url hposting
      have hevts := doneEvts_push s link .uesOpen
      rw [if_neg (by decide), List.append_nil] at hevts
      refine ⟨hother rfl (fun _ hr => hr) (fun _ _ hw => ?_), fun u hu => h.evts u ?_, h.dones⟩
      · cases hw
        exact hpage
      · exact hevts ▸ hu
  | @postDone i url hposting =>
      have hpage := h.worker i _ url hposting
      have hevts := doneEvts_push s url .uesDone
      rw [if_pos rfl] at hevts
      refine ⟨hother rfl (fun _ hr => hr) (fun _ _ hw => by cases hw), fun u hu => ?_, h.dones⟩
      have hu : u ∈ s.doneEvts ++ [url] := hevts ▸ hu
      rcases List.mem_append.mp hu with hu | hu
      · exact h.evts u hu
      · rw [List.mem_singleton.mp hu]
        exact hpage

/-! ## What was linked -/

/-- A URL was handed out, or is about to be. -/
def Handled (s : Crawl Url Content k) (url : Url) : Prop :=
  url ∈ s.pendings ∨ s.main = .sending url

/-- A link of a page is still to be posted, or its event comes before the page is done. -/
def Awaits (s : Crawl Url Content k) (url link : Url) : Prop :=
  (∃ i urls, s.worker i = .posting urls url ∧ link ∈ urls) ∨
    ∃ before behind, s.evts = before ++ ⟨link, .uesOpen⟩ :: behind ∧
      ⟨url, .uesDone⟩ ∉ before ∧ url ∉ s.dones

/-- The entry and all links of the pages that were fetched are handled, or will be. -/
structure Linked (processFn : Url → Content → List Url) (entry : Url)
    (s : Crawl Url Content k) : Prop where
  entry : s.Handled entry ∨ (s.main = .receiving ∧ ∃ evts, s.evts = ⟨entry, .uesOpen⟩ :: evts)
  links : ∀ url content, (url, some content) ∈ s.fetched → ∀ link ∈ processFn url content,
    s.Handled link ∨ s.Awaits url link

/-- The main loop takes the first event. -/
theorem Awaits.receive {t : Crawl Url Content k} {evt : UrlEvent Url} {url link : Url}
    (h : s.Awaits url link) (hevts : s.evts = evt :: t.evts) (hworker : t.worker = s.worker)
    (hdones : url ∈ t.dones → url ∈ s.dones ∨ evt = ⟨url, .uesDone⟩) :
    evt = ⟨link, .uesOpen⟩ ∨ t.Awaits url link := by
  rcases h with ⟨i, urls, hi, hlink⟩ | ⟨before, behind, heq, hbefore, hnew⟩
  · exact .inr (.inl ⟨i, urls, hworker ▸ hi, hlink⟩)
  · rw [hevts] at heq
    cases before with
    | nil => exact .inl (List.cons.inj heq).1
    | cons e before =>
        obtain ⟨rfl, hrest⟩ := List.cons.inj heq
        refine .inr (.inr ⟨before, behind, hrest, ?_, fun hmem => ?_⟩)
        · exact fun hmem => hbefore (List.mem_cons_of_mem evt hmem)
        · rcases hdones hmem with hold | rfl
          · exact hnew hold
          · exact hbefore List.mem_cons_self

theorem Awaits.push {url link : Url} (h : s.Awaits url link) (u : Url) (status : UrlStatus) :
    (s.pushEvt u status).Awaits url link := by
  rcases h with hworker | ⟨before, behind, heq, hbefore, hnew⟩
  · exact .inl hworker
  · refine .inr ⟨before, behind ++ [⟨u, status⟩], ?_, hbefore, hnew⟩
    rw [pushEvt, heq, List.append_assoc]
    rfl

/-- A processor changes that does not have to post the link. -/
theorem Awaits.setWorker {url link : Url} (h : s.Awaits url link) {i : Fin k} {w : Worker Url}
    (hi : ∀ urls, s.worker i = .posting urls url → link ∉ urls) :
    (s.setWorker i w).Awaits url link := by
  rcases h with ⟨j, urls, hj, hlink⟩ | hevts
  · rcases eq_or_ne j i with rfl | hne
    · exact absurd hlink (hi urls hj)
    · exact .inl ⟨j, urls, (setWorker_of_ne s hne w).trans hj, hlink⟩
  · exact .inr hevts

theorem mem_doneEvts {url : Url} (h : ⟨url, .uesDone⟩ ∈ s.evts) : url ∈ s.doneEvts :=
  List.mem_filterMap.mpr ⟨_, h, rfl⟩

/-- A processor posts the first link of its page. -/
theorem Awaits.postLink {limit : Nat} {i : Fin k} {first page : Url} {urls : List Url}
    {url link : Url} (hplaced : s.Placed limit)
    (hposting : s.worker i = .posting (first :: urls) page)
    (h : s.Awaits url link) :
    ((s.pushEvt first .uesOpen).setWorker i (.posting urls page)).Awaits url link := by
  by_cases hhere : ∃ rest, s.worker i = .posting rest url ∧ link ∈ rest
  · obtain ⟨rest, hrest, hlink⟩ := hhere
    rw [hposting] at hrest
    cases hrest
    rcases List.mem_cons.mp hlink with rfl | hlink
    · have hheld : page ∈ s.held := by
        refine mem_held (i := i) ?_
        rw [hposting]
        exact Multiset.mem_singleton_self page
      obtain ⟨hevt, hdone⟩ := hplaced.once.1 hheld
      exact .inr ⟨s.evts, [], rfl, fun hmem => hevt (mem_doneEvts hmem), hdone⟩
    · exact .inl ⟨i, urls, setWorker_self _ i _, hlink⟩
  · exact (h.push first .uesOpen).setWorker fun rest hrest hlink => hhere ⟨rest, hrest, hlink⟩

/-- The main loop takes an event, and the link of an event for a link is handled then. -/
theorem Linked.receive {processFn : Url → Content → List Url} {entry : Url}
    {t : Crawl Url Content k} {evt : UrlEvent Url} (h : s.Linked processFn entry)
    (hevts : s.evts = evt :: t.evts) (hworker : t.worker = s.worker)
    (hfetched : t.fetched = s.fetched) (hkept : ∀ url, s.Handled url → t.Handled url)
    (hopen : ∀ url, evt = ⟨url, .uesOpen⟩ → t.Handled url)
    (hdones : ∀ url, url ∈ t.dones → url ∈ s.dones ∨ evt = ⟨url, .uesDone⟩) :
    t.Linked processFn entry := by
  refine ⟨?_, fun url content hpage link hlink => ?_⟩
  · rcases h.entry with hhandled | ⟨_, evts, heq⟩
    · exact .inl (hkept entry hhandled)
    · rw [hevts] at heq
      exact .inl (hopen entry (List.cons.inj heq).1)
  · rw [hfetched] at hpage
    rcases h.links url content hpage link hlink with hhandled | hawaits
    · exact .inl (hkept link hhandled)
    · rcases hawaits.receive hevts hworker (hdones url) with heq | hstill
      · exact .inl (hopen link heq)
      · exact .inr hstill

/-- A processor changes, and what it had to post is posted. -/
theorem Linked.setWorker {processFn : Url → Content → List Url} {entry : Url}
    {t : Crawl Url Content k} {i : Fin k} {w : Worker Url} (h : s.Linked processFn entry)
    (hfetched : t.fetched = s.fetched) (hkept : ∀ url, s.Handled url → t.Handled url)
    (hmain : t.main = s.main)
    (hentry : ∀ evts, s.evts = ⟨entry, .uesOpen⟩ :: evts →
      ∃ evts, t.evts = ⟨entry, .uesOpen⟩ :: evts)
    (hawaits : ∀ url link, s.Awaits url link → (t.setWorker i w).Awaits url link) :
    (t.setWorker i w).Linked processFn entry := by
  refine ⟨?_, fun url content hpage link hlink => ?_⟩
  · rcases h.entry with hhandled | ⟨hreceiving, evts, heq⟩
    · exact .inl (hkept entry hhandled)
    · exact .inr ⟨hmain.trans hreceiving, hentry evts heq⟩
  · have hpage : (url, some content) ∈ s.fetched := hfetched ▸ hpage
    rcases h.links url content hpage link hlink with hhandled | hlater
    · exact .inl (hkept link hhandled)
    · exact .inr (hawaits url link hlater)

/-- A processor has its page, and posts the links of it next. -/
theorem Linked.fetch {processFn : Url → Content → List Url} {entry url : Url}
    {content : Option Content} (h : s.Linked processFn entry) {i : Fin k}
    (hfetching : s.worker i = .fetching url) :
    ({ s with fetched := s.fetched ++ [(url, content)] }.setWorker i
      (.posting (Crawl.links processFn url content) url)).Linked processFn entry := by
  have hold : ∀ page link, s.Awaits page link →
      ({ s with fetched := s.fetched ++ [(url, content)] }.setWorker i
        (.posting (Crawl.links processFn url content) url)).Awaits page link := by
    intro page link hlater
    refine Awaits.setWorker (s := { s with fetched := s.fetched ++ [(url, content)] }) hlater
      fun urls hi => ?_
    have hi : s.worker i = .posting urls page := hi
    rw [hfetching] at hi
    cases hi
  refine ⟨h.entry, fun page c hpage link hlink => ?_⟩
  rcases List.mem_append.mp hpage with hpage | hpage
  · exact (h.links page c hpage link hlink).imp id (hold page link)
  · cases List.mem_singleton.mp hpage
    exact .inr (.inl ⟨i, _, setWorker_self _ i _, hlink⟩)

/-- The main loop and the processors lose no link. -/
theorem Linked.moves [DecidableEq Url] {processFn : Url → Content → List Url} {entry : Url}
    {s' : Crawl Url Content k} (h : s.Linked processFn entry) (hplaced : s.Placed 0)
    (hs : Moves processFn 0 s s') : s'.Linked processFn entry := by
  have hreceiving : s.main = .receiving → ∀ url, s.Handled url → url ∈ s.pendings := by
    rintro hmain url (hmem | hsending)
    · exact hmem
    · rw [hmain] at hsending
      cases hsending
  cases hs with
  | @pass url evts hmain hevts hknown =>
      refine h.receive hevts rfl rfl (fun _ hu => hu) (fun u hu => ?_) fun _ hmem => .inl hmem
      cases hu
      exact .inl (hknown rfl)
  | @opens url evts hmain hevts _ _ =>
      refine h.receive hevts rfl rfl (fun u hu => .inl (hreceiving hmain u hu)) (fun u hu => ?_)
        fun _ hmem => .inl hmem
      cases hu
      exact .inr rfl
  | @done url evts hmain hevts =>
      refine h.receive hevts rfl rfl (fun u hu => .inl (hreceiving hmain u hu)) (fun u hu => ?_)
        fun u hmem => ?_
      · cases hu
      · simp only [deal] at hmem
        split at hmem
        next => exact .inl hmem
        next =>
          rcases List.mem_append.mp hmem with hmem | hmem
          · exact .inl hmem
          · rw [List.mem_singleton.mp hmem]
            exact .inr rfl
  | @send url hmain =>
      have hkept : ∀ u, s.Handled u → u ∈ s.pendings ++ [url] := by
        rintro u (hmem | hsending)
        · exact List.mem_append_left _ hmem
        · rw [hmain] at hsending
          cases hsending
          exact List.mem_append_right _ List.mem_cons_self
      refine ⟨?_, fun page content hpage link hlink => ?_⟩
      · rcases h.entry with hhandled | ⟨hreceiving, _⟩
        · exact .inl (.inl (hkept entry hhandled))
        · rw [hmain] at hreceiving
          cases hreceiving
      · exact (h.links page content hpage link hlink).imp (fun hu => .inl (hkept link hu)) id
  | @take i url waitDoing hidle hwait =>
      let t : Crawl Url Content k := { s with waitDoing := waitDoing, taken := s.taken ++ [url] }
      refine h.setWorker (t := t) rfl (fun _ hu => hu) rfl (fun evts heq => ⟨evts, heq⟩) ?_
      intro page link hlater
      refine Awaits.setWorker (s := t) hlater fun urls hi => ?_
      have hi : s.worker i = .posting urls page := hi
      rw [hidle] at hi
      cases hi
  | @stop i hclosed hworker =>
      refine h.setWorker rfl (fun _ hu => hu) rfl (fun evts heq => ⟨evts, heq⟩) ?_
      intro page link hlater
      refine hlater.setWorker fun urls hi _ => ?_
      have hheld : page ∈ s.held := by
        refine mem_held (i := i) ?_
        rw [hi]
        exact Multiset.mem_singleton_self page
      rw [(hplaced.finished hclosed).2.1] at hheld
      exact Multiset.notMem_zero page hheld
  | @fetch i url content hfetching => exact h.fetch hfetching
  | @postLink i link url urls hposting =>
      refine h.setWorker rfl (fun _ hu => hu) rfl (fun evts heq => ?_) fun page l hlater =>
        hlater.postLink hplaced hposting
      exact ⟨evts ++ [⟨link, .uesOpen⟩], by rw [pushEvt, heq]; rfl⟩
  | @postDone i url hposting =>
      refine h.setWorker rfl (fun _ hu => hu) rfl (fun evts heq => ?_) fun page l hlater => ?_
      · exact ⟨evts ++ [⟨url, .uesDone⟩], by rw [pushEvt, heq]; rfl⟩
      · refine (hlater.push url .uesDone).setWorker fun urls hi => ?_
        have hi : s.worker i = .posting urls page := hi
        rw [hposting] at hi
        cases hi
        exact List.not_mem_nil

/-- When the channels are closed, every page that was taken is done. -/
theorem Placed.all_done {limit : Nat} (h : s.Placed limit) (hclosed : s.main = .closed) {url : Url}
    (hurl : url ∈ s.taken ++ s.waitDoing) : url ∈ s.taken ∧ url ∈ s.dones := by
  obtain ⟨hwait, hheld, hevts⟩ := h.finished hclosed
  rw [hwait, List.append_nil] at hurl
  have hmem : url ∈ (s.taken : Multiset Url) := Multiset.mem_coe.mpr hurl
  rw [h.placed, hheld, hevts, zero_add] at hmem
  exact ⟨hurl, hmem⟩

/-- When the channels are closed, every link that was found was handed out. -/
theorem Linked.closed {processFn : Url → Content → List Url} {entry : Url}
    (h : s.Linked processFn entry) (hplaced : s.Placed 0)
    (hclosed : s.main = .closed) {url : Url} (hurl : Reached processFn entry s.fetched url) :
    url ∈ s.taken := by
  obtain ⟨hwait, hheld, hevts⟩ := hplaced.finished hclosed
  have hhandled : ∀ u, s.Handled u → u ∈ s.taken := by
    rintro u (hmem | hsending)
    · rwa [← hplaced.handed, hwait, List.append_nil] at hmem
    · rw [hclosed] at hsending
      cases hsending
  have hdone : ∀ u, u ∈ s.taken → u ∈ s.dones := fun u hu =>
    (hplaced.all_done hclosed (List.mem_append_left _ hu)).2
  induction hurl with
  | entry =>
      rcases h.entry with hentry | ⟨hreceiving, _⟩
      · exact hhandled entry hentry
      · rw [hclosed] at hreceiving
        cases hreceiving
  | @link page link content _ hpage hlink ih =>
      rcases h.links page content hpage link hlink with hknown | hlater
      · exact hhandled link hknown
      · rcases hlater with ⟨i, urls, hi, _⟩ | ⟨_, _, _, _, hnew⟩
        · have hmem : page ∈ s.held := by
            refine mem_held (i := i) ?_
            rw [hi]
            exact Multiset.mem_singleton_self page
          rw [hheld] at hmem
          exact absurd hmem (Multiset.notMem_zero page)
        · exact absurd (hdone page ih) hnew

/-! ## All runs -/

theorem placed_start (limit : Nat) (entry : Url) :
    (start entry : Crawl Url Content k).Placed limit where
  handed := rfl
  nodup := List.nodup_nil
  bounded _ := Nat.zero_le limit
  sending url hurl := by cases hurl
  placed := by
    have hheld : (start entry : Crawl Url Content k).held = 0 := Finset.sum_eq_zero fun _ _ => rfl
    rw [hheld]
    rfl
  closed hc := by cases hc

theorem fetched_start (entry : Url) : (start entry : Crawl Url Content k).Fetched where
  worker i urls url h := by cases h
  evts url h := by cases h
  dones url h := by cases h

theorem linked_start (processFn : Url → Content → List Url) (entry : Url) :
    (start entry : Crawl Url Content k).Linked processFn entry where
  entry := .inr ⟨rfl, [], rfl⟩
  links url content h := by cases h

variable [DecidableEq Url] {processFn : Url → Content → List Url} {limit : Nat} {entry : Url}

theorem reachable_placed (h : (search processFn limit entry k).Reachable s) : s.Placed limit :=
  Transition.System.Reachable.invariant (I := Placed limit)
    (fun _ hi => hi ▸ placed_start limit entry) (fun _ _ _ hi hs => hi.moves (step_moves hs)) h

theorem reachable_fetched (h : (search processFn limit entry k).Reachable s) : s.Fetched :=
  Transition.System.Reachable.invariant (I := Fetched)
    (fun _ hi => hi ▸ fetched_start entry) (fun _ _ _ hi hs => hi.moves (step_moves hs)) h

theorem reachable_linked (h : (search processFn 0 entry k).Reachable s) :
    s.Linked processFn entry := by
  have hboth : s.Placed 0 ∧ s.Linked processFn entry :=
    Transition.System.Reachable.invariant
      (I := fun s => s.Placed 0 ∧ s.Linked processFn entry)
      (fun _ hi => hi ▸ ⟨placed_start 0 entry, linked_start processFn entry⟩)
      (fun _ _ _ hi hs => ⟨hi.1.moves (step_moves hs), hi.2.moves hi.1 (step_moves hs)⟩) h
  exact hboth.2

end Crawl

open Crawl

/-- For every link graph, every limit, every number of processors and every order of
channel operations and fetches. -/
theorem search_complete [DecidableEq Url] (processFn : Url → Content → List Url) (limit : Nat)
    (entry : Url) (k : Nat) {s : Crawl Url Content k}
    (h : (search processFn limit entry k).Reachable s) : Complete processFn limit entry s := by
  have hplaced := reachable_placed h
  have hfetched := reachable_fetched h
  refine ⟨?_, fun hpos => ?_, fun hclosed url hurl => ?_, fun hclosed hlimit url hurl => ?_⟩
  · rw [hplaced.handed]
    exact hplaced.nodup
  · rw [hplaced.handed]
    exact hplaced.bounded hpos
  · exact hfetched.dones url (hplaced.all_done hclosed hurl).2
  · subst hlimit
    exact (reachable_linked h).closed hplaced hclosed hurl

/-- Page 0 links to pages 1 and 2, and page 1 to itself and to page 0. -/
def threePages (url : Nat) (_ : Unit) : List Nat := if url = 0 then [1, 2] else [url, 0]

/-- Two processors fetch the three pages, and page 2 cannot be fetched. -/
def crawlThree [NeZero k] : List (CrawlAct Unit k) :=
  [.receive, .send, .take 0, .fetch 0 (some ()), .post 0, .receive, .post 0, .send,
   .take 1, .post 0, .receive, .send, .take 0, .fetch 0 none, .post 0, .fetch 1 (some ()),
   .receive, .receive, .post 1, .post 1, .post 1, .receive, .receive, .receive, .take 0, .take 1]

/-- The crawl of the three pages ends, and all were handed out. -/
theorem search_complete_three :
    ∃ s, Transition.exec (Crawl.step threePages 0) (Crawl.start 0) (crawlThree (k := 2)) = some s ∧
      s.main = .closed ∧ s.taken = [0, 1, 2] ∧ Complete threePages 0 0 s := by
  have hrun : (Transition.exec (Crawl.step threePages 0) (Crawl.start 0) (crawlThree (k := 2))).map
      (fun s => (s.main, s.taken)) = some (.closed, [0, 1, 2]) := by
    decide +kernel
  obtain ⟨s, hs, heq⟩ := Option.map_eq_some_iff.mp hrun
  obtain ⟨hmain, htaken⟩ := Prod.mk.inj heq
  exact ⟨s, hs, hmain, htaken,
    search_complete threePages 0 0 2 (Transition.exec_reachable rfl hs)⟩

end Spider
