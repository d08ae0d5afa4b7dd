import Zookeeper.Spider.HtmlQuery
import Mathlib.Data.List.Infix
import Mathlib.Data.List.Nodup

/-!
# Searching a document

`Query::Search` goes down from the root with the number of rules that are matched.  A tag
that matches the next rule moves on to the one after it, for all that is below, and a tag
that matches the last rule is found.

*Selection.*  `selects` says what a selector means: the tag matches the last part, and its
ancestors the earlier ones, the parent where a part is a child.

*Progress.*  The number of rules on the way down is how far the rules come, as descendants
of each other, anywhere on this way (`le_progress_iff`).  Nothing looks at `isChild`, and
below a tag that is found nothing is searched.  So what is found are the topmost tags that
match with every `>` read as a space (`search_eq`).
-/

namespace HtmlDoc

/-! ## Documents -/

/-- What a search sees of an `HtmlTag`. -/
structure HtmlTag where
  id : Bytes := []
  name : Bytes := []
  classes : List Bytes := []
deriving DecidableEq, Repr

/-- The children of a tag, in order. -/
inductive Children where
  | nil
  | text (text : Bytes) (rest : Children)
  | tag (tag : HtmlTag) (children rest : Children)
deriving DecidableEq, Repr

/-- `HtmlNode`. -/
inductive HtmlNode where
  | text (text : Bytes)
  | tag (tag : HtmlTag) (children : Children)
deriving DecidableEq, Repr

/-- The place of a tag: the positions of the children that lead to it. -/
abbrev Place := List Nat

/-! ## The search -/

/-- `Query::Check`. -/
def check (tag : HtmlTag) (r : QueryRule) : Bool :=
  if r.id ≠ [] ∧ tag.id ≠ r.id then false
  else if r.tagName ≠ [] ∧ tag.name ≠ r.tagName then false
  else r.classes.all fun c => tag.classes.any fun cls => c == cls

/-- `Query::Search` at a tag, which hands the number of the next rule to its children. -/
def visit (rules : List QueryRule) (tag : HtmlTag) (place : Place) (rule : Nat)
    (below : Nat → List Place) : List Place :=
  match rules[rule]? with
  | none => []
  | some r =>
      if check tag r then
        if rule = rules.length - 1 then [place] else below (rule + 1)
      else below rule

/-- The loop over the children of the tag at a place. -/
def Children.search (rules : List QueryRule) : Children → Place → Nat → Nat → List Place
  | .nil, _, _, _ => []
  | .text _ rest, place, i, rule => rest.search rules place (i + 1) rule
  | .tag t children rest, place, i, rule =>
      visit rules t (place ++ [i]) rule (fun next => children.search rules (place ++ [i]) 0 next) ++
        rest.search rules place (i + 1) rule

/-- `Query::Search`. -/
def search (rules : List QueryRule) : HtmlNode → List Place
  | .text _ => []
  | .tag t children => visit rules t [] 0 fun next => children.search rules [] 0 next

/-- `HtmlDocument::Search`, for the root of a document if it has one. -/
def HtmlDocument.search (root : Option HtmlNode) (turns : Nat) (q : Bytes) : Option (List Place) :=
  match root with
  | none => some []
  | some root => (query turns q).map fun rules => HtmlDoc.search rules root

/-! ## What a selector means -/

/-- The tags in document order, each at its place, with itself and its ancestors. -/
def Children.tags : Children → Place → Nat → List HtmlTag → List (Place × List HtmlTag)
  | .nil, _, _, _ => []
  | .text _ rest, place, i, above => rest.tags place (i + 1) above
  | .tag t children rest, place, i, above =>
      (place ++ [i], t :: above) :: (children.tags (place ++ [i]) 0 (t :: above) ++
        rest.tags place (i + 1) above)

def HtmlNode.tags : HtmlNode → List (Place × List HtmlTag)
  | .text _ => []
  | .tag t children => ([], [t]) :: children.tags [] 0 [t]

/-- The tags of a document. -/
def tagsOf (root : Option HtmlNode) : List (Place × List HtmlTag) :=
  (root.map HtmlNode.tags).getD []

/-- A tag has the id, the name and the classes of a part. -/
def Matches (tag : HtmlTag) (r : QueryRule) : Prop :=
  (r.id = [] ∨ tag.id = r.id) ∧ (r.tagName = [] ∨ tag.name = r.tagName) ∧
    ∀ c ∈ r.classes, c ∈ tag.classes

instance (tag : HtmlTag) (r : QueryRule) : Decidable (Matches tag r) :=
  inferInstanceAs (Decidable (_ ∧ _ ∧ _))

/-- The parts of a selector, the last one first, select a tag by itself and its ancestors. -/
def selects : List QueryRule → List HtmlTag → Bool
  | [], _ => false
  | _, [] => false
  | [r], tag :: _ => decide (Matches tag r)
  | r :: earlier :: rest, tag :: above =>
      decide (Matches tag r) &&
        if r.isChild then selects (earlier :: rest) above
        else above.tails.any fun up => selects (earlier :: rest) up

/-- A selector with every `>` read as a space. -/
def spaced (rules : List QueryRule) : List QueryRule :=
  rules.map fun r => { r with isChild := false }

/-- The places a selector means, in document order. -/
def selected (rules : List QueryRule) (root : Option HtmlNode) : List Place :=
  ((tagsOf root).filter fun e => selects rules.reverse e.2).map Prod.fst

/-- A tag is selected exactly if it is with every `>` read as a space, and no ancestor is.
So a selected tag is in no other such one, and one that is in no other is selected. -/
structure Plain (rules : List QueryRule) (chain : List HtmlTag) : Prop where
  outermost : selects rules.reverse chain = true →
    ∀ up ∈ chain.tail.tails, selects (spaced rules).reverse up = false
  child : selects (spaced rules).reverse chain = true →
    (∀ up ∈ chain.tail.tails, selects (spaced rules).reverse up = false) →
    selects rules.reverse chain = true

theorem check_eq (tag : HtmlTag) (r : QueryRule) : check tag r = decide (Matches tag r) := by
  rw [check]
  split
  next hid => simp [Matches, hid]
  next hid =>
    split
    next hname => simp [Matches, hname]
    next hname =>
        have hid' : r.id = [] ∨ tag.id = r.id := by
          by_contra h
          exact hid (not_or.1 h)
        have hname' : r.tagName = [] ∨ tag.name = r.tagName := by
          by_contra h
          exact hname (not_or.1 h)
        rw [Bool.eq_iff_iff, decide_eq_true_iff]
        simp [Matches, hid', hname']

/-! ## Progress on the way down -/

/-- The number of rules that are matched on the way to a tag, which is the first of its
chain. -/
def progress (rules : List QueryRule) : List HtmlTag → Nat
  | [] => 0
  | tag :: above =>
      match rules[progress rules above]? with
      | none => progress rules above
      | some r => if check tag r then progress rules above + 1 else progress rules above

theorem progress_le (rules : List QueryRule) (chain : List HtmlTag) :
    progress rules chain ≤ rules.length := by
  induction chain with
  | nil => exact Nat.zero_le _
  | cons tag above ih =>
      rw [progress]
      split
      next => exact ih
      next r hr =>
          have hlt := (List.getElem?_eq_some_iff.1 hr).1
          split <;> omega

/-- A tag adds to the progress what it matches of the next rule. -/
theorem lt_progress_cons {rules : List QueryRule} {k : Nat} (hk : k < rules.length) (tag : HtmlTag)
    (above : List HtmlTag) : k < progress rules (tag :: above) ↔
      k < progress rules above ∨ k ≤ progress rules above ∧ check tag rules[k] = true := by
  rw [progress]
  split
  next hnone =>
      have hle := List.getElem?_eq_none_iff.1 hnone
      simp only [show k < progress rules above by omega, true_or]
  next r hr =>
      obtain ⟨hlt, rfl⟩ := List.getElem?_eq_some_iff.1 hr
      rcases Nat.lt_trichotomy k (progress rules above) with hless | rfl | hmore
      · simp only [hless, true_or, iff_true]
        split <;> omega
      · simp only [lt_irrefl, false_or, le_refl, true_and]
        split <;> simp_all
      · have hnot : ¬ k ≤ progress rules above := by omega
        simp only [hnot, false_and, or_false]
        split <;> omega

/-- Some of a chain is selected: the tag or one of its ancestors. -/
def selectsAbove (rules : List QueryRule) (chain : List HtmlTag) : Bool :=
  chain.tails.any fun up => selects rules up

theorem selectsAbove_cons (rules : List QueryRule) (tag : HtmlTag) (above : List HtmlTag) :
    selectsAbove rules (tag :: above) =
      (selects rules (tag :: above) || selectsAbove rules above) := by
  simp [selectsAbove]

theorem selects_nil (rules : List QueryRule) : selects rules [] = false := by
  cases rules with
  | nil => rfl
  | cons r rest => cases rest <;> rfl

theorem selectsAbove_nil (rules : List QueryRule) : selectsAbove rules [] = false := by
  simp [selectsAbove, selects_nil]

/-- The first rules with every `>` read as a space, the last one first. -/
def spacedTo (rules : List QueryRule) (k : Nat) : List QueryRule := (spaced (rules.take k)).reverse

theorem spacedTo_succ {rules : List QueryRule} {k : Nat} (hk : k < rules.length) :
    spacedTo rules (k + 1) = { rules[k] with isChild := false } :: spacedTo rules k := by
  rw [spacedTo, spacedTo, List.take_succ_eq_append_getElem hk, spaced, List.map_append,
    List.reverse_append]
  rfl

theorem spacedTo_length (rules : List QueryRule) :
    spacedTo rules rules.length = (spaced rules).reverse := by
  rw [spacedTo, List.take_length]

/-- Of the ancestors any one may match the part before. -/
theorem selects_spacedTo {rules : List QueryRule} {k : Nat} (hk : k < rules.length)
    (tag : HtmlTag) (above : List HtmlTag) :
    selects (spacedTo rules (k + 1)) (tag :: above) = true ↔
      check tag rules[k] = true ∧ (k = 0 ∨ selectsAbove (spacedTo rules k) above = true) := by
  rw [spacedTo_succ hk, check_eq, decide_eq_true_iff]
  cases k with
  | zero =>
      simp only [true_or, and_true]
      exact decide_eq_true_iff
  | succ k =>
      rw [spacedTo_succ (Nat.lt_of_succ_lt hk), selects, Bool.and_eq_true, decide_eq_true_iff,
        if_neg Bool.false_ne_true]
      simp only [Nat.succ_ne_zero, false_or]
      rfl

/-- The rules come on as far as they select a tag of the chain as descendants of each
other. -/
theorem lt_progress_iff {rules : List QueryRule} (chain : List HtmlTag) {k : Nat}
    (hk : k < rules.length) :
    k < progress rules chain ↔ selectsAbove (spacedTo rules (k + 1)) chain = true := by
  induction chain generalizing k with
  | nil =>
      rw [selectsAbove_nil]
      exact iff_of_false (Nat.not_lt_zero k) Bool.false_ne_true
  | cons tag above ih =>
      have hbefore : k ≤ progress rules above ↔
          k = 0 ∨ selectsAbove (spacedTo rules k) above = true := by
        cases k with
        | zero => exact iff_of_true (Nat.zero_le _) (.inl rfl)
        | succ k =>
            rw [Nat.succ_le_iff, ih (Nat.lt_of_succ_lt hk)]
            simp only [Nat.succ_ne_zero, false_or]
      rw [lt_progress_cons hk, selectsAbove_cons, Bool.or_eq_true, selects_spacedTo hk, ih hk,
        hbefore, or_comm, and_comm]

/-- A tag at which the last rule is matched, and no ancestor is. -/
def found (rules : List QueryRule) (chain : List HtmlTag) : Bool :=
  selects (spaced rules).reverse chain && !selectsAbove (spaced rules).reverse chain.tail

/-- The tags that are found. -/
def foundOf (rules : List QueryRule) (tags : List (Place × List HtmlTag)) : List Place :=
  (tags.filter fun e => found rules e.2).map Prod.fst

theorem foundOf_cons (rules : List QueryRule) (place : Place) (chain : List HtmlTag)
    (tags : List (Place × List HtmlTag)) : foundOf rules ((place, chain) :: tags) =
      if found rules chain then place :: foundOf rules tags else foundOf rules tags := by
  rw [foundOf, List.filter_cons]
  split <;> rfl

theorem foundOf_append (rules : List QueryRule) (tags others : List (Place × List HtmlTag)) :
    foundOf rules (tags ++ others) = foundOf rules tags ++ foundOf rules others := by
  rw [foundOf, List.filter_append, List.map_append, foundOf, foundOf]

/-- Progress ends at such a tag. -/
theorem found_iff {rules : List QueryRule} (hrules : rules ≠ []) (tag : HtmlTag)
    (above : List HtmlTag) : found rules (tag :: above) = true ↔
      progress rules above < rules.length ∧ progress rules (tag :: above) = rules.length := by
  obtain ⟨k, hk⟩ : ∃ k, rules.length = k + 1 :=
    Nat.exists_eq_succ_of_ne_zero (mt List.length_eq_zero_iff.1 hrules)
  have habove := lt_progress_iff above (show k < rules.length by omega)
  have hchain := lt_progress_iff (tag :: above) (show k < rules.length by omega)
  have hle := progress_le rules (tag :: above)
  rw [selectsAbove_cons, Bool.or_eq_true] at hchain
  rw [← hk, spacedTo_length] at habove hchain
  rw [found, Bool.and_eq_true, Bool.not_eq_true', List.tail_cons, ← Bool.not_eq_true, ← habove]
  constructor
  · rintro ⟨hselects, hnot⟩
    have hlt := hchain.2 (.inl hselects)
    omega
  · rintro ⟨hlt, heq⟩
    refine ⟨(hchain.1 (by omega)).resolve_right fun h => ?_, by omega⟩
    have := habove.2 h
    omega

theorem progress_cons_of_full {rules : List QueryRule} {above : List HtmlTag}
    (h : progress rules above = rules.length) (tag : HtmlTag) :
    progress rules (tag :: above) = rules.length := by
  rw [progress, h, List.getElem?_eq_none le_rfl]

/-- Nothing is found below a tag that is. -/
theorem not_found_below {rules : List QueryRule} (hrules : rules ≠ []) (children : Children)
    {above : List HtmlTag} (h : progress rules above = rules.length) (place : Place) (i : Nat) :
    foundOf rules (children.tags place i above) = [] := by
  induction children generalizing above place i with
  | nil => rfl
  | text text rest ih => exact ih h place (i + 1)
  | tag t children rest ihchildren ihrest =>
      have hnot : ¬ found rules (t :: above) = true := by
        rw [found_iff hrules]
        omega
      rw [Children.tags, foundOf_cons, if_neg hnot, foundOf_append,
        ihchildren (progress_cons_of_full h t), ihrest h, List.append_nil]

/-! ## What is found -/

/-- A tag that the search comes to, and what it finds there and below. -/
theorem visit_eq {rules : List QueryRule} {tag : HtmlTag} {above : List HtmlTag}
    (hopen : progress rules above < rules.length) (children : Children) (place : Place)
    (below : Nat → List Place)
    (hbelow : progress rules (tag :: above) < rules.length →
      below (progress rules (tag :: above)) =
        foundOf rules (children.tags place 0 (tag :: above))) :
    visit rules tag place (progress rules above) below =
      foundOf rules ((place, tag :: above) :: children.tags place 0 (tag :: above)) := by
  have hrules : rules ≠ [] := by
    rintro rfl
    exact Nat.not_lt_zero _ hopen
  have hfound := found_iff hrules tag above
  have hnext : progress rules (tag :: above) =
      if check tag rules[progress rules above] then progress rules above + 1
      else progress rules above := by
    rw [progress, List.getElem?_eq_getElem hopen]
  rw [visit, List.getElem?_eq_getElem hopen]
  dsimp only
  split
  next hcheck =>
      rw [if_pos hcheck] at hnext
      split
      next hlast =>
          -- the last rule is matched
          have hfull : progress rules (tag :: above) = rules.length := by omega
          rw [foundOf_cons, if_pos (hfound.2 ⟨hopen, hfull⟩), not_found_below hrules _ hfull]
      next hlast =>
          rw [← hnext, hbelow (by omega), foundOf_cons, if_neg]
          rw [hfound]
          omega
  next hcheck =>
      rw [if_neg hcheck] at hnext
      have hstay := hbelow (by omega)
      rw [hnext] at hstay
      rw [hstay, foundOf_cons, if_neg]
      rw [hfound]
      omega

theorem children_search_eq {rules : List QueryRule} (children : Children) {above : List HtmlTag}
    (hopen : progress rules above < rules.length) (place : Place) (i : Nat) :
    children.search rules place i (progress rules above) =
      foundOf rules (children.tags place i above) := by
  induction children generalizing above place i with
  | nil => rfl
  | text text rest ih => exact ih hopen place (i + 1)
  | tag t children rest ihchildren ihrest =>
      rw [Children.search, Children.tags, ihrest hopen, ← List.cons_append, foundOf_append,
        visit_eq hopen children (place ++ [i]) _ fun h => ihchildren h _ 0]

/-- The search finds the topmost tags that are selected with every `>` read as a space. -/
theorem search_eq {rules : List QueryRule} (hrules : rules ≠ []) (root : HtmlNode) :
    search rules root = foundOf rules root.tags := by
  cases root with
  | text text => rfl
  | tag t children =>
      exact @visit_eq rules t [] (List.length_pos_iff.2 hrules) children [] _
        fun h => children_search_eq children h [] 0

/-! ## Places -/

theorem prefix_of_mem_tags {children : Children} {place : Place} {i : Nat} {above : List HtmlTag}
    {e : Place × List HtmlTag} (h : e ∈ children.tags place i above) :
    ∃ j, i ≤ j ∧ place ++ [j] <+: e.1 := by
  induction children generalizing place i above with
  | nil => cases h
  | text text rest ih =>
      obtain ⟨j, hj, hprefix⟩ := ih h
      exact ⟨j, Nat.le_of_succ_le hj, hprefix⟩
  | tag t children rest ihchildren ihrest =>
      rcases List.mem_cons.1 h with rfl | h
      · exact ⟨i, le_rfl, List.prefix_rfl⟩
      · rcases List.mem_append.1 h with h | h
        · obtain ⟨j, -, hprefix⟩ := ihchildren h
          exact ⟨i, le_rfl, (List.prefix_append _ _).trans hprefix⟩
        · obtain ⟨j, hj, hprefix⟩ := ihrest h
          exact ⟨j, Nat.le_of_succ_le hj, hprefix⟩

/-- Places below different children are different. -/
theorem eq_of_prefix {place other : Place} {i j : Nat} (hi : place ++ [i] <+: other)
    (hj : place ++ [j] <+: other) : i = j := by
  have h := (List.prefix_of_prefix_length_le hi hj (by simp)).eq_of_length (by simp)
  exact List.singleton_inj.1 (List.append_cancel_left h)

/-- No two tags are at one place. -/
theorem nodup_tags (children : Children) (place : Place) (i : Nat) (above : List HtmlTag) :
    ((children.tags place i above).map Prod.fst).Nodup := by
  induction children generalizing place i above with
  | nil => exact List.nodup_nil
  | text text rest ih => exact ih place (i + 1) above
  | tag t children rest ihchildren ihrest =>
      rw [Children.tags, List.map_cons, List.map_append, List.nodup_cons, List.nodup_append]
      refine ⟨fun hmem => ?_, ihchildren _ 0 _, ihrest _ (i + 1) _, fun a ha b hb heq => ?_⟩
      · rcases List.mem_append.1 hmem with h | h
        · obtain ⟨e, he, heq⟩ := List.mem_map.1 h
          obtain ⟨j, -, hprefix⟩ := prefix_of_mem_tags he
          have hlength := hprefix.length_le
          rw [show e.1 = place ++ [i] from heq, List.length_append,
            List.length_singleton] at hlength
          omega
        · obtain ⟨e, he, heq⟩ := List.mem_map.1 h
          obtain ⟨j, hj, hprefix⟩ := prefix_of_mem_tags he
          rw [heq] at hprefix
          have hsame := eq_of_prefix hprefix List.prefix_rfl
          omega
      · obtain ⟨e, he, rfl⟩ := List.mem_map.1 ha
        obtain ⟨e', he', rfl⟩ := List.mem_map.1 hb
        obtain ⟨j, -, hprefix⟩ := prefix_of_mem_tags he
        obtain ⟨j', hj', hprefix'⟩ := prefix_of_mem_tags he'
        have hsame := eq_of_prefix ((List.prefix_append _ _).trans hprefix) (heq ▸ hprefix')
        omega

theorem nodup_tagsOf (root : Option HtmlNode) : ((tagsOf root).map Prod.fst).Nodup := by
  cases root with
  | none => exact List.nodup_nil
  | some root =>
      cases root with
      | text text => exact List.nodup_nil
      | tag t children =>
          refine List.nodup_cons.2 ⟨fun hmem => ?_, nodup_tags children [] 0 [t]⟩
          obtain ⟨e, he, heq⟩ := List.mem_map.1 hmem
          obtain ⟨j, -, hprefix⟩ := prefix_of_mem_tags he
          rw [heq] at hprefix
          exact absurd hprefix.length_le (by simp)

/-- Without repetition, what is kept of a list says what is kept of each entry. -/
theorem map_filter_inj {α β : Type} {f : α → β} {l : List α} (hl : (l.map f).Nodup)
    {p r : α → Bool} : (l.filter p).map f = (l.filter r).map f ↔ ∀ e ∈ l, p e = r e := by
  constructor
  · intro h e he
    have hmem : ∀ s : α → Bool, f e ∈ (l.filter s).map f ↔ s e = true := by
      intro s
      rw [List.mem_map]
      constructor
      · rintro ⟨e', he', heq⟩
        obtain ⟨hmem, hs⟩ := List.mem_filter.1 he'
        exact List.inj_on_of_nodup_map hl hmem he heq ▸ hs
      · exact fun hs => ⟨e, List.mem_filter.2 ⟨he, hs⟩, rfl⟩
    rw [Bool.eq_iff_iff, ← hmem p, ← hmem r, h]
  · intro h
    rw [List.filter_congr h]

/-! ## Soundness and completeness -/

/-- A selector selects no more than with every `>` read as a space. -/
theorem selects_spaced {rules : List QueryRule} {chain : List HtmlTag}
    (h : selects rules chain = true) : selects (spaced rules) chain = true := by
  induction rules generalizing chain with
  | nil => exact absurd h Bool.false_ne_true
  | cons r rest ih =>
      cases chain with
      | nil =>
          rw [selects_nil] at h
          exact absurd h Bool.false_ne_true
      | cons tag above =>
          cases rest with
          | nil => exact h
          | cons earlier rest =>
              rw [selects, Bool.and_eq_true] at h
              refine Bool.and_eq_true_iff.2 ⟨h.1, ?_⟩
              rw [if_neg Bool.false_ne_true]
              refine List.any_eq_true.2 ?_
              have hrest := h.2
              split at hrest
              next => exact ⟨above, (List.mem_tails _ _).2 List.suffix_rfl, ih hrest⟩
              next =>
                  obtain ⟨up, hmem, hup⟩ := List.any_eq_true.1 hrest
                  exact ⟨up, hmem, ih hup⟩

theorem plain_iff (rules : List QueryRule) (chain : List HtmlTag) :
    Plain rules chain ↔ found rules chain = selects rules.reverse chain := by
  have hnone : (∀ up ∈ chain.tail.tails, selects (spaced rules).reverse up = false) ↔
      selectsAbove (spaced rules).reverse chain.tail = false := by
    rw [selectsAbove, List.any_eq_false]
    simp only [Bool.not_eq_true]
  have hspaced : selects rules.reverse chain = true →
      selects (spaced rules).reverse chain = true := by
    rw [spaced, ← List.map_reverse]
    exact selects_spaced
  rw [Bool.eq_iff_iff, found, Bool.and_eq_true, Bool.not_eq_true', ← hnone]
  constructor
  · intro h
    exact ⟨fun hfound => h.child hfound.1 hfound.2, fun hsel => ⟨hspaced hsel, h.outermost hsel⟩⟩
  · intro h
    exact ⟨fun hsel => (h.2 hsel).2, fun hsel hnot => h.1 ⟨hsel, hnot⟩⟩

instance (rules : List QueryRule) (chain : List HtmlTag) : Decidable (Plain rules chain) :=
  decidable_of_iff _ (plain_iff rules chain).symm

/-- Every token has a rule. -/
theorem query_ne_nil {turns : Nat} {q : Bytes} {rules : List QueryRule}
    (h : query turns q = some rules) : rules ≠ [] := by
  obtain ⟨-, rfl⟩ := query_eq_some.1 ⟨turns, h⟩
  have hpos := List.length_pos_iff.2 (List.splitOn_ne_nil 32 q)
  exact List.length_pos_iff.1 (hpos.trans_le (length_le_flatMap _))

theorem document_search_eq {turns : Nat} {q : Bytes} {rules : List QueryRule}
    (h : query turns q = some rules) (root : Option HtmlNode) :
    HtmlDocument.search root turns q = some (foundOf rules (tagsOf root)) := by
  cases root with
  | none => rfl
  | some root =>
      rw [HtmlDocument.search, h]
      exact congrArg some (search_eq (query_ne_nil h) root)

/-- A search returns what the selector means, in document order and without repetition, if
and only if every tag of the document is plain. -/
theorem search_iff {turns : Nat} {q : Bytes} {rules : List QueryRule}
    (h : query turns q = some rules) (root : Option HtmlNode) :
    HtmlDocument.search root turns q = some (selected rules root) ↔
      ∀ e ∈ tagsOf root, Plain rules e.2 := by
  rw [document_search_eq h, Option.some.injEq, foundOf, selected,
    map_filter_inj (nodup_tagsOf root)]
  simp only [plain_iff]

/-- `a b` in `<a><b/></a>`. -/
theorem search_descendant : HtmlDocument.search
    (some (.tag { name := [97] } (.tag { name := [98] } .nil .nil))) 1 [97, 32, 98] =
      some (selected [{ tagName := [97] }, { tagName := [98] }]
        (some (.tag { name := [97] } (.tag { name := [98] } .nil .nil)))) :=
  (search_iff (by decide) _).2 (by decide)

/-- `a` in `<a><a/></a>`: the inner tag is not found. -/
theorem nested_not_found : ¬ ∀ (turns : Nat) (q : Bytes) (rules : List QueryRule)
    (root : Option HtmlNode), query turns q = some rules →
      HtmlDocument.search root turns q = some (selected rules root) := by
  intro h
  have hnested := h 1 [97] [{ tagName := [97] }]
    (some (.tag { name := [97] } (.tag { name := [97] } .nil .nil))) (by decide)
  exact absurd hnested (by decide)

end HtmlDoc
