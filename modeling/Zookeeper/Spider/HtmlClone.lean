import Mathlib.Algebra.Order.BigOperators.Group.List
import Zookeeper.Spider.HtmlSearch

/-!
# Copies of a document

The copy constructor of `HtmlDocument` clones the tree of its nodes
(`spider/html/HtmlDocument.cpp`).  `HtmlTag::Clone` copies each field on its own, and leaves
out `_id`.

The nodes of a tree stand at addresses, so that a copy can be told from what it is a copy of.
`clone_eq` says what is copied: all but the addresses and the ids.  `clone_faithful` is what
follows for what is rendered and what is found.
-/

namespace HtmlDoc

/-- `HtmlTag`, but for its children. -/
structure Tag extends HtmlTag where
  /-- `_attributes`, in the order of the map. -/
  attributes : List (Bytes × Bytes) := []
  hasCloseTag : Bool := false
deriving DecidableEq, Repr

/-- The children of a tag, in order, each at an address. -/
inductive Nodes (ν : Type) where
  | nil
  | text (at_ : ν) (text : Bytes) (rest : Nodes ν)
  | tag (at_ : ν) (tag : Tag) (children rest : Nodes ν)
deriving DecidableEq, Repr

/-- An `HtmlTag` at an address. -/
structure TagNode (ν : Type) where
  at_ : ν
  tag : Tag
  children : Nodes ν
deriving DecidableEq, Repr

/-! ## What a document shows -/

/-- What `Search` sees of the children. -/
def Nodes.view {ν : Type} : Nodes ν → Children
  | .nil => .nil
  | .text _ data rest => .text data rest.view
  | .tag _ t children rest => .tag t.toHtmlTag children.view rest.view

def TagNode.view {ν : Type} (node : TagNode ν) : HtmlNode :=
  .tag node.tag.toHtmlTag node.children.view

/-- `"` -/
def quote : Bytes := [34]

/-- The start tag in `OuterHtml`, up to what closes it. -/
def Tag.open_ (tag : Tag) : Bytes :=
  [60] ++ tag.name ++
    (if tag.id = [] then [] else [32, 105, 100, 61] ++ quote ++ tag.id ++ quote) ++
    (if tag.classes = [] then []
      else [32, 99, 108, 97, 115, 115, 61] ++ quote ++ tag.classes.flatMap (fun c => 32 :: c) ++
        quote) ++
    tag.attributes.flatMap fun p => 32 :: p.1 ++ [61] ++ quote ++ p.2 ++ quote

/-- `OuterHtml` of a tag, with that of its children. -/
def Tag.outerHtml (tag : Tag) (isEmpty : Bool) (inner : Bytes) : Bytes :=
  tag.open_ ++
    if !tag.hasCloseTag && isEmpty then [32, 47, 62]
    else [62] ++ inner ++ [60, 47] ++ tag.name ++ [62]

def Nodes.isEmpty {ν : Type} : Nodes ν → Bool
  | .nil => true
  | _ => false

/-- `HtmlTag::InnerHtml`, of a tag with these children. -/
def Nodes.innerHtml {ν : Type} : Nodes ν → Bytes
  | .nil => []
  | .text _ data rest => data ++ rest.innerHtml
  | .tag _ t children rest =>
      t.outerHtml children.isEmpty children.innerHtml ++ rest.innerHtml

/-- `HtmlTag::OuterHtml`. -/
def TagNode.outerHtml {ν : Type} (node : TagNode ν) : Bytes :=
  node.tag.outerHtml node.children.isEmpty node.children.innerHtml

/-! ## The copy -/

/-- `HtmlTag::Clone`, but for the children. -/
def Tag.clone (tag : Tag) : Tag where
  name := tag.name
  hasCloseTag := tag.hasCloseTag
  attributes := tag.attributes
  classes := tag.classes

/-- The loop of `HtmlTag::Clone`, with the next address that `new` returns. -/
def Nodes.clone : Nodes Nat → Nat → Nodes Nat × Nat
  | .nil, next => (.nil, next)
  | .text _ data rest, next =>
      let (rest, next') := rest.clone (next + 1)
      (.text next data rest, next')
  | .tag _ t children rest, next =>
      let (children, next') := children.clone (next + 1)
      let (rest, next'') := rest.clone next'
      (.tag next t.clone children rest, next'')

/-- `HtmlTag::Clone`. -/
def TagNode.clone (node : TagNode Nat) (next : Nat) : TagNode Nat where
  at_ := next
  tag := node.tag.clone
  children := (node.children.clone (next + 1)).1

/-- The addresses of nodes. -/
def Nodes.addresses {ν : Type} : Nodes ν → List ν
  | .nil => []
  | .text at_ _ rest => at_ :: rest.addresses
  | .tag at_ _ children rest => at_ :: (children.addresses ++ rest.addresses)

def TagNode.addresses {ν : Type} (node : TagNode ν) : List ν := node.at_ :: node.children.addresses

/-- The tags among nodes. -/
def Nodes.tagList {ν : Type} : Nodes ν → List Tag
  | .nil => []
  | .text _ _ rest => rest.tagList
  | .tag _ t children rest => t :: (children.tagList ++ rest.tagList)

def TagNode.tagList {ν : Type} (node : TagNode ν) : List Tag := node.tag :: node.children.tagList

/-- What a copy is for: it is rendered as the original is, every search finds its nodes in
the same places, and none of them is a node of the original. -/
def Faithful (node copy : TagNode Nat) : Prop :=
  copy.outerHtml = node.outerHtml ∧
    (∀ turns q, HtmlDocument.search (some copy.view) turns q =
      HtmlDocument.search (some node.view) turns q) ∧
    ∀ a ∈ copy.addresses, a ∉ node.addresses

/-! ## What is copied -/

/-- Nodes without their ids and addresses. -/
def Nodes.bare {ν : Type} : Nodes ν → Nodes Unit
  | .nil => .nil
  | .text _ data rest => .text () data rest.bare
  | .tag _ t children rest => .tag () t.clone children.bare rest.bare

theorem Tag.clone_clone (tag : Tag) : tag.clone.clone = tag.clone := rfl

/-- A copy is the original, but for the ids and the addresses. -/
theorem Nodes.clone_bare (nodes : Nodes Nat) (next : Nat) :
    (nodes.clone next).1.bare = nodes.bare := by
  induction nodes generalizing next with
  | nil => rfl
  | text at_ data rest ih => simp only [Nodes.clone, Nodes.bare, ih]
  | tag at_ t children rest ihchildren ih =>
      simp only [Nodes.clone, Nodes.bare, ihchildren, ih, Tag.clone_clone]

/-- A copy has no ids. -/
theorem Nodes.clone_ids (nodes : Nodes Nat) (next : Nat) :
    ∀ t ∈ (nodes.clone next).1.tagList, t.id = [] := by
  induction nodes generalizing next with
  | nil => exact fun t ht => by cases ht
  | text at_ data rest ih => exact ih (next + 1)
  | tag at_ t children rest ihchildren ih =>
      intro u hu
      rcases List.mem_cons.mp hu with rfl | hu
      · rfl
      · rcases List.mem_append.mp hu with hu | hu
        · exact ihchildren _ u hu
        · exact ih _ u hu

/-- The nodes of a copy are new. -/
theorem Nodes.clone_addresses (nodes : Nodes Nat) (next : Nat) :
    next ≤ (nodes.clone next).2 ∧ ∀ a ∈ (nodes.clone next).1.addresses, next ≤ a := by
  induction nodes generalizing next with
  | nil => exact ⟨Nat.le_refl _, fun a ha => by cases ha⟩
  | text at_ data rest ih =>
      obtain ⟨hnext, hall⟩ := ih (next + 1)
      refine ⟨Nat.le_of_succ_le hnext, fun a ha => ?_⟩
      rcases List.mem_cons.mp ha with rfl | ha
      · exact Nat.le_refl _
      · exact Nat.le_of_succ_le (hall a ha)
  | tag at_ t children rest ihchildren ih =>
      obtain ⟨hnext, hchildren⟩ := ihchildren (next + 1)
      obtain ⟨hnext', hrest⟩ := ih (children.clone (next + 1)).2
      refine ⟨Nat.le_trans (Nat.le_of_succ_le hnext) hnext', fun a ha => ?_⟩
      rcases List.mem_cons.mp ha with rfl | ha
      · exact Nat.le_refl _
      · rcases List.mem_append.mp ha with ha | ha
        · exact Nat.le_of_succ_le (hchildren a ha)
        · exact Nat.le_trans (Nat.le_of_succ_le hnext) (hrest a ha)

/-! ## Nodes without ids -/

theorem Tag.clone_eq {t : Tag} (h : t.id = []) : t.clone = t := by
  obtain ⟨⟨id, name, classes⟩, attributes, hasCloseTag⟩ := t
  cases h
  rfl

theorem Nodes.bare_isEmpty {ν : Type} (nodes : Nodes ν) : nodes.bare.isEmpty = nodes.isEmpty := by
  cases nodes <;> rfl

/-- What is rendered and what is searched do not depend on addresses. -/
theorem Nodes.bare_of_ids {ν : Type} {nodes : Nodes ν} (h : ∀ t ∈ nodes.tagList, t.id = []) :
    nodes.bare.innerHtml = nodes.innerHtml ∧ nodes.bare.view = nodes.view := by
  induction nodes with
  | nil => exact ⟨rfl, rfl⟩
  | text at_ data rest ih =>
      obtain ⟨hinner, hview⟩ := ih h
      simp only [Nodes.bare, Nodes.innerHtml, Nodes.view, hinner, hview, and_self]
  | tag at_ t children rest ihchildren ih =>
      have ht := Tag.clone_eq (h t List.mem_cons_self)
      obtain ⟨hinner, hview⟩ := ihchildren fun u hu =>
        h u (List.mem_cons_of_mem t (List.mem_append_left _ hu))
      obtain ⟨hinner', hview'⟩ := ih fun u hu =>
        h u (List.mem_cons_of_mem t (List.mem_append_right _ hu))
      simp only [Nodes.bare, Nodes.innerHtml, Nodes.view, ht, Nodes.bare_isEmpty, hinner, hview,
        hinner', hview', and_self]

/-! ## What an id adds -/

theorem Tag.length_open_clone (t : Tag) :
    t.clone.open_.length ≤ t.open_.length ∧
      (t.id ≠ [] → t.clone.open_.length < t.open_.length) := by
  obtain ⟨⟨id, name, classes⟩, attributes, hasCloseTag⟩ := t
  by_cases h : id = []
  · simp only [Tag.open_, Tag.clone, h]
    exact ⟨Nat.le_refl _, fun hne => absurd rfl hne⟩
  · have hopen : (Tag.clone ⟨⟨id, name, classes⟩, attributes, hasCloseTag⟩).open_.length +
        ([32, 105, 100, 61] ++ quote ++ id ++ quote).length =
          (Tag.open_ ⟨⟨id, name, classes⟩, attributes, hasCloseTag⟩).length := by
      by_cases hclasses : classes = []
      · simp [Tag.open_, Tag.clone, h, hclasses]
        omega
      · simp [Tag.open_, Tag.clone, h, hclasses]
        omega
    have hpos : 0 < ([32, 105, 100, 61] ++ quote ++ id ++ quote).length := by simp
    exact ⟨by omega, fun _ => by omega⟩

/-- Without its id a tag is shorter, and so it is with less inside. -/
theorem Tag.length_outerHtml (t : Tag) (isEmpty : Bool) {inner inner' : Bytes}
    (hle : inner'.length ≤ inner.length) :
    (t.clone.outerHtml isEmpty inner').length ≤ (t.outerHtml isEmpty inner).length ∧
      (t.id ≠ [] ∨ isEmpty = false ∧ inner'.length < inner.length →
        (t.clone.outerHtml isEmpty inner').length < (t.outerHtml isEmpty inner).length) := by
  obtain ⟨hopen, hless⟩ := t.length_open_clone
  have hname : t.clone.name = t.name := rfl
  have hclose : t.clone.hasCloseTag = t.hasCloseTag := rfl
  simp only [Tag.outerHtml, hname, hclose, List.length_append]
  split
  next hshort =>
    refine ⟨by omega, ?_⟩
    rintro (hid | ⟨hfull, _⟩)
    · have := hless hid
      omega
    · rw [hfull, Bool.and_false] at hshort
      cases hshort
  next =>
    simp only [List.length_append]
    refine ⟨by omega, ?_⟩
    rintro (hid | ⟨_, hinner⟩)
    · have := hless hid
      omega
    · omega

/-- Nodes with an id among them are longer than without it. -/
theorem Nodes.length_bare {ν : Type} (nodes : Nodes ν) :
    nodes.bare.innerHtml.length ≤ nodes.innerHtml.length ∧
      ((∃ t ∈ nodes.tagList, t.id ≠ []) →
        nodes.bare.innerHtml.length < nodes.innerHtml.length) := by
  induction nodes with
  | nil =>
      refine ⟨Nat.le_refl _, ?_⟩
      rintro ⟨t, ht, _⟩
      cases ht
  | text at_ data rest ih =>
      simp only [Nodes.bare, Nodes.innerHtml, Nodes.tagList, List.length_append]
      exact ⟨by omega, fun h => by have := ih.2 h; omega⟩
  | tag at_ t children rest ihchildren ih =>
      obtain ⟨hle, hless⟩ := t.length_outerHtml children.isEmpty ihchildren.1
      simp only [Nodes.bare, Nodes.innerHtml, Nodes.tagList, Nodes.bare_isEmpty,
        List.length_append]
      refine ⟨Nat.add_le_add hle ih.1, ?_⟩
      rintro ⟨u, hu, hid⟩
      rcases List.mem_cons.mp hu with rfl | hu
      · exact Nat.add_lt_add_of_lt_of_le (hless (.inl hid)) ih.1
      · rcases List.mem_append.mp hu with hu | hu
        · have hfull : children.isEmpty = false := by
            cases children with
            | nil => cases hu
            | text _ _ _ => rfl
            | tag _ _ _ _ => rfl
          have hinner := ihchildren.2 ⟨u, hu, hid⟩
          exact Nat.add_lt_add_of_lt_of_le (hless (.inr ⟨hfull, hinner⟩)) ih.1
        · exact Nat.add_lt_add_of_le_of_lt hle (ih.2 ⟨u, hu, hid⟩)

/-! ## Copies -/

/-- What a copy shows is the original without its ids. -/
theorem Nodes.clone_eq (nodes : Nodes Nat) (next : Nat) :
    (nodes.clone next).1.innerHtml = nodes.bare.innerHtml ∧
      (nodes.clone next).1.view = nodes.bare.view ∧
      (nodes.clone next).1.isEmpty = nodes.isEmpty := by
  obtain ⟨hinner, hview⟩ := Nodes.bare_of_ids (nodes.clone_ids next)
  rw [← Nodes.bare_isEmpty (nodes.clone next).1, ← hinner, ← hview, Nodes.clone_bare,
    Nodes.bare_isEmpty]
  exact ⟨rfl, rfl, rfl⟩

/-- A copy of a tag, made where all addresses in use are taken, is faithful exactly if
neither the tag nor any tag below it has an id. -/
theorem clone_faithful (node : TagNode Nat) :
    (∀ next, (∀ a ∈ node.addresses, a < next) → Faithful node (node.clone next)) ↔
      ∀ t ∈ node.tagList, t.id = [] := by
  have hcopy := fun next => node.children.clone_eq next
  constructor
  · intro h
    obtain ⟨next, hnext⟩ : ∃ next, ∀ a ∈ node.addresses, a < next :=
      ⟨node.addresses.sum + 1, fun a ha => Nat.lt_succ_of_le (List.le_sum_of_mem ha)⟩
    obtain ⟨houter, _, _⟩ := h next hnext
    have hlength := congrArg List.length houter
    simp only [TagNode.outerHtml, TagNode.clone, hcopy] at hlength
    obtain ⟨hle, hless⟩ := node.children.length_bare
    have houters := node.tag.length_outerHtml node.children.isEmpty hle
    intro t ht
    by_contra hid
    rcases List.mem_cons.mp ht with rfl | ht
    · have := houters.2 (.inl hid)
      omega
    · have hfull : node.children.isEmpty = false := by
        cases hchildren : node.children with
        | nil =>
            rw [hchildren] at ht
            cases ht
        | text _ _ _ => rfl
        | tag _ _ _ _ => rfl
      have := houters.2 (.inr ⟨hfull, hless ⟨t, ht, hid⟩⟩)
      omega
  · intro hids next hnext
    have htag := Tag.clone_eq (hids node.tag List.mem_cons_self)
    obtain ⟨hinner, hview⟩ := Nodes.bare_of_ids fun t ht =>
      hids t (List.mem_cons_of_mem node.tag ht)
    refine ⟨?_, fun turns q => ?_, fun a ha hmem => ?_⟩
    · simp only [TagNode.outerHtml, TagNode.clone, hcopy, htag, hinner]
    · simp only [TagNode.view, TagNode.clone, hcopy, htag, hview]
    · have hless := hnext a hmem
      rcases List.mem_cons.mp ha with rfl | ha
      · exact Nat.lt_irrefl _ hless
      · have hge := (node.children.clone_addresses (next + 1)).2 a ha
        omega

/-- A tag `p` with the id `a`. -/
def tagWithId : TagNode Nat where
  at_ := 0
  tag := { name := [112], id := [97], hasCloseTag := true }
  children := .nil

/-- The copy of a tag with an id is rendered without it. -/
theorem clone_loses_id :
    ¬ ∀ (node : TagNode Nat) (next : Nat), (∀ a ∈ node.addresses, a < next) →
      Faithful node (node.clone next) := by
  intro h
  obtain ⟨houter, _, _⟩ := h tagWithId 1 (by decide)
  exact absurd houter (by decide)

end HtmlDoc
