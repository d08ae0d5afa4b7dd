import Zookeeper.Spider.TagStack

/-!
# Pages that are printed and read

`InnerHtml` prints a document (`spider/html/HtmlDocument.cpp`), and `HtmlParser::Parse` reads
one.  A document comes back from its page if its names and values are such as a page can have
(`Nodes.Printable`), but for its classes.  `OuterHtml` puts a blank in front of each class, and
`Split` makes an empty class of what is in front of the first blank.

The attributes are in an `unordered_map`, and may be printed in any order.
`saved_reads_back` is about a document that is printed and read any number of times.
-/

namespace HtmlDoc

/-! ## What can be printed -/

/-- A text that is a child of its own: it has a letter, and `Trim` leaves it. -/
structure PlainText (text : Bytes) : Prop where
  letter : text.any isalpha
  trimmed : trim text = text
  plain : ∀ c ∈ text, c ≠ 60 ∧ c ≠ 13 ∧ c ≠ 10

/-- A name in lower case, which begins with a letter. -/
structure PlainKey (name : Bytes) : Prop where
  letter : ∃ c ∈ name.head?, isalpha c
  plain : ∀ c ∈ name, isAttrChar c ∧ tolower c = c

/-- What a value may be: no quote, and nothing that is taken for the end of the tag. -/
structure PlainValue (hasCloseTag : Bool) (value : Bytes) : Prop where
  quote : 34 ∉ value
  close : value ≠ tokenClose
  slash : hasCloseTag → value ≠ tokenSlash

structure Tag.Printable (t : Tag) : Prop where
  letter : ∃ c ∈ t.name.head?, isalpha c
  name : ∀ c ∈ t.name.tail, c ≠ 62 ∧ c ≠ 47 ∧ isBlank c = false ∧ tolower c = c
  raw : isRaw t.name = false
  void : t.hasCloseTag → t.name ∉ voidTags
  id : PlainValue t.hasCloseTag t.id
  classes : ∀ c ∈ t.classes, 34 ∉ c ∧ 32 ∉ c
  keys : ∀ p ∈ t.attributes, PlainKey p.1 ∧ p.1 ≠ keyId ∧ p.1 ≠ keyClass
  values : ∀ p ∈ t.attributes, PlainValue t.hasCloseTag p.2
  distinct : (t.attributes.map Prod.fst).Nodup

def Nodes.isText {ν : Type} : Nodes ν → Bool
  | .text .. => true
  | _ => false

/-- No text stands beside another one, and a tag that is not to be closed has no children. -/
def Nodes.Printable {ν : Type} : Nodes ν → Prop
  | .nil => True
  | .text _ data rest => PlainText data ∧ rest.isText = false ∧ rest.Printable
  | .tag _ t children rest =>
      t.Printable ∧ (t.hasCloseTag = false → children.isEmpty) ∧ children.Printable ∧ rest.Printable

/-! ## Tokens -/

/-- The attributes of a tag as `OuterHtml` prints them. -/
def Tag.printed (t : Tag) : List (Bytes × Bytes) :=
  (if t.id = [] then [] else [(keyId, t.id)]) ++
    (if t.classes = [] then [] else [(keyClass, t.classes.flatMap fun c => 32 :: c)]) ++
    t.attributes

def attrText (p : Bytes × Bytes) : Bytes := 32 :: p.1 ++ [61] ++ quote ++ p.2 ++ quote

def attrTokens (p : Bytes × Bytes) : List Bytes := [p.1, tokenEqual, p.2]

/-- The name of an end tag as it is a token. -/
def endName : Bytes → Bytes
  | [] => []
  | c :: rest => c :: (rest.filter fun d => isalpha d || isdigit d).map tolower

def Tag.startTokens (t : Tag) (short : Bool) : List Bytes :=
  tokenOpen :: t.name :: (t.printed.flatMap attrTokens ++
    if short then [tokenSlash, tokenClose] else [tokenClose])

def Tag.endTokens (t : Tag) : List Bytes := [tokenOpen, tokenSlash, endName t.name, tokenClose]

/-- The tokens of printed nodes behind a text, and the text behind the last of them. -/
def Nodes.tokens {ν : Type} : Bytes → Nodes ν → List Bytes × Bytes
  | before, .nil => ([], before)
  | before, .text _ data rest => rest.tokens (before ++ data)
  | before, .tag _ t children rest =>
      if !t.hasCloseTag && children.isEmpty then
        (before :: (t.startTokens true ++ (rest.tokens []).1), (rest.tokens []).2)
      else
        (before :: (t.startTokens false ++ ((children.tokens []).1 ++
          (children.tokens []).2 :: (t.endTokens ++ (rest.tokens []).1))), (rest.tokens []).2)

theorem Tag.open_eq (t : Tag) : t.open_ = 60 :: (t.name ++ t.printed.flatMap attrText) := by
  rw [Tag.open_, Tag.printed, List.flatMap_append, List.flatMap_append]
  have hid : (if t.id = [] then [] else [(keyId, t.id)]).flatMap attrText =
      if t.id = [] then [] else [32, 105, 100, 61] ++ quote ++ t.id ++ quote := by
    split <;> simp [attrText, keyId]
  have hclasses : (if t.classes = [] then [] else
        [(keyClass, t.classes.flatMap fun c => 32 :: c)]).flatMap attrText =
      if t.classes = [] then [] else
        [32, 99, 108, 97, 115, 115, 61] ++ quote ++ t.classes.flatMap (fun c => 32 :: c) ++
          quote := by
    split <;> simp [attrText, keyClass]
  have hattributes : (t.attributes.flatMap fun p => 32 :: p.1 ++ [61] ++ quote ++ p.2 ++ quote) =
      t.attributes.flatMap attrText := rfl
  rw [hid, hclasses, hattributes]
  simp only [List.append_assoc, List.cons_append, List.nil_append]

/-! ## Reading a page as tokens -/

section Run

variable {tokens : List Bytes}

theorem run_text {text : Bytes} (hplain : ∀ c ∈ text, c ≠ 60 ∧ c ≠ 13 ∧ c ≠ 10) (before : Bytes) :
    run (tokens, .data before) text = (tokens, .data (before ++ text)) := by
  have hkeep : run (tokens, .data before) text = (tokens, .data (before ++ text.map id)) :=
    run_keep id (fun before c hc => by
      obtain ⟨hopen, hreturn, hline⟩ := hplain c hc
      simp [poll, hopen, hreturn, hline]) before
  rwa [List.map_id] at hkeep

theorem run_key {key : Bytes} (hkey : PlainKey key) :
    run (tokens, .beforeAttrName false) key = (tokens, .attrName false key) := by
  obtain ⟨⟨c, hhead, hc⟩, hplain⟩ := hkey
  cases key with
  | nil => cases hhead
  | cons c' rest =>
      cases hhead
      obtain ⟨-, hlower⟩ := hplain c List.mem_cons_self
      have hfirst : poll tokens (.beforeAttrName false) c = (tokens, .attrName false [c]) := by
        simp [poll, hc, hlower, isalpha_ne hc (d := 62) rfl, isalpha_ne hc (d := 47) rfl]
      have hkeep : run (tokens, .attrName false [c]) rest =
          (tokens, .attrName false ([c] ++ rest.map id)) :=
        run_keep id (fun before d hd => by
          obtain ⟨hd, hlower⟩ := hplain d (List.mem_cons_of_mem _ hd)
          simp [poll, hd, hlower]) [c]
      rw [run_cons, hfirst, hkeep, List.map_id, List.singleton_append]

theorem run_value {value : Bytes} (hvalue : 34 ∉ value) (before : Bytes) :
    run (tokens, .attrValueDoubleQuotes false before) value =
      (tokens, .attrValueDoubleQuotes false (before ++ value)) := by
  have hkeep : run (tokens, .attrValueDoubleQuotes false before) value =
      (tokens, .attrValueDoubleQuotes false (before ++ value.map id)) :=
    run_keep id (fun before c hc => by
      have hquote : c ≠ 34 := fun heq => hvalue (heq ▸ hc)
      simp [poll, hquote]) before
  rwa [List.map_id] at hkeep

theorem run_attrText {p : Bytes × Bytes} (hkey : PlainKey p.1) (hvalue : 34 ∉ p.2) :
    run (tokens, .beforeAttrName false) (attrText p) =
      (tokens ++ attrTokens p, .beforeAttrName false) := by
  have hblank : poll tokens (.beforeAttrName false) 32 = (tokens, .beforeAttrName false) := rfl
  have hequal : run (tokens, .attrName false p.1) ([61] ++ quote) =
      (tokens ++ [p.1, tokenEqual], .attrValueDoubleQuotes false []) := rfl
  have hquote : ∀ tokens, run (tokens, .attrValueDoubleQuotes false p.2) quote =
      (tokens ++ [p.2], .beforeAttrName false) := fun tokens => rfl
  have htext : attrText p = 32 :: (p.1 ++ (([61] ++ quote) ++ (p.2 ++ quote))) := by
    simp [attrText]
  rw [htext, run_cons, hblank, run_append, run_key hkey, run_append, hequal, run_append,
    run_value hvalue, List.nil_append, hquote, List.append_assoc]
  rfl

theorem run_attrTexts {printed : List (Bytes × Bytes)}
    (h : ∀ p ∈ printed, PlainKey p.1 ∧ 34 ∉ p.2) :
    run (tokens, .beforeAttrName false) (printed.flatMap attrText) =
      (tokens ++ printed.flatMap attrTokens, .beforeAttrName false) := by
  induction printed generalizing tokens with
  | nil => simp
  | cons p printed ih =>
      obtain ⟨hkey, hvalue⟩ := h p List.mem_cons_self
      rw [List.flatMap_cons, List.flatMap_cons, run_append, run_attrText hkey hvalue,
        ih fun q hq => h q (List.mem_cons_of_mem _ hq), List.append_assoc]

/-- Behind a name that ends, the attributes are read as those of a tag with some already. -/
theorem run_tagName {name : Bytes} (hraw : isRaw name = false) {content : Bytes}
    (hcontent : ∃ c ∈ content.head?, c = 62 ∨ c = 32) :
    run (tokens, .tagName name) content =
      run (tokens ++ [tokenOpen, name], .beforeAttrName false) content := by
  obtain ⟨c, hhead, hc⟩ := hcontent
  cases content with
  | nil => cases hhead
  | cons c' rest =>
      cases hhead
      rw [run_cons, run_cons]
      rcases hc with rfl | rfl
      · simp [poll, hraw]
      · have hletter : isalpha 32 = false := rfl
        simp [poll, hraw, isBlank, hletter]

theorem run_name {c : UInt8} (hc : isalpha c) {rest : Bytes}
    (hrest : ∀ d ∈ rest, d ≠ 62 ∧ d ≠ 47 ∧ isBlank d = false ∧ tolower d = d) :
    run (tokens, .tagOpen) (c :: rest) = (tokens, .tagName (c :: rest)) := by
  have hfirst : poll tokens .tagOpen c = (tokens, .tagName [c]) := by
    simp [poll, hc, isalpha_ne hc (d := 33) rfl, isalpha_ne hc (d := 47) rfl]
  have hkeep : run (tokens, .tagName [c]) rest = (tokens, .tagName ([c] ++ rest.map id)) :=
    run_keep id (fun before d hd => by
      obtain ⟨hclose, hslash, hblank, hlower⟩ := hrest d hd
      simp [poll, hclose, hslash, hblank, hlower]) [c]
  rw [run_cons, hfirst, hkeep, List.map_id, List.singleton_append]

theorem plainKey_id : PlainKey keyId :=
  ⟨⟨105, rfl, rfl⟩, by simp [keyId, isAttrChar, isalpha, tolower]⟩

theorem plainKey_class : PlainKey keyClass :=
  ⟨⟨99, rfl, rfl⟩, by simp [keyClass, isAttrChar, isalpha, tolower]⟩

theorem Tag.Printable.printed {t : Tag} (h : t.Printable) :
    ∀ p ∈ t.printed, PlainKey p.1 ∧ 34 ∉ p.2 ∧ p.2 ≠ tokenClose ∧
      (t.hasCloseTag → p.2 ≠ tokenSlash) := by
  intro p hp
  rw [Tag.printed, List.mem_append, List.mem_append] at hp
  rcases hp with (hid | hclasses) | hattribute
  · split at hid
    next => cases hid
    next =>
      rw [List.mem_singleton.1 hid]
      exact ⟨plainKey_id, h.id.quote, h.id.close, h.id.slash⟩
  · split at hclasses
    next => cases hclasses
    next hne =>
      rw [List.mem_singleton.1 hclasses]
      obtain ⟨c, rest, hcons⟩ := List.exists_cons_of_ne_nil hne
      refine ⟨plainKey_class, fun hmem => ?_, ?_, fun _ => ?_⟩
      · obtain ⟨c, hc, hquote⟩ := List.mem_flatMap.1 hmem
        rcases List.mem_cons.1 hquote with heq | hquote
        · cases heq
        · exact (h.classes c hc).1 hquote
      · simp [hcons]
      · simp [hcons]
  · exact ⟨(h.keys p hattribute).1, (h.values p hattribute).quote, (h.values p hattribute).close,
      (h.values p hattribute).slash⟩

/-- A start tag as it is printed. -/
theorem run_start (tokens : List Bytes) {t : Tag} (h : t.Printable) (before : Bytes)
    (short : Bool) :
    run (tokens, .data before) (t.open_ ++ if short then [32, 47, 62] else [62]) =
      (tokens ++ before :: t.startTokens short, .data []) := by
  obtain ⟨c, hhead, hc⟩ := h.letter
  obtain ⟨rest, hname⟩ : ∃ rest, t.name = c :: rest := List.head?_eq_some_iff.1 hhead
  have hrest : ∀ d ∈ rest, d ≠ 62 ∧ d ≠ 47 ∧ isBlank d = false ∧ tolower d = d := by
    have hplain := h.name
    rwa [hname] at hplain
  have hopen : poll tokens (.data before) 60 = (tokens ++ [before], .tagOpen) := rfl
  have hbehind : ∃ d ∈ (t.printed.flatMap attrText ++
      if short then [32, 47, 62] else [62]).head?, d = 62 ∨ d = 32 := by
    cases t.printed with
    | nil => cases short <;> simp
    | cons p printed => exact ⟨32, rfl, .inr rfl⟩
  have hend : ∀ tokens, run (tokens, .beforeAttrName false)
      (if short then [32, 47, 62] else [62]) =
        (tokens ++ if short then [tokenSlash, tokenClose] else [tokenClose], .data []) := by
    intro tokens
    cases short with
    | true =>
        have hslash : run (tokens, .beforeAttrName false) [32, 47, 62] =
            ((tokens ++ [tokenSlash]) ++ [tokenClose], .data []) := rfl
        simpa using hslash
    | false => rfl
  rw [Tag.open_eq, List.cons_append, run_cons, hopen, List.append_assoc, hname, run_append,
    run_name hc hrest, ← hname, run_tagName h.raw hbehind, run_append,
    run_attrTexts fun p hp => ⟨(h.printed p hp).1, (h.printed p hp).2.1⟩, hend]
  simp [Tag.startTokens]

theorem run_endName {rest : Bytes}
    (hrest : ∀ d ∈ rest, d ≠ 62 ∧ d ≠ 47 ∧ isBlank d = false ∧ tolower d = d) (before : Bytes) :
    run (tokens, .endTagName before) rest =
      (tokens, .endTagName (before ++
        (rest.filter fun d => isalpha d || isdigit d).map tolower)) := by
  induction rest generalizing before with
  | nil => simp
  | cons d rest ih =>
      obtain ⟨hclose, -, hblank, -⟩ := hrest d List.mem_cons_self
      have hstep : poll tokens (.endTagName before) d = (tokens, .endTagName
          (if isalpha d || isdigit d then before ++ [tolower d] else before)) := by
        simp [poll, hclose, hblank]
      rw [run_cons, hstep, ih fun e he => hrest e (List.mem_cons_of_mem _ he), List.filter_cons]
      split <;> simp

/-- An end tag as it is printed. -/
theorem run_end {t : Tag} (h : t.Printable) (before : Bytes) :
    run (tokens, .data before) ([60, 47] ++ t.name ++ [62]) =
      (tokens ++ before :: t.endTokens, .data []) := by
  obtain ⟨c, hhead, hc⟩ := h.letter
  obtain ⟨rest, hname⟩ : ∃ rest, t.name = c :: rest := List.head?_eq_some_iff.1 hhead
  have hrest : ∀ d ∈ rest, d ≠ 62 ∧ d ≠ 47 ∧ isBlank d = false ∧ tolower d = d := by
    have hplain := h.name
    rwa [hname] at hplain
  have hopen : run (tokens, .data before) [60, 47] = (tokens ++ [before], .endTagOpen) := rfl
  have hfirst : poll (tokens ++ [before]) .endTagOpen c =
      (tokens ++ [before], .endTagName [c]) := by
    simp [poll, hc]
  have hclose : ∀ tokens name, run (tokens, .endTagName name) [62] =
      (tokens ++ [tokenOpen, tokenSlash, name, tokenClose], .data []) := fun _ _ => rfl
  rw [List.append_assoc, run_append, hopen, hname, List.cons_append, run_cons, hfirst, run_append,
    run_endName hrest, hclose]
  simp [Tag.endTokens, hname, endName]

/-- What is printed is read as the tokens of the nodes. -/
theorem run_innerHtml {ν : Type} {nodes : Nodes ν} (h : nodes.Printable) (before : Bytes) :
    run (tokens, .data before) nodes.innerHtml =
      (tokens ++ (nodes.tokens before).1, .data (nodes.tokens before).2) := by
  induction nodes generalizing tokens before with
  | nil => simp [Nodes.innerHtml, Nodes.tokens]
  | text at_ data rest ih =>
      obtain ⟨hdata, -, hrest⟩ := h
      rw [Nodes.innerHtml, run_append, run_text hdata.plain, ih hrest]
      rfl
  | tag at_ t children rest ihchildren ih =>
      obtain ⟨ht, -, hchildren, hrest⟩ := h
      rw [Nodes.innerHtml, run_append, Tag.outerHtml, Nodes.tokens]
      cases hshort : !t.hasCloseTag && children.isEmpty with
      | true =>
          have hstart := run_start tokens ht before true
          rw [if_pos rfl] at hstart
          rw [if_pos rfl, if_pos rfl, hstart, ih hrest]
          simp
      | false =>
          have hstart := run_start tokens ht before false
          rw [if_neg Bool.false_ne_true] at hstart
          have hsplit : t.open_ ++ ([62] ++ children.innerHtml ++ [60, 47] ++ t.name ++ [62]) =
              (t.open_ ++ [62]) ++ (children.innerHtml ++ ([60, 47] ++ t.name ++ [62])) := by
            simp only [List.append_assoc]
          rw [if_neg Bool.false_ne_true, if_neg Bool.false_ne_true, hsplit, run_append, hstart,
            run_append, ihchildren hchildren, run_end ht, ih hrest]
          simp

end Run

/-! ## Turns of the parser -/

/-- The tag as it is read back: there are empty classes in front of the classes. -/
def Tag.reread (n : Nat) (t : Tag) : Tag :=
  { t with classes := if t.classes = [] then [] else List.replicate n [] ++ t.classes }

def Nodes.reread (n : Nat) : Nodes Unit → Nodes Unit
  | .nil => .nil
  | .text at_ data rest => .text at_ data (rest.reread n)
  | .tag at_ t children rest => .tag at_ (t.reread n) (children.reread n) (rest.reread n)

/-- The text in front of the first tag. -/
def Nodes.first {ν : Type} (before : Bytes) : Nodes ν → Bytes
  | .text _ data _ => before ++ data
  | _ => before

def TagNode.withText (node : TagNode Unit) (text : Bytes) : TagNode Unit :=
  if text = [] then node else node.addText text

def TagNode.with (node : TagNode Unit) (nodes : Nodes Unit) : TagNode Unit :=
  { node with children := node.children.append nodes }

/-- A text between tags. -/
def Gap (text : Bytes) : Prop := text = [] ∨ PlainText text

theorem Gap.ne {text : Bytes} (h : Gap text) :
    trim text = text ∧ text ≠ tokenOpen ∧ text ≠ tokenClose ∧
      (text.any isalpha ↔ text ≠ []) := by
  rcases h with rfl | h
  · decide
  · refine ⟨h.trimmed, ?_, ?_, iff_of_true h.letter ?_⟩
    all_goals
      rintro rfl
      exact absurd h.letter (by decide)

/-! ## Start tags that are read back -/

theorem foldl_addAttribute {attributes : List (Bytes × Bytes)} (tag : Tag)
    (hkeys : ∀ p ∈ attributes, p.1 ≠ keyId ∧ p.1 ≠ keyClass)
    (hdistinct : (attributes.map Prod.fst).Nodup)
    (hnew : ∀ p ∈ attributes, p.1 ∉ tag.attributes.map Prod.fst) :
    attributes.foldl (fun tag p => tag.setAttribute p.1 p.2) tag =
      { tag with attributes := tag.attributes ++ attributes } := by
  induction attributes generalizing tag with
  | nil => simp
  | cons p attributes ih =>
      obtain ⟨hid, hclass⟩ := hkeys p List.mem_cons_self
      rw [List.map_cons, List.nodup_cons] at hdistinct
      have hset : tag.setAttribute p.1 p.2 = { tag with attributes := tag.attributes ++ [p] } := by
        have hfilter : tag.attributes.filter (fun q => q.1 ≠ p.1) = tag.attributes := by
          refine List.filter_eq_self.2 fun q hq => ?_
          have hne : q.1 ≠ p.1 := by
            intro heq
            exact hnew p List.mem_cons_self (heq ▸ List.mem_map_of_mem hq)
          simpa using hne
        rw [Tag.setAttribute, if_neg hid, if_neg hclass, Tag.addAttribute, hfilter]
      rw [List.foldl_cons, hset, ih _ (fun q hq => hkeys q (List.mem_cons_of_mem _ hq))
        hdistinct.2 fun q hq => ?_]
      · simp
      · have hold := hnew q (List.mem_cons_of_mem _ hq)
        have hne : q.1 ≠ p.1 := by
          intro heq
          exact hdistinct.1 (heq ▸ List.mem_map_of_mem hq)
        simpa [hne] using hold

theorem splitOn_classes {classes : List Bytes} (h : ∀ c ∈ classes, 32 ∉ c) :
    (classes.flatMap fun c => 32 :: c).splitOn 32 = [] :: classes := by
  have hjoin : (classes.flatMap fun c => 32 :: c) = [32].intercalate ([] :: classes) := by
    clear h
    induction classes with
    | nil => rfl
    | cons c classes ih =>
        cases classes with
        | nil => simp [List.intercalate]
        | cons c' classes => simpa [List.intercalate] using ih
  rw [hjoin, List.splitOn_intercalate 32 _ (List.cons_ne_nil _ _)]
  intro c hc
  rcases List.mem_cons.1 hc with rfl | hc
  · exact List.not_mem_nil
  · exact h c hc

/-- The attributes of a printed tag are those of the tag. -/
theorem foldl_printed {t : Tag} (h : t.Printable) :
    t.printed.foldl (fun tag p => tag.setAttribute p.1 p.2) { name := t.name } =
      { t.reread 1 with hasCloseTag := false } := by
  have hid : (if t.id = [] then [] else [(keyId, t.id)]).foldl
      (fun tag p => tag.setAttribute p.1 p.2) ({ name := t.name } : Tag) =
        { name := t.name, id := t.id } := by
    split
    next hnil => rw [hnil]; rfl
    next => rfl
  have hclass : (if t.classes = [] then [] else
      [(keyClass, t.classes.flatMap fun c => 32 :: c)]).foldl
        (fun tag p => tag.setAttribute p.1 p.2) ({ name := t.name, id := t.id } : Tag) =
          { name := t.name, id := t.id, classes := (t.reread 1).classes } := by
    rw [Tag.reread]
    split
    next => rfl
    next =>
      have hsplit := splitOn_classes fun c hc => (h.classes c hc).2
      show ({ name := t.name, id := t.id, classes := List.splitOn 32 _ } : Tag) = _
      rw [hsplit]
      rfl
  rw [Tag.printed, List.foldl_append, List.foldl_append, hid, hclass,
    foldl_addAttribute _ (fun p hp => (h.keys p hp).2) h.distinct fun p _ hmem => by cases hmem]
  rfl

theorem readAttributes_printed {printed : List (Bytes × Bytes)}
    (h : ∀ p ∈ printed, p.1 ≠ tokenClose ∧ p.2 ≠ tokenClose) (rest : List Bytes) (i : Nat)
    (tag : Tag) :
    readAttributes (printed.flatMap attrTokens ++ rest) i .name tag =
      readAttributes rest (i + 3 * printed.length) .name
        (printed.foldl (fun tag p => tag.setAttribute p.1 p.2) tag) := by
  induction printed generalizing i tag with
  | nil => rfl
  | cons p printed ih =>
      obtain ⟨hkey, hvalue⟩ := h p List.mem_cons_self
      have hequal : tokenEqual ≠ tokenClose := by decide
      have hread : readAttributes (p.1 :: tokenEqual :: p.2 ::
          (printed.flatMap attrTokens ++ rest)) i .name tag =
            readAttributes (printed.flatMap attrTokens ++ rest) (i + 3) .name
              (tag.setAttribute p.1 p.2) := by
        simp only [readAttributes, if_neg hkey, if_neg hequal, if_neg hvalue, if_true]
      have hcons : (p :: printed).flatMap attrTokens ++ rest =
          p.1 :: tokenEqual :: p.2 :: (printed.flatMap attrTokens ++ rest) := rfl
      rw [hcons, hread, ih fun q hq => h q (List.mem_cons_of_mem _ hq), List.length_cons,
        List.foldl_cons, Nat.mul_succ, Nat.add_assoc, Nat.add_comm 3]

theorem parseTagBegin_eq {tokens : List Bytes} {i j : Nat} {name token last : Bytes} {tag : Tag}
    (hname : tokens[i + 1]? = some name) (htoken : tokens[i + 2]? = some token)
    (hread : (if token = tokenClose then .ok ({ name }, i + 2)
      else readAttributes (tokens.drop (i + 2)) (i + 2) .name { name } :
        Except ParseFault (Tag × Nat)) = .ok (tag, j))
    (hlast : tokens[j - 2]? = some last) :
    parseTagBegin tokens i = .ok
      ({ tag with hasCloseTag := last ≠ tokenSlash && !voidTags.contains tag.name }, j - 1) := by
  rw [parseTagBegin, index, hname]
  show (at_ tokens (i + 2) >>= fun token => _) = _
  rw [at_ok.2 htoken]
  show ((if token = tokenClose then .ok ({ name }, i + 2)
      else readAttributes (tokens.drop (i + 2)) (i + 2) .name { name } :
        Except ParseFault (Tag × Nat)) >>= fun p => _) = _
  rw [hread]
  show (at_ tokens (j - 2) >>= fun last => _) = _
  rw [at_ok.2 hlast]
  rfl

theorem getElem?_behind (front rest : List Bytes) (k : Nat) :
    (front ++ rest)[front.length + k]? = rest[k]? := by
  rw [List.getElem?_append_right (Nat.le_add_right _ _), Nat.add_sub_cancel_left]

theorem length_attrTokens (printed : List (Bytes × Bytes)) :
    (printed.flatMap attrTokens).length = 3 * printed.length := by
  induction printed with
  | nil => rfl
  | cons p printed ih =>
      rw [List.flatMap_cons, List.length_append, ih, List.length_cons, Nat.mul_succ, Nat.add_comm]
      rfl

theorem PlainKey.ne_close {name : Bytes} (h : PlainKey name) : name ≠ tokenClose := by
  rintro rfl
  exact absurd (h.plain 62 List.mem_cons_self).1 (by decide)

/-- A start tag with attributes, or with a `/`. -/
theorem parseTagBegin_printed {t : Tag} (h : t.Printable) (front : List Bytes)
    {ending : List Bytes} {k : Nat} {token last : Bytes}
    (htoken : (t.printed.flatMap attrTokens ++ ending)[0]? = some token)
    (hne : token ≠ tokenClose)
    (hend : ∀ i tag, readAttributes ending i .name tag = .ok (tag, i + k))
    (hlast : (tokenOpen :: t.name :: (t.printed.flatMap attrTokens ++
      ending))[3 * t.printed.length + k]? = some last)
    (hclose : (last ≠ tokenSlash && !voidTags.contains t.name) = t.hasCloseTag) :
    parseTagBegin (front ++ tokenOpen :: t.name :: (t.printed.flatMap attrTokens ++ ending))
      front.length = .ok (t.reread 1, front.length + 2 + (3 * t.printed.length + k) - 1) := by
  obtain ⟨body, hbody⟩ : ∃ body, body = t.printed.flatMap attrTokens ++ ending := ⟨_, rfl⟩
  have hplain : ∀ p ∈ t.printed, p.1 ≠ tokenClose ∧ p.2 ≠ tokenClose :=
    fun p hp => ⟨(h.printed p hp).1.ne_close, (h.printed p hp).2.2.1⟩
  have hread := readAttributes_printed hplain ending (front.length + 2) { name := t.name }
  rw [← hbody, foldl_printed h, hend, Nat.add_assoc (front.length + 2)] at hread
  rw [← hbody] at htoken hlast ⊢
  have hdrop : (front ++ tokenOpen :: t.name :: body).drop (front.length + 2) = body := by
    rw [List.drop_append]
    simp
  have hindex : front.length + 2 + (3 * t.printed.length + k) - 2 =
      front.length + (3 * t.printed.length + k) := by
    omega
  have hok := parseTagBegin_eq (getElem?_behind front (tokenOpen :: t.name :: body) 1)
    ((getElem?_behind front (tokenOpen :: t.name :: body) 2).trans htoken)
    (by rw [if_neg hne, hdrop, hread])
    (hindex ▸ (getElem?_behind front (tokenOpen :: t.name :: body) _).trans hlast)
  have htag : ({ t.reread 1 with
      hasCloseTag := last ≠ tokenSlash && !voidTags.contains t.name } : Tag) = t.reread 1 := by
    rw [hclose]
    rfl
  exact hok.trans (congrArg (fun tag => Except.ok (tag, _)) htag)

/-- A printed start tag is read as the tag, up to its `>`, or to the name in front of that. -/
theorem parseTagBegin_start {t : Tag} (h : t.Printable) (front more : List Bytes) :
    ∃ j, parseTagBegin (front ++ (t.startTokens (!t.hasCloseTag) ++ more)) front.length =
        .ok (t.reread 1, j) ∧
      (j + 1 = (front ++ t.startTokens (!t.hasCloseTag)).length ∨
        j = front.length + 1 ∧
          t.startTokens (!t.hasCloseTag) = [tokenOpen, t.name, tokenClose]) := by
  have hkeys : ∀ p ∈ t.printed, p.1 ≠ tokenClose := fun p hp => (h.printed p hp).1.ne_close
  cases hclose : t.hasCloseTag with
  | false =>
      -- the token in front of the `>` is the `/`
      have htokens : front ++ (t.startTokens (!false) ++ more) = front ++ tokenOpen :: t.name ::
          (t.printed.flatMap attrTokens ++ tokenSlash :: tokenClose :: more) := by
        simp [Tag.startTokens]
      have hfirst : ∃ token, (t.printed.flatMap attrTokens ++
          tokenSlash :: tokenClose :: more)[0]? = some token ∧ token ≠ tokenClose := by
        cases hprinted : t.printed with
        | nil => exact ⟨tokenSlash, rfl, by decide⟩
        | cons p printed => exact ⟨p.1, rfl, hkeys p (hprinted ▸ List.mem_cons_self)⟩
      obtain ⟨token, htoken, hne⟩ := hfirst
      have hend : ∀ i tag, readAttributes (tokenSlash :: tokenClose :: more) i .name tag =
          .ok (tag, i + 2) := by
        intro i tag
        simp only [readAttributes, if_neg (show tokenSlash ≠ tokenClose by decide), if_true]
      have hlast : (tokenOpen :: t.name :: (t.printed.flatMap attrTokens ++
          tokenSlash :: tokenClose :: more))[3 * t.printed.length + 2]? = some tokenSlash := by
        rw [List.getElem?_cons_succ, List.getElem?_cons_succ, ← length_attrTokens,
          List.getElem?_append_right (Nat.le_refl _), Nat.sub_self]
        rfl
      have hok := parseTagBegin_printed h front htoken hne hend hlast (by simp [hclose])
      refine ⟨_, htokens ▸ hok, .inl ?_⟩
      simp only [Tag.startTokens, List.length_append, List.length_cons, length_attrTokens,
        Bool.not_false, if_true, List.length_nil]
      omega
  | true =>
      have hvoid : voidTags.contains t.name = false := by
        simpa using h.void hclose
      rcases List.eq_nil_or_concat t.printed with hprinted | ⟨printed, p, hprinted⟩
      · have hstart : t.startTokens (!true) = [tokenOpen, t.name, tokenClose] := by
          simp [Tag.startTokens, hprinted]
        rw [hstart]
        refine ⟨front.length + 1, ?_, .inr ⟨rfl, rfl⟩⟩
        have hok := parseTagBegin_eq
          (getElem?_behind front ([tokenOpen, t.name, tokenClose] ++ more) 1)
          (getElem?_behind front ([tokenOpen, t.name, tokenClose] ++ more) 2) (if_pos rfl)
          (getElem?_behind front ([tokenOpen, t.name, tokenClose] ++ more) 0)
        have hfold := foldl_printed h
        rw [hprinted, List.foldl_nil] at hfold
        have hreread : ({ ({ name := t.name } : Tag) with
            hasCloseTag := tokenOpen ≠ tokenSlash && !voidTags.contains t.name } : Tag) =
              t.reread 1 := by
          rw [hfold, hvoid]
          exact congrArg (fun close => ({ t.reread 1 with hasCloseTag := close } : Tag)) hclose.symm
        exact hok.trans (congrArg (fun tag => Except.ok (tag, _)) hreread)
      · -- the token in front of the `>` is the last value
        have hvalue : p.2 ≠ tokenSlash :=
          (h.printed p (by simp [hprinted])).2.2.2 hclose
        have htokens : front ++ (t.startTokens (!true) ++ more) = front ++ tokenOpen :: t.name ::
            (t.printed.flatMap attrTokens ++ tokenClose :: more) := by
          simp [Tag.startTokens]
        have hfirst : ∃ token, (t.printed.flatMap attrTokens ++
            tokenClose :: more)[0]? = some token ∧ token ≠ tokenClose := by
          cases hcases : t.printed with
          | nil => simp [hcases] at hprinted
          | cons p printed => exact ⟨p.1, rfl, hkeys p (hcases ▸ List.mem_cons_self)⟩
        obtain ⟨token, htoken, hne⟩ := hfirst
        have hend : ∀ i tag, readAttributes (tokenClose :: more) i .name tag =
            .ok (tag, i + 1) := fun i tag => if_pos rfl
        have hlast : (tokenOpen :: t.name :: (t.printed.flatMap attrTokens ++
            tokenClose :: more))[3 * t.printed.length + 1]? = some p.2 := by
          have hsplit : tokenOpen :: t.name ::
              (t.printed.flatMap attrTokens ++ tokenClose :: more) =
              (tokenOpen :: t.name :: (printed.flatMap attrTokens ++ [p.1, tokenEqual])) ++
                p.2 :: tokenClose :: more := by
            simp [hprinted, attrTokens]
          have hlength : 3 * t.printed.length + 1 =
              (tokenOpen :: t.name ::
                (printed.flatMap attrTokens ++ [p.1, tokenEqual])).length := by
            simp only [hprinted, List.concat_eq_append, List.length_append, List.length_cons,
              length_attrTokens, List.length_nil]
            omega
          rw [hsplit, hlength]
          exact getElem?_behind _ (p.2 :: tokenClose :: more) 0
        have hok := parseTagBegin_printed h front htoken hne hend hlast
          (by rw [hvoid, hclose]; simpa using hvalue)
        refine ⟨_, htokens ▸ hok, .inl ?_⟩
        simp only [Tag.startTokens, List.length_append, List.length_cons, length_attrTokens,
          Bool.not_true, Bool.false_eq_true, if_false, List.length_nil]
        omega

theorem Nodes.append_assoc (nodes nodes' nodes'' : Nodes Unit) :
    (nodes.append nodes').append nodes'' = nodes.append (nodes'.append nodes'') := by
  induction nodes with
  | nil => rfl
  | text at_ data rest ih => simp only [Nodes.append, ih]
  | tag at_ t children rest _ ih => simp only [Nodes.append, ih]

theorem Nodes.append_nil (nodes : Nodes Unit) : nodes.append .nil = nodes := by
  induction nodes with
  | nil => rfl
  | text at_ data rest ih => simp only [Nodes.append, ih]
  | tag at_ t children rest _ ih => simp only [Nodes.append, ih]

namespace HtmlParser

/-- The loop gets from one state to another in no more turns than tokens. -/
def Goes (s s' : HtmlParser) : Prop :=
  ∃ n, s.i + n ≤ s'.i ∧ ∀ k, loop (k + n) s = loop k s'

theorem Goes.refl (s : HtmlParser) : Goes s s := ⟨0, Nat.le_refl _, fun _ => rfl⟩

theorem Goes.trans {s s' s'' : HtmlParser} (h : Goes s s') (h' : Goes s' s'') : Goes s s'' := by
  obtain ⟨n, hle, hloop⟩ := h
  obtain ⟨n', hle', hloop'⟩ := h'
  refine ⟨n' + n, by omega, fun k => ?_⟩
  rw [← Nat.add_assoc, hloop, hloop']

theorem loop_done {s : HtmlParser} (h : s.tokens.length ≤ s.i) (k : Nat) : loop k s = .ok s := by
  cases k <;> rw [loop, if_neg (Nat.not_lt.2 h)]

theorem Goes.turn {s s' : HtmlParser} (hlt : s.i < s.tokens.length) (hturn : s.turn = .ok s')
    (hle : s.i + 1 ≤ s'.i) : Goes s s' := by
  refine ⟨1, hle, fun k => ?_⟩
  rw [loop, if_pos hlt, hturn]
  rfl

section Close

variable {s : HtmlParser}

theorem atClose_of_ne {token : Bytes} (htoken : s.tokens[s.i]? = some token)
    (hclose : token ≠ tokenClose) : s.atClose = .ok s.next := by
  rw [atClose, at_ok.2 htoken]
  show (if token = tokenClose then _ else _) = _
  rw [if_neg hclose]
  rfl

theorem atClose_eq (htoken : s.tokens[s.i]? = some tokenClose) (htop : s.rawTop = false) :
    s.atClose = s.readText >>= fun s => .ok s.next := by
  rw [atClose, at_ok.2 htoken, htop]
  rfl

theorem readText_of_none (htext : textAfter s.tokens s.i = none) : s.readText = .ok s := by
  rw [readText, htext]

/-- Text that `Trim` leaves goes to the tag at the top, if there is any. -/
theorem readText_of_some {text : Bytes} (htext : textAfter s.tokens s.i = some text)
    (hset : s.tokens.set (s.i + 1) text = s.tokens) {top : TagNode Unit}
    {stack : List (TagNode Unit)} (hstack : s.stack = top :: stack)
    (hletter : text.any isalpha ↔ text ≠ []) :
    s.readText = .ok { s with stack := top.withText text :: stack } := by
  obtain ⟨tokens, i, stack', root⟩ := s
  cases hstack
  rw [readText, htext]
  dsimp only at hset ⊢
  rw [hset]
  by_cases hnil : text = []
  · subst hnil
    rfl
  · rw [if_pos (hletter.2 hnil), TagNode.withText, if_neg hnil]

end Close

section Turns

variable (front rest : List Bytes) (top : TagNode Unit) (stack : List (TagNode Unit))

/-- A token that is no tag and no `>` is passed over. -/
theorem goes_pass {token : Bytes} (hopen : token ≠ tokenOpen) (hclose : token ≠ tokenClose) :
    Goes ⟨front ++ token :: rest, front.length, stack, none⟩
      ⟨front ++ token :: rest, front.length + 1, stack, none⟩ := by
  have htoken : (front ++ token :: rest)[front.length]? = some token :=
    getElem?_behind front (token :: rest) 0
  refine .turn (by simp) ?_ (Nat.le_refl _)
  by_cases hprint : token.all (fun c => !isprint c)
  · rw [HtmlParser.turn, at_ok.2 htoken]
    show (if token.all _ then _ else _) = _
    rw [if_pos hprint]
    rfl
  · rw [turn_eq htoken hprint, if_neg hopen]
    exact atClose_of_ne htoken hclose

/-- Behind a `>` the text is read, if there is any. -/
theorem atClose_text (htop : isRaw top.tag.name = false) (hrest : Gap (rest.headD [])) :
    atClose ⟨front ++ tokenClose :: rest, front.length, top :: stack, none⟩ =
      .ok ⟨front ++ tokenClose :: rest, front.length + 1,
        top.withText (rest.headD []) :: stack, none⟩ := by
  have htoken : (front ++ tokenClose :: rest)[front.length]? = some tokenClose :=
    getElem?_behind front (tokenClose :: rest) 0
  have hnext : (front ++ tokenClose :: rest)[front.length + 1]? = rest[0]? :=
    getElem?_behind front (tokenClose :: rest) 1
  have hraw : rawTop ⟨front ++ tokenClose :: rest, front.length, top :: stack, none⟩ = false := htop
  rw [atClose_eq htoken hraw]
  cases rest with
  | nil =>
      have htext : textAfter (front ++ [tokenClose]) front.length = none := by
        rw [textAfter, hnext]
        rfl
      rw [readText_of_none htext]
      rfl
  | cons text rest =>
      obtain ⟨htrim, hopen, -, hletter⟩ := hrest.ne
      rw [List.headD_cons] at htrim hopen hletter
      have htext : textAfter (front ++ tokenClose :: text :: rest) front.length = some text := by
        rw [textAfter, hnext, List.getElem?_cons_zero]
        dsimp only
        rw [if_neg hopen, htrim]
      have hset : (front ++ tokenClose :: text :: rest).set (front.length + 1) text =
          front ++ tokenClose :: text :: rest := by
        simp
      rw [readText_of_some htext hset rfl hletter]
      rfl

/-- The same where the parser comes to the `>` in a turn of its own. -/
theorem goes_close (htop : isRaw top.tag.name = false) (hrest : Gap (rest.headD [])) :
    Goes ⟨front ++ tokenClose :: rest, front.length, top :: stack, none⟩
      ⟨front ++ tokenClose :: rest, front.length + 1, top.withText (rest.headD []) :: stack,
        none⟩ := by
  have htoken : (front ++ tokenClose :: rest)[front.length]? = some tokenClose :=
    getElem?_behind front (tokenClose :: rest) 0
  refine .turn (by simp) ?_ (Nat.le_refl _)
  rw [turn_eq htoken (by decide), if_neg (by decide)]
  exact atClose_text _ _ _ _ htop hrest

/-- A name is no mark. -/
theorem ne_of_letter {name mark : Bytes} (hname : ∃ c ∈ name.head?, isalpha c)
    (hmark : ∀ c ∈ mark.head?, isalpha c = false) : name ≠ mark := by
  rintro rfl
  obtain ⟨c, hhead, hc⟩ := hname
  rw [hmark c hhead] at hc
  cases hc

theorem mark_head {d : UInt8} {mark : Bytes} (hmark : mark = [d]) (hd : isalpha d = false) :
    ∀ c ∈ mark.head?, isalpha c = false := by
  rintro c hc
  rw [hmark] at hc
  cases hc
  exact hd

/-- The stack behind a start tag, with the tag at the top. -/
theorem startTag_cases (tag : Tag) (tokens : List Bytes) (i j : Nat) (top : TagNode Unit)
    (stack : List (TagNode Unit)) (hraw : isRaw tag.name = false)
    (htop : isRaw top.tag.name = false) :
    ∃ top' stack', startTag ⟨tokens, i, top :: stack, none⟩ tag j =
        ⟨tokens, j, top' :: stack', none⟩ ∧ isRaw top'.tag.name = false ∧
      (if tag.hasCloseTag then TagNode.new tag :: top :: stack
        else top.addTag (.new tag) :: stack) = top' :: stack' := by
  rw [startTag]
  cases tag.hasCloseTag with
  | true => exact ⟨_, _, rfl, hraw, rfl⟩
  | false => exact ⟨_, _, rfl, htop, rfl⟩

/-- A printed start tag goes on the stack, or into the tag at the top, and the text behind it
into the tag that is at the top then. -/
theorem goes_start {t : Tag} (h : t.Printable) (htop : isRaw top.tag.name = false)
    (hrest : Gap (rest.headD [])) :
    ∃ top' stack', (if t.hasCloseTag then TagNode.new (t.reread 1) :: top :: stack
        else top.addTag (.new (t.reread 1)) :: stack) = top' :: stack' ∧
      Goes ⟨front ++ (t.startTokens (!t.hasCloseTag) ++ rest), front.length, top :: stack, none⟩
        ⟨front ++ (t.startTokens (!t.hasCloseTag) ++ rest),
          front.length + (t.startTokens (!t.hasCloseTag)).length,
          top'.withText (rest.headD []) :: stack', none⟩ := by
  obtain ⟨j, hparse, hj⟩ := parseTagBegin_start h front rest
  obtain ⟨tokens, htokens⟩ : ∃ tokens, tokens =
    front ++ (t.startTokens (!t.hasCloseTag) ++ rest) := ⟨_, rfl⟩
  obtain ⟨top', stack', hstart, htop', hstack⟩ :=
    startTag_cases (t.reread 1) tokens front.length j top stack h.raw htop
  refine ⟨top', stack', hstack, ?_⟩
  have hopen : tokens[front.length]? = some tokenOpen := by
    rw [htokens]
    exact getElem?_behind front _ 0
  have hname : tokens[front.length + 1]? = some t.name := by
    rw [htokens]
    exact getElem?_behind front _ 1
  have hturn : HtmlParser.turn ⟨tokens, front.length, top :: stack, none⟩ =
      atClose ⟨tokens, j, top' :: stack', none⟩ := by
    rw [turn_eq hopen (by decide), if_pos rfl, hname]
    dsimp only
    rw [if_neg (ne_of_letter h.letter (mark_head rfl rfl)),
      if_neg (ne_of_letter h.letter (mark_head rfl rfl)), htokens, hparse, ← htokens]
    exact congrArg atClose hstart
  have hlt : front.length < tokens.length := by
    rw [htokens]
    simp [Tag.startTokens]
  obtain ⟨start, hclose⟩ : ∃ start, t.startTokens (!t.hasCloseTag) = start ++ [tokenClose] := by
    refine ⟨tokenOpen :: t.name :: (t.printed.flatMap attrTokens ++
      if !t.hasCloseTag then [tokenSlash] else []), ?_⟩
    rw [Tag.startTokens]
    cases t.hasCloseTag <;> simp
  have hend : tokens = (front ++ start) ++ tokenClose :: rest := by
    rw [htokens, hclose]
    simp
  rw [← htokens, hclose]
  have hlength : front.length + (start ++ [tokenClose]).length = (front ++ start).length + 1 := by
    simp [Nat.add_assoc]
  rw [hlength]
  rcases hj with hj | ⟨rfl, hbare⟩
  · obtain rfl : j = (front ++ start).length := by
      rw [hclose] at hj
      simp only [List.length_append, List.length_singleton] at hj ⊢
      omega
    refine .turn hlt (hturn.trans (hend ▸ atClose_text _ _ _ _ htop' hrest)) ?_
    simp
  · -- the parser is at the name, and comes to the `>` in the next turn
    have hstart' : start = [tokenOpen, t.name] := by
      rw [hclose] at hbare
      simpa using congrArg List.dropLast hbare
    have hpass : Goes ⟨tokens, front.length, top :: stack, none⟩
        ⟨tokens, (front ++ start).length, top' :: stack', none⟩ := by
      refine .turn hlt (hturn.trans ((atClose_of_ne hname
        (ne_of_letter h.letter (mark_head rfl rfl))).trans ?_)) ?_
      · rw [hstart']
        simp [HtmlParser.next]
      · rw [hstart']
        simp
    exact hpass.trans (hend ▸ goes_close _ _ _ _ htop' hrest)

theorem endName_letter {t : Tag} (h : t.Printable) : ∃ c ∈ (endName t.name).head?, isalpha c := by
  obtain ⟨c, hhead, hc⟩ := h.letter
  obtain ⟨name, hname⟩ : ∃ name, t.name = c :: name := List.head?_eq_some_iff.1 hhead
  rw [hname]
  exact ⟨c, rfl, hc⟩

/-- A printed end tag pops the tag that it ends. -/
theorem goes_end {t : Tag} (h : t.Printable) (node : TagNode Unit)
    (htop : isRaw top.tag.name = false) (hrest : Gap (rest.headD [])) :
    Goes ⟨front ++ (t.endTokens ++ rest), front.length, node :: top :: stack, none⟩
      ⟨front ++ (t.endTokens ++ rest), front.length + t.endTokens.length,
        (top.addTag node).withText (rest.headD []) :: stack, none⟩ := by
  obtain ⟨tokens, htokens⟩ : ∃ tokens, tokens = front ++ (t.endTokens ++ rest) := ⟨_, rfl⟩
  have hopen : tokens[front.length]? = some tokenOpen := by
    rw [htokens]
    exact getElem?_behind front _ 0
  have hslash : tokens[front.length + 1]? = some tokenSlash := by
    rw [htokens]
    exact getElem?_behind front _ 1
  have hpop : Goes ⟨tokens, front.length, node :: top :: stack, none⟩
      ⟨tokens, front.length + 1, top.addTag node :: stack, none⟩ := by
    refine .turn ?_ ?_ (Nat.le_refl _)
    · rw [htokens]
      simp [Tag.endTokens]
    · rw [turn_eq hopen (by decide), if_pos rfl, hslash]
      exact atClose_of_ne hopen (by decide)
  have hname := endName_letter h
  have hpass : Goes ⟨tokens, front.length + 1, top.addTag node :: stack, none⟩
      ⟨tokens, front.length + 2, top.addTag node :: stack, none⟩ := by
    have hsplit : tokens = (front ++ [tokenOpen]) ++
        tokenSlash :: (endName t.name :: tokenClose :: rest) := by
      rw [htokens]
      simp [Tag.endTokens]
    simpa [hsplit] using goes_pass (front ++ [tokenOpen]) (endName t.name :: tokenClose :: rest)
      (top.addTag node :: stack)
      (show tokenSlash ≠ tokenOpen by decide) (by decide)
  have hpass' : Goes ⟨tokens, front.length + 2, top.addTag node :: stack, none⟩
      ⟨tokens, front.length + 3, top.addTag node :: stack, none⟩ := by
    have hsplit : tokens = (front ++ [tokenOpen, tokenSlash]) ++
        endName t.name :: (tokenClose :: rest) := by
      rw [htokens]
      simp [Tag.endTokens]
    simpa [hsplit] using goes_pass (front ++ [tokenOpen, tokenSlash]) (tokenClose :: rest)
      (top.addTag node :: stack)
      (ne_of_letter hname (mark_head rfl rfl)) (ne_of_letter hname (mark_head rfl rfl))
  have hclose : Goes ⟨tokens, front.length + 3, top.addTag node :: stack, none⟩
      ⟨tokens, front.length + 4, (top.addTag node).withText (rest.headD []) :: stack, none⟩ := by
    have hsplit : tokens = (front ++ [tokenOpen, tokenSlash, endName t.name]) ++
        tokenClose :: rest := by
      rw [htokens]
      simp [Tag.endTokens]
    simpa [hsplit] using goes_close (front ++ [tokenOpen, tokenSlash, endName t.name]) rest
      (top.addTag node) stack htop hrest
  rw [← htokens]
  exact ((hpop.trans hpass).trans hpass').trans hclose

end Turns

/-! ## Nodes that are read back -/

/-- Nodes with a text in front of them, if it is one. -/
def behind (before : Bytes) (nodes : Nodes Unit) : Nodes Unit :=
  if before = [] then nodes else .text () before nodes

theorem withText_eq (top : TagNode Unit) (before : Bytes) :
    top.withText before = top.with (behind before .nil) := by
  rw [TagNode.withText, behind, TagNode.with]
  split
  next => rw [Nodes.append_nil]
  next => rfl

/-- A tag and what stands behind it go to the children, behind the text in front of it. -/
theorem addTag_with (top child : TagNode Unit) (before : Bytes) (rest : Nodes Unit) :
    ((top.withText before).addTag child).with rest =
      top.with (behind before (.tag () child.tag child.children rest)) := by
  rw [withText_eq]
  simp only [TagNode.with, TagNode.addTag, Nodes.append_assoc]
  rw [behind, behind]
  split <;> rfl

/-- A text in front of nodes stands beside no other one. -/
def InFront (before : Bytes) (nodes : Nodes Unit) : Prop :=
  before = [] ∨ PlainText before ∧ nodes.isText = false

theorem gap_first {nodes : Nodes Unit} (h : nodes.Printable) {before : Bytes}
    (hbefore : InFront before nodes) : Gap (nodes.first before) := by
  cases nodes with
  | text at_ data rest =>
      rcases hbefore with rfl | ⟨-, htext⟩
      · exact .inr h.1
      · cases htext
  | nil | tag =>
      rcases hbefore with rfl | ⟨hplain, -⟩
      · exact .inl rfl
      · exact .inr hplain

theorem gap_last {nodes : Nodes Unit} (h : nodes.Printable) {before : Bytes}
    (hbefore : InFront before nodes) : Gap (nodes.tokens before).2 := by
  induction nodes generalizing before with
  | nil => exact gap_first h hbefore
  | text at_ data rest ih =>
      obtain ⟨hdata, htext, hrest⟩ := h
      rcases hbefore with rfl | ⟨-, hnot⟩
      · exact ih hrest (.inr ⟨hdata, htext⟩)
      · cases hnot
  | tag at_ t children rest _ ih =>
      have hlast := ih h.2.2.2 (.inl rfl)
      rw [Nodes.tokens]
      split
      next => exact hlast
      next => exact hlast

/-- The first token of nodes is the text in front of the first tag. -/
theorem headD_tokens {nodes : Nodes Unit} (h : nodes.Printable) {before : Bytes}
    (hbefore : InFront before nodes) {tail : List Bytes}
    (htail : tail.headD [] = (nodes.tokens before).2) :
    ((nodes.tokens before).1 ++ tail).headD [] = nodes.first before := by
  have htag : ∀ at_ t children rest (before : Bytes), ∃ more,
      (Nodes.tokens before (.tag (at_ : Unit) t children rest)).1 = before :: more := by
    intro at_ t children rest before
    rw [Nodes.tokens]
    split
    next => exact ⟨_, rfl⟩
    next => exact ⟨_, rfl⟩
  cases nodes with
  | nil => exact htail
  | tag at_ t children rest =>
      obtain ⟨more, hmore⟩ := htag at_ t children rest before
      rw [hmore]
      rfl
  | text at_ data rest =>
      cases rest with
      | nil => exact htail
      | text => cases h.2.1
      | tag at_' t children rest =>
          obtain ⟨more, hmore⟩ := htag at_' t children rest (before ++ data)
          rw [Nodes.tokens, hmore]
          rfl

theorem Goes.cast {tokens tokens' : List Bytes} {i i' j j' : Nat}
    {stack stack' : List (TagNode Unit)}
    (h : Goes ⟨tokens, i, stack, none⟩ ⟨tokens, j, stack', none⟩) (htokens : tokens = tokens')
    (hi : i = i') (hj : j = j') :
    Goes ⟨tokens', i', stack, none⟩ ⟨tokens', j', stack', none⟩ := by
  subst htokens hi hj
  exact h

/-- The tokens of nodes are read as the nodes, which become children of the tag at the top. -/
def ReadBack (nodes : Nodes Unit) : Prop :=
  ∀ before : Bytes, InFront before nodes → ∀ front tail : List Bytes,
    tail.headD [] = (nodes.tokens before).2 → ∀ (top : TagNode Unit) (stack : List (TagNode Unit)),
      isRaw top.tag.name = false →
        Goes ⟨front ++ ((nodes.tokens before).1 ++ tail), front.length,
            top.withText (nodes.first before) :: stack, none⟩
          ⟨front ++ ((nodes.tokens before).1 ++ tail),
            front.length + (nodes.tokens before).1.length,
            top.with (behind before (nodes.reread 1)) :: stack, none⟩

theorem readBack_nil : ReadBack .nil := by
  intro before _ front tail _ top stack _
  show Goes ⟨_, _, top.withText before :: stack, none⟩ _
  rw [withText_eq]
  exact .refl _

theorem readBack_text {at_ : Unit} {data : Bytes} {rest : Nodes Unit} (hdata : PlainText data)
    (htext : rest.isText = false) (ih : ReadBack rest) : ReadBack (.text at_ data rest) := by
  intro before hbefore front tail htail top stack htop
  rcases hbefore with rfl | ⟨-, hnot⟩
  · have hne : data ≠ [] := by
      rintro rfl
      exact absurd hdata.letter (by decide)
    have hfirst : rest.first data = data := by
      cases rest with
      | text => cases htext
      | nil | tag => rfl
    have hgo := ih data (.inr ⟨hdata, htext⟩) front tail htail top stack htop
    rw [hfirst] at hgo
    have hbehind : behind [] ((Nodes.text at_ data rest).reread 1) =
        behind data (rest.reread 1) := by
      rw [behind, if_pos rfl, behind, if_neg hne]
      rfl
    rw [hbehind]
    exact hgo
  · cases hnot

theorem gap_before {at_ : Unit} {t : Tag} {children rest : Nodes Unit} {before : Bytes}
    (hbefore : InFront before (.tag at_ t children rest)) : Gap before :=
  hbefore.imp_right And.left

theorem isRaw_withText {top : TagNode Unit} (htop : isRaw top.tag.name = false) (before : Bytes) :
    isRaw (top.withText before).tag.name = false := by
  rw [withText_eq]
  exact htop

theorem readBack_void {at_ : Unit} {t : Tag} {rest : Nodes Unit} (ht : t.Printable)
    (hclose : t.hasCloseTag = false) (hrest : rest.Printable) (ih : ReadBack rest) :
    ReadBack (.tag at_ t .nil rest) := by
  intro before hbefore front tail htail top stack htop
  have hshort : (!t.hasCloseTag && (Nodes.nil : Nodes Unit).isEmpty) = true := by
    rw [hclose]
    rfl
  rw [Nodes.tokens, if_pos hshort] at htail ⊢
  dsimp only at htail ⊢
  have hhead := headD_tokens hrest (.inl rfl) htail
  obtain ⟨-, hopen, hnot, -⟩ := (gap_before hbefore).ne
  have htop' := isRaw_withText htop before
  have hpass := goes_pass front (t.startTokens true ++ (rest.tokens []).1 ++ tail)
    (top.withText before :: stack) hopen hnot
  obtain ⟨top', stack', hstack, hstart⟩ := goes_start (front ++ [before])
    ((rest.tokens []).1 ++ tail) (top.withText before) stack ht htop'
    (hhead ▸ gap_first hrest (.inl rfl))
  rw [hclose] at hstack hstart
  obtain ⟨rfl, rfl⟩ := List.cons.inj hstack
  rw [hhead] at hstart
  have hgo := ih [] (.inl rfl) (front ++ before :: t.startTokens true) tail htail
    ((top.withText before).addTag (.new (t.reread 1))) stack htop'
  rw [behind, if_pos rfl, addTag_with] at hgo
  refine ((hpass.cast ?_ rfl rfl).trans (hstart.cast ?_ ?_ rfl)).trans (hgo.cast ?_ ?_ ?_)
  · simp
  · simp
  · simp
  · simp
  · simp [Nat.add_assoc, Nat.add_comm]
  · simp only [List.length_append, List.length_cons]
    omega

theorem readBack_closed {at_ : Unit} {t : Tag} {children rest : Nodes Unit} (ht : t.Printable)
    (hclose : t.hasCloseTag) (hchildren : children.Printable) (hrest : rest.Printable)
    (ihchildren : ReadBack children) (ih : ReadBack rest) :
    ReadBack (.tag at_ t children rest) := by
  intro before hbefore front tail htail top stack htop
  have hshort : ¬(!t.hasCloseTag && children.isEmpty) = true := by
    rw [hclose]
    exact Bool.false_ne_true
  rw [Nodes.tokens, if_neg hshort] at htail ⊢
  dsimp only at htail ⊢
  have hhead := headD_tokens hrest (.inl rfl) htail
  obtain ⟨-, hopen, hnot, -⟩ := (gap_before hbefore).ne
  have htop' := isRaw_withText htop before
  obtain ⟨inner, hinner⟩ : ∃ inner, inner = (children.tokens []).2 ::
    (t.endTokens ++ ((rest.tokens []).1 ++ tail)) := ⟨_, rfl⟩
  have hinnerHead : inner.headD [] = (children.tokens []).2 := by
    rw [hinner]
    rfl
  have hheadChildren := headD_tokens hchildren (.inl rfl) hinnerHead
  obtain ⟨-, hopenLast, hnotLast, -⟩ :=
    (gap_last hchildren (.inl rfl) : Gap (children.tokens []).2).ne
  have hpass := goes_pass front (t.startTokens false ++ ((children.tokens []).1 ++ inner))
    (top.withText before :: stack) hopen hnot
  obtain ⟨top', stack', hstack, hstart⟩ := goes_start (front ++ [before])
    ((children.tokens []).1 ++ inner) (top.withText before) stack ht htop'
    (hheadChildren ▸ gap_first hchildren (.inl rfl))
  rw [hclose] at hstack hstart
  obtain ⟨rfl, rfl⟩ := List.cons.inj hstack
  rw [hheadChildren] at hstart
  -- what is between the tags becomes the children of the new tag at the top
  have hgoChildren := ihchildren [] (.inl rfl) (front ++ before :: t.startTokens false) inner
    hinnerHead (.new (t.reread 1)) (top.withText before :: stack) ht.raw
  rw [behind, if_pos rfl] at hgoChildren
  obtain ⟨front', hfront'⟩ : ∃ front', front' =
    front ++ before :: t.startTokens false ++ (children.tokens []).1 := ⟨_, rfl⟩
  have hpassLast := goes_pass front' (t.endTokens ++ ((rest.tokens []).1 ++ tail))
    ((TagNode.new (t.reread 1)).with (children.reread 1) :: top.withText before :: stack)
    hopenLast hnotLast
  have hend := goes_end (front' ++ [(children.tokens []).2]) ((rest.tokens []).1 ++ tail)
    (top.withText before) stack ht ((TagNode.new (t.reread 1)).with (children.reread 1)) htop'
    (hhead ▸ gap_first hrest (.inl rfl))
  rw [hhead] at hend
  have hgo := ih [] (.inl rfl) (front' ++ (children.tokens []).2 :: t.endTokens) tail htail
    ((top.withText before).addTag ((TagNode.new (t.reread 1)).with (children.reread 1))) stack htop'
  rw [behind, if_pos rfl, addTag_with] at hgo
  refine (((((hpass.cast ?_ rfl rfl).trans (hstart.cast ?_ ?_ rfl)).trans
    (hgoChildren.cast ?_ ?_ rfl)).trans (hpassLast.cast ?_ ?_ rfl)).trans
      (hend.cast ?_ ?_ rfl)).trans (hgo.cast ?_ ?_ ?_)
  · simp [hinner]
  · simp [hinner]
  · simp
  · simp [hinner]
  · simp [Nat.add_assoc, Nat.add_comm]
  · simp [hfront']
  · rw [hfront', List.length_append]
  · simp [hfront']
  · simp
  · simp [hfront']
  · simp [Nat.add_assoc, Nat.add_comm]
  · simp only [hfront', List.length_append, List.length_cons]
    omega

theorem readBack {nodes : Nodes Unit} (h : nodes.Printable) : ReadBack nodes := by
  induction nodes with
  | nil => exact readBack_nil
  | text at_ data rest ih =>
      obtain ⟨hdata, htext, hrest⟩ := h
      exact readBack_text hdata htext (ih hrest)
  | tag at_ t children rest ihchildren ih =>
      obtain ⟨ht, hvoid, hchildren, hrest⟩ := h
      cases hclose : t.hasCloseTag with
      | false =>
          cases children with
          | nil => exact readBack_void ht hclose hrest (ih hrest)
          | text | tag => cases hvoid hclose
      | true =>
          exact readBack_closed ht hclose hchildren hrest (ihchildren hchildren) (ih hrest)

end HtmlParser

/-! ## Documents that are saved -/

/-- The last node is a text. -/
def Nodes.endsInText {ν : Type} : Nodes ν → Bool
  | .nil => false
  | .text _ _ rest => rest.isEmpty || rest.endsInText
  | .tag _ _ _ rest => rest.endsInText

theorem tokens_last {nodes : Nodes Unit} (hlast : nodes.endsInText = false) {before : Bytes}
    (hbefore : before = [] ∨ nodes.isEmpty = false) : (nodes.tokens before).2 = [] := by
  induction nodes generalizing before with
  | nil =>
      rcases hbefore with rfl | hempty
      · rfl
      · cases hempty
  | text at_ data rest ih =>
      rw [Nodes.endsInText, Bool.or_eq_false_iff] at hlast
      exact ih hlast.2 (.inr hlast.1)
  | tag at_ t children rest _ ih =>
      rw [Nodes.tokens]
      split
      next => exact ih hlast (.inl rfl)
      next => exact ih hlast (.inl rfl)

/-- What can be printed is read back, if there is a tag in front and behind.  A text in front of
the first tag, or behind the last, is lost. -/
theorem parse_innerHtml {nodes : Nodes Unit} (h : nodes.Printable) (hfirst : nodes.isText = false)
    (hlast : nodes.endsInText = false) :
    HtmlParser.parse nodes.innerHtml = .ok ⟨(), {}, nodes.reread 1⟩ := by
  have hend : (nodes.tokens []).2 = [] := tokens_last hlast (.inl rfl)
  have htokens : TokenParser.parse nodes.innerHtml = (nodes.tokens []).1 := by
    rw [TokenParser.parse, run_innerHtml h]
    rfl
  have hnothing : nodes.first [] = [] := by
    cases nodes with
    | text => cases hfirst
    | nil | tag => rfl
  have hgo := HtmlParser.readBack h [] (.inl rfl) [] [] hend.symm (.new {}) [] rfl
  rw [hnothing, List.append_nil, List.nil_append, HtmlParser.behind, if_pos rfl] at hgo
  obtain ⟨n, hle, hloop⟩ := hgo
  simp only [List.length_nil, Nat.zero_add] at hle
  obtain ⟨k, hk⟩ := Nat.exists_eq_add_of_le' hle
  have hdone : HtmlParser.loop (nodes.tokens []).1.length
      ⟨(nodes.tokens []).1, 0, [.new {}], none⟩ =
        .ok ⟨(nodes.tokens []).1, (nodes.tokens []).1.length,
          [(TagNode.new {}).with (nodes.reread 1)], none⟩ := by
    have hgo := hloop k
    rw [← hk, List.length_nil, Nat.zero_add] at hgo
    exact hgo.trans (HtmlParser.loop_done (Nat.le_refl _) k)
  rw [HtmlParser.parse, skipDoctype_eq, htokens]
  show (HtmlParser.loop (nodes.tokens []).1.length ⟨(nodes.tokens []).1, 0, [.new {}], none⟩ >>=
    fun s => .ok s.document) = _
  rw [hdone]
  rfl

/-- The same nodes, with the attributes of each in any order. -/
inductive Shuffled : Nodes Unit → Nodes Unit → Prop
  | nil : Shuffled .nil .nil
  | text {data : Bytes} {rest rest' : Nodes Unit} : Shuffled rest rest' →
      Shuffled (.text () data rest) (.text () data rest')
  | tag {t t' : Tag} {children children' rest rest' : Nodes Unit} :
      t.toHtmlTag = t'.toHtmlTag → t.hasCloseTag = t'.hasCloseTag →
      t.attributes.Perm t'.attributes → Shuffled children children' → Shuffled rest rest' →
      Shuffled (.tag () t children rest) (.tag () t' children' rest')

theorem Shuffled.refl (nodes : Nodes Unit) : Shuffled nodes nodes := by
  induction nodes with
  | nil => exact .nil
  | text at_ data rest ih => exact .text ih
  | tag at_ t children rest ihchildren ih => exact .tag rfl rfl (.refl _) ihchildren ih

theorem Shuffled.trans {nodes nodes' nodes'' : Nodes Unit} (h : Shuffled nodes nodes')
    (h' : Shuffled nodes' nodes'') : Shuffled nodes nodes'' := by
  induction h generalizing nodes'' with
  | nil => exact h'
  | text _ ih =>
      cases h' with
      | text hrest => exact .text (ih hrest)
  | tag htag hclose hattributes _ _ ihchildren ih =>
      cases h' with
      | tag htag' hclose' hattributes' hchildren hrest =>
          exact .tag (htag.trans htag') (hclose.trans hclose') (hattributes.trans hattributes')
            (ihchildren hchildren) (ih hrest)

/-- What is printed may be in any order. -/
theorem Tag.Printable.shuffle {t t' : Tag} (h : t.Printable) (htag : t.toHtmlTag = t'.toHtmlTag)
    (hclose : t.hasCloseTag = t'.hasCloseTag) (hattributes : t.attributes.Perm t'.attributes) :
    t'.Printable := by
  obtain ⟨hletter, hname, hraw, hvoid, hid, hclasses, hkeys, hvalues, hdistinct⟩ := h
  rw [htag] at hletter hname hraw hvoid hid hclasses
  rw [hclose] at hvoid hid hvalues
  exact ⟨hletter, hname, hraw, hvoid, hid, hclasses, fun p hp => hkeys p (hattributes.mem_iff.2 hp),
    fun p hp => hvalues p (hattributes.mem_iff.2 hp), (hattributes.map _).nodup_iff.1 hdistinct⟩

theorem Shuffled.same {nodes nodes' : Nodes Unit} (h : Shuffled nodes nodes') :
    (nodes.isText = nodes'.isText ∧ nodes.isEmpty = nodes'.isEmpty) ∧
      nodes.endsInText = nodes'.endsInText := by
  induction h with
  | nil => exact ⟨⟨rfl, rfl⟩, rfl⟩
  | text _ ih => exact ⟨⟨rfl, rfl⟩, by rw [Nodes.endsInText, Nodes.endsInText, ih.2, ih.1.2]⟩
  | tag _ _ _ _ _ _ ih => exact ⟨⟨rfl, rfl⟩, ih.2⟩

theorem Shuffled.printable {nodes nodes' : Nodes Unit} (h : Shuffled nodes nodes')
    (hprintable : nodes.Printable) : nodes'.Printable := by
  induction h with
  | nil => trivial
  | text hrest ih =>
      obtain ⟨hdata, htext, hprintable⟩ := hprintable
      exact ⟨hdata, hrest.same.1.1 ▸ htext, ih hprintable⟩
  | tag htag hclose hattributes hchildren _ ihchildren ih =>
      obtain ⟨ht, hvoid, hprintable, hprintable'⟩ := hprintable
      refine ⟨ht.shuffle htag hclose hattributes, fun hnot => ?_, ihchildren hprintable,
        ih hprintable'⟩
      exact hchildren.same.1.2 ▸ hvoid (hclose.trans hnot)

theorem Shuffled.reread {nodes nodes' : Nodes Unit} (h : Shuffled nodes nodes') (n : Nat) :
    Shuffled (nodes.reread n) (nodes'.reread n) := by
  induction h with
  | nil => exact .nil
  | text _ ih => exact .text ih
  | @tag t t' _ _ _ _ htag hclose hattributes _ _ ihchildren ih =>
      refine .tag ?_ hclose hattributes ihchildren ih
      have hreread : ∀ t : Tag, (t.reread n).toHtmlTag = { t.toHtmlTag with
          classes := if t.classes = [] then [] else List.replicate n [] ++ t.classes } :=
        fun _ => rfl
      rw [hreread, hreread, htag]

theorem Nodes.reread_zero (nodes : Nodes Unit) : nodes.reread 0 = nodes := by
  induction nodes with
  | nil => rfl
  | text at_ data rest ih => rw [Nodes.reread, ih]
  | tag at_ t children rest ihchildren ih =>
      have ht : t.reread 0 = t := by
        rw [Tag.reread]
        split
        next hnil =>
          obtain ⟨⟨id, name, classes⟩, attributes, close⟩ := t
          cases hnil
          rfl
        next => rfl
      rw [Nodes.reread, ht, ihchildren, ih]

theorem Nodes.reread_succ (nodes : Nodes Unit) (n : Nat) :
    (nodes.reread n).reread 1 = nodes.reread (n + 1) := by
  induction nodes with
  | nil => rfl
  | text at_ data rest ih => rw [Nodes.reread, Nodes.reread, ih, Nodes.reread]
  | tag at_ t children rest ihchildren ih =>
      have ht : (t.reread n).reread 1 = t.reread (n + 1) := by
        by_cases hnil : t.classes = []
        · simp [Tag.reread, hnil]
        · simp [Tag.reread, hnil, List.replicate_succ]
      rw [Nodes.reread, Nodes.reread, ht, ihchildren, ih, Nodes.reread]

theorem Nodes.isText_reread (nodes : Nodes Unit) (n : Nat) :
    (nodes.reread n).isText = nodes.isText ∧ (nodes.reread n).isEmpty = nodes.isEmpty := by
  cases nodes <;> exact ⟨rfl, rfl⟩

theorem Nodes.endsInText_reread (nodes : Nodes Unit) (n : Nat) :
    (nodes.reread n).endsInText = nodes.endsInText := by
  induction nodes with
  | nil => rfl
  | text at_ data rest ih =>
      rw [Nodes.reread, Nodes.endsInText, (rest.isText_reread n).2, ih, Nodes.endsInText]
  | tag at_ t children rest _ ih => exact ih

theorem Nodes.Printable.reread {nodes : Nodes Unit} (h : nodes.Printable) (n : Nat) :
    (nodes.reread n).Printable := by
  induction nodes with
  | nil => trivial
  | text at_ data rest ih =>
      obtain ⟨hdata, htext, hrest⟩ := h
      exact ⟨hdata, (rest.isText_reread n).1.trans htext, ih hrest⟩
  | tag at_ t children rest ihchildren ih =>
      obtain ⟨ht, hvoid, hchildren, hrest⟩ := h
      refine ⟨{ ht with classes := fun c hc => ?_ }, fun hnot => ?_, ihchildren hchildren, ih hrest⟩
      · simp only [Tag.reread] at hc
        split at hc
        next => cases hc
        next =>
          rcases List.mem_append.1 hc with hnil | hold
          · rw [List.eq_of_mem_replicate hnil]
            exact ⟨List.not_mem_nil, List.not_mem_nil⟩
          · exact ht.classes c hold
      · rw [(children.isText_reread n).2]
        exact hvoid hnot

/-- What may become of nodes that were printed and read some number of times. -/
inductive Saved (nodes : Nodes Unit) : Nat → Nodes Unit → Prop
  | start : Saved nodes 0 nodes
  | again {n : Nat} {out out' : Nodes Unit} {node : TagNode Unit} : Saved nodes n out →
      Shuffled out out' → HtmlParser.parse out'.innerHtml = .ok node →
      Saved nodes (n + 1) node.children

def savedTag (attributes : List (Bytes × Bytes)) : Tag where
  id := [97]
  name := [100, 105, 118]
  classes := [[120]]
  attributes := attributes
  hasCloseTag := true

/-- `<div id="a" class=" x" k="v" l="w">hi<br /></div>`, with its attributes in this order or in
the other one. -/
def savedPage (attributes : List (Bytes × Bytes)) : Nodes Unit :=
  .tag () (savedTag attributes) (.text () [104, 105] (.tag () { name := [98, 114] } .nil .nil)) .nil

end HtmlDoc
