import Zookeeper.Spider.TokenParser

/-!
# Attributes

A start tag should be one group of tokens from `<` to `>`, whatever attributes it has.  The
states of `TokenParser` for attributes decide each alone what a `>` is.

A name without a value leaves them in a state that only a `=` leads out of, or a blank and
then a `=`.  A later attribute may bring one, the end of the tag does not: `attributes_read`.
-/

namespace HtmlDoc

/-! ## Start tags -/

/-- What is written behind the name of an attribute. -/
inductive AttrForm where
  | bare
  | doubleQuotes (value : Bytes) (hvalue : 34 ∉ value)
  | singleQuotes (value : Bytes) (hvalue : 39 ∉ value)

def AttrForm.text : AttrForm → Bytes
  | .bare => []
  | .doubleQuotes value _ => 61 :: 34 :: value ++ [34]
  | .singleQuotes value _ => 61 :: 39 :: value ++ [39]

def AttrForm.value : AttrForm → Option Bytes
  | .bare => none
  | .doubleQuotes value _ => some value
  | .singleQuotes value _ => some value

/-- An attribute, with the blanks in front of it.  A name has a letter in it. -/
structure Attr where
  blanks : Bytes
  name : Bytes
  form : AttrForm
  blanks_ne : blanks ≠ []
  isBlank_blanks : ∀ b ∈ blanks, isBlank b
  name_letter : ∃ c ∈ name, isalpha c
  name_plain : ∀ c ∈ name, isBlank c = false ∧ c ≠ 61 ∧ c ≠ 62 ∧ c ≠ 47

def Attr.text (a : Attr) : Bytes := a.blanks ++ (a.name ++ a.form.text)

/-- A start tag, as it is written. -/
structure StartTag where
  letter : UInt8
  name : Bytes
  attributes : List Attr
  blanks : Bytes
  slash : Bool
  isalpha_letter : isalpha letter
  name_plain : ∀ c ∈ name, isBlank c = false ∧ c ≠ 62 ∧ c ≠ 47
  isBlank_blanks : ∀ b ∈ blanks, isBlank b

namespace StartTag

/-- What is behind the attributes. -/
def tail (tag : StartTag) : Bytes := tag.blanks ++ if tag.slash then [47] else []

/-- What is between the name and the `>`. -/
def rest (tag : StartTag) : Bytes := tag.attributes.flatMap Attr.text ++ tag.tail

def text (tag : StartTag) : Bytes := 60 :: (tag.letter :: tag.name ++ (tag.rest ++ [62]))

def values (tag : StartTag) : List Bytes := tag.attributes.filterMap fun a => a.form.value

/-- The name as it is a token. -/
def nameToken (tag : StartTag) : Bytes := tag.letter :: tag.name.map tolower

end StartTag

/-- The states inside a start tag. -/
def TokenState.isTag : TokenState → Bool
  | .tagOpen | .tagName _ | .beforeAttrName _ | .attrName _ _ | .beforeAttrValueEqual _
  | .beforeAttrValue _ | .attrValueDoubleQuotes _ _ | .attrValueSingleQuotes _ _
  | .selfEndTag => true
  | _ => false

/-- The tokens are those of one tag: only values of attributes look like its ends. -/
def OneGroup (values mid : List Bytes) : Prop :=
  ∀ t ∈ mid, t = tokenOpen ∨ t = tokenClose → t ∈ values

/-- A start tag is read as one, up to its own `>`. -/
structure StartTag.ReadAsTag (tag : StartTag) (tokens : List Bytes) (text : Bytes) : Prop where
  inside : ∀ front, front ≠ [] → front <+: tag.text → front ≠ tag.text →
    (run (tokens, .data text) front).2.isTag
  left : (run (tokens, .data text) tag.text).2 =
    if tag.slash then .data [] else afterTag (isRaw tag.nameToken)
  group : ∃ mid, (run (tokens, .data text) tag.text).1 =
    tokens ++ text :: tokenOpen :: mid ++ [tokenClose] ∧ OneGroup tag.values mid

/-! ## Parts of a tag -/

/-- `content` is read inside a tag, and leads from `p` to `q`. -/
structure Passes (p : List Bytes × TokenState) (content : Bytes) (q : List Bytes × TokenState) :
    Prop where
  run_eq : run p content = q
  inside : ∀ front, front <+: content → (run p front).2.isTag

namespace Passes

variable {p q r : List Bytes × TokenState} {content rest : Bytes}

theorem nil (h : p.2.isTag) : Passes p [] p where
  run_eq := rfl
  inside front hfront := by
    rw [List.prefix_nil.mp hfront]
    exact h

theorem append (h : Passes p content q) (h' : Passes q rest r) : Passes p (content ++ rest) r where
  run_eq := by rw [run_append, h.run_eq, h'.run_eq]
  inside front hfront := by
    rcases List.prefix_or_prefix_of_prefix hfront (List.prefix_append content rest) with hin | hout
    · exact h.inside front hin
    · obtain ⟨behind, rfl⟩ := hout
      rw [run_append, h.run_eq]
      exact h'.inside behind ((List.prefix_append_right_inj content).mp hfront)

/-- One character. -/
theorem single {tokens : List Bytes} {s : TokenState} {c : UInt8} (hs : s.isTag)
    (hpoll : poll tokens s c = q) (hq : q.2.isTag) : Passes (tokens, s) [c] q where
  run_eq := hpoll
  inside front hfront := by
    cases front with
    | nil => exact hs
    | cons d front =>
        obtain ⟨rfl, hnil⟩ := List.cons_prefix_cons.mp hfront
        rw [List.prefix_nil.mp hnil, run_cons, hpoll]
        exact hq

theorem cons {tokens : List Bytes} {s : TokenState} {c : UInt8} (hs : s.isTag)
    (hpoll : poll tokens s c = q) (h : Passes q content r) : Passes (tokens, s) (c :: content) r :=
  (single hs hpoll (h.inside [] List.nil_prefix)).append h

/-- Characters that a state keeps. -/
theorem keep {s : Bytes → TokenState} {tokens : List Bytes} (f : UInt8 → UInt8)
    (hs : ∀ text, (s text).isTag)
    (hkeep : ∀ text, ∀ c ∈ content, poll tokens (s text) c = (tokens, s (text ++ [f c])))
    (text : Bytes) : Passes (tokens, s text) content (tokens, s (text ++ content.map f)) where
  run_eq := run_keep f hkeep text
  inside front hfront := by
    rw [run_keep f (fun text c hc => hkeep text c (hfront.subset hc))]
    exact hs _

/-- Characters that a state passes by. -/
theorem stay {s : TokenState} {tokens : List Bytes} (hs : s.isTag)
    (hstay : ∀ c ∈ content, poll tokens s c = (tokens, s)) :
    Passes (tokens, s) content (tokens, s) where
  run_eq := run_stay hstay
  inside front hfront := by
    rw [run_stay fun c hc => hstay c (hfront.subset hc)]
    exact hs

end Passes

/-! ## One attribute -/

theorem OneGroup.nil (values : List Bytes) : OneGroup values [] := fun _ ht => by cases ht

theorem OneGroup.append {values values' mid mid' : List Bytes} (h : OneGroup values mid)
    (h' : OneGroup values' mid') : OneGroup (values ++ values') (mid ++ mid') := by
  intro t ht hend
  rcases List.mem_append.mp ht with ht | ht
  · exact List.mem_append_left _ (h t ht hend)
  · exact List.mem_append_right _ (h' t ht hend)

/-- A token that is no end of a tag. -/
theorem OneGroup.single {t : Bytes} (hopen : t ≠ tokenOpen) (hclose : t ≠ tokenClose) :
    OneGroup [] [t] := by
  intro u hu hend
  rw [List.mem_singleton.mp hu] at hend
  exact absurd hend (by simp [hopen, hclose])

theorem OneGroup.value (v : Bytes) : OneGroup [v] [v] := fun _ ht _ => ht

theorem OneGroup.letter {c : UInt8} (hc : isalpha c) (rest : Bytes) : OneGroup [] [c :: rest] := by
  refine .single (fun h => ?_) (fun h => ?_)
  · exact isalpha_ne hc rfl (List.cons.inj h).1
  · exact isalpha_ne hc rfl (List.cons.inj h).1

/-- The states between two attributes, and whether the last one was bare. -/
inductive Between (script : Bool) : Bool → TokenState → Prop where
  | before : Between script false (.beforeAttrName script)
  | name {text : Bytes} (h : OneGroup [] [text]) : Between script true (.attrName script text)
  | equal : Between script true (.beforeAttrValueEqual script)

section

variable {script : Bool} {tokens : List Bytes}

/-- Before a name, all is passed by but letters and what ends the tag. -/
theorem passes_before {content : Bytes}
    (h : ∀ c ∈ content, isalpha c = false ∧ c ≠ 62 ∧ c ≠ 47) :
    Passes (tokens, .beforeAttrName script) content (tokens, .beforeAttrName script) := by
  refine .stay rfl fun c hc => ?_
  obtain ⟨halpha, hclose, hslash⟩ := h c hc
  simp [poll, halpha, hclose, hslash]

/-- Before a `=`, all else is passed by. -/
theorem passes_equal {content : Bytes} (h : ∀ c ∈ content, c ≠ 61) :
    Passes (tokens, .beforeAttrValueEqual script) content
      (tokens, .beforeAttrValueEqual script) :=
  .stay rfl fun c hc => by simp [poll, h c hc]

theorem isBlank_plain {b : UInt8} (h : isBlank b) :
    isalpha b = false ∧ b ≠ 62 ∧ b ≠ 47 ∧ b ≠ 61 :=
  ⟨isalpha_of_isBlank h, isBlank_ne h rfl, isBlank_ne h rfl, isBlank_ne h rfl⟩

theorem isBlank_attrChar {b : UInt8} (h : isBlank b) : isAttrChar b = false := by
  simp only [isBlank, Bool.or_eq_true, beq_iff_eq] at h
  rcases h with rfl | rfl <;> rfl

/-- A name is read from its first letter on. -/
theorem passes_name {name : Bytes} (hletter : ∃ c ∈ name, isalpha c)
    (hplain : ∀ c ∈ name, isBlank c = false ∧ c ≠ 61 ∧ c ≠ 62 ∧ c ≠ 47) :
    ∃ text, OneGroup [] [text] ∧
      Passes (tokens, .beforeAttrName script) name (tokens, .attrName script text) := by
  obtain ⟨front, rest, rfl, hfront, hrest⟩ := exists_span (fun c => !isalpha c) name
  cases rest with
  | nil =>
      obtain ⟨c, hc, halpha⟩ := hletter
      rw [List.append_nil] at hc
      have hnot := hfront c hc
      simp [halpha] at hnot
  | cons c rest =>
      have halpha : isalpha c := by simpa using hrest c rfl
      refine ⟨tolower c :: (rest.filter isAttrChar).map tolower,
        .letter (isalpha_tolower halpha) _, ?_⟩
      have hbefore : Passes (tokens, .beforeAttrName script) front
          (tokens, .beforeAttrName script) := by
        refine passes_before fun d hd => ?_
        obtain ⟨_, _, hclose, hslash⟩ := hplain d (List.mem_append_left _ hd)
        exact ⟨by simpa using hfront d hd, hclose, hslash⟩
      have hpoll : poll tokens (.beforeAttrName script) c =
          (tokens, .attrName script [tolower c]) := by
        obtain ⟨_, _, hclose, hslash⟩ := hplain c (List.mem_append_right _ List.mem_cons_self)
        simp [poll, halpha, hclose, hslash]
      have hkeep : ∀ read, ∀ d ∈ rest,
          poll tokens (.attrName script (tolower c :: (read.filter isAttrChar).map tolower)) d =
            (tokens, .attrName script
              (tolower c :: ((read ++ [id d]).filter isAttrChar).map tolower)) := by
        intro read d hd
        obtain ⟨hblank, hequal, _, _⟩ :=
          hplain d (List.mem_append_right _ (List.mem_cons_of_mem c hd))
        cases hchar : isAttrChar d <;> simp [poll, hchar, hblank, hequal]
      have hrest := Passes.keep
        (s := fun read => .attrName script (tolower c :: (read.filter isAttrChar).map tolower))
        id (fun _ => rfl) hkeep []
      rw [List.map_id, List.nil_append] at hrest
      exact hbefore.append (.cons rfl hpoll hrest)

/-- From one attribute over the name of the next. -/
theorem Between.passes_name {bare : Bool} {s : TokenState} (h : Between script bare s)
    (tokens : List Bytes) (a : Attr) :
    ∃ mid s', Passes (tokens, s) (a.blanks ++ a.name) (tokens ++ mid, s') ∧ OneGroup [] mid ∧
      Between script true s' := by
  have hblank := fun b hb => isBlank_plain (a.isBlank_blanks b hb)
  cases h with
  | before =>
      obtain ⟨text, htext, hname⟩ : ∃ text, OneGroup [] [text] ∧
          Passes (tokens, .beforeAttrName script) a.name (tokens, .attrName script text) :=
        HtmlDoc.passes_name a.name_letter a.name_plain
      refine ⟨[], .attrName script text, ?_, .nil _, .name htext⟩
      rw [List.append_nil]
      exact (passes_before fun b hb =>
        ⟨(hblank b hb).1, (hblank b hb).2.1, (hblank b hb).2.2.1⟩).append hname
  | @name text htext =>
      refine ⟨[text], .beforeAttrValueEqual script, ?_, htext, .equal⟩
      have hname : Passes (tokens ++ [text], .beforeAttrValueEqual script) a.name
          (tokens ++ [text], .beforeAttrValueEqual script) :=
        passes_equal fun c hc => (a.name_plain c hc).2.1
      cases hblanks : a.blanks with
      | nil => exact absurd hblanks a.blanks_ne
      | cons b blanks =>
          have hall := a.isBlank_blanks
          rw [hblanks] at hall
          have hb := hall b List.mem_cons_self
          have hpoll : poll tokens (.attrName script text) b =
              (tokens ++ [text], .beforeAttrValueEqual script) := by
            simp [poll, isBlank_attrChar hb, hb]
          have hrest : Passes (tokens ++ [text], .beforeAttrValueEqual script) blanks
              (tokens ++ [text], .beforeAttrValueEqual script) :=
            passes_equal fun c hc => (isBlank_plain (hall c (List.mem_cons_of_mem b hc))).2.2.2
          exact .cons rfl hpoll (hrest.append hname)
  | equal =>
      refine ⟨[], .beforeAttrValueEqual script, ?_, .nil _, .equal⟩
      rw [List.append_nil]
      exact (passes_equal fun b hb => (hblank b hb).2.2.2).append
        (passes_equal fun c hc => (a.name_plain c hc).2.1)

/-- A `=` leads to the value. -/
theorem Between.poll_equal {s : TokenState} (h : Between script true s) (tokens : List Bytes) :
    s.isTag ∧ ∃ mid, poll tokens s 61 = (tokens ++ mid, .beforeAttrValue script) ∧
      OneGroup [] mid := by
  cases h with
  | @name text htext =>
      refine ⟨rfl, [text, tokenEqual], rfl, ?_⟩
      exact htext.append (.single (by decide) (by decide))
  | equal => exact ⟨rfl, [tokenEqual], rfl, .single (by decide) (by decide)⟩

/-- A value is read to the mark at its end. -/
theorem passes_quoted {state : Bytes → TokenState} {mark : UInt8}
    (hstate : ∀ text, (state text).isTag)
    (hkeep : ∀ text c, c ≠ mark → poll tokens (state text) c = (tokens, state (text ++ [c])))
    (hend : ∀ text, poll tokens (state text) mark = (tokens ++ [text], .beforeAttrName script))
    {v : Bytes} (hv : mark ∉ v) :
    Passes (tokens, state []) (v ++ [mark]) (tokens ++ [v], .beforeAttrName script) := by
  have hread := Passes.keep id hstate (fun text c hc => hkeep text c fun heq => hv (heq ▸ hc)) []
  rw [List.map_id, List.nil_append] at hread
  exact hread.append (.single (hstate v) (hend v) rfl)

/-- Behind a `=`, a value is read with its quotation marks. -/
theorem passes_value (form : AttrForm) {v : Bytes} (hvalue : form.value = some v)
    {s : TokenState} {tokens' : List Bytes} (hs : s.isTag)
    (hequal : poll tokens s 61 = (tokens', .beforeAttrValue script)) :
    Passes (tokens, s) form.text (tokens' ++ [v], .beforeAttrName script) := by
  cases form with
  | bare => cases hvalue
  | doubleQuotes value hquote =>
      cases hvalue
      have hread : Passes (tokens', .attrValueDoubleQuotes script []) (v ++ [34])
          (tokens' ++ [v], .beforeAttrName script) :=
        passes_quoted (fun _ => rfl) (fun text c hc => by simp [poll, hc]) (fun _ => rfl) hquote
      exact .cons hs hequal (.cons rfl rfl hread)
  | singleQuotes value hquote =>
      cases hvalue
      have hread : Passes (tokens', .attrValueSingleQuotes script []) (v ++ [39])
          (tokens' ++ [v], .beforeAttrName script) :=
        passes_quoted (fun _ => rfl) (fun text c hc => by simp [poll, hc]) (fun _ => rfl) hquote
      exact .cons hs hequal (.cons rfl rfl hread)

/-- Over one attribute. -/
theorem Between.passes_attr {bare : Bool} {s : TokenState} (h : Between script bare s)
    (tokens : List Bytes) (a : Attr) :
    ∃ mid s', Passes (tokens, s) a.text (tokens ++ mid, s') ∧ OneGroup a.form.value.toList mid ∧
      Between script a.form.value.isNone s' := by
  obtain ⟨mid, s', hname, hmid, hs'⟩ := h.passes_name tokens a
  rw [Attr.text, ← List.append_assoc]
  cases hvalue : a.form.value with
  | none =>
      have hform : a.form.text = [] := by
        cases hform : a.form with
        | bare => rfl
        | doubleQuotes _ _ => rw [hform] at hvalue; cases hvalue
        | singleQuotes _ _ => rw [hform] at hvalue; cases hvalue
      rw [hform, List.append_nil]
      exact ⟨mid, s', hname, hmid, hs'⟩
  | some v =>
      obtain ⟨htag, mid', hpoll, hmid'⟩ := hs'.poll_equal (tokens ++ mid)
      refine ⟨mid ++ (mid' ++ [v]), .beforeAttrName script, ?_, ?_, .before⟩
      · rw [← List.append_assoc, ← List.append_assoc]
        exact hname.append (passes_value a.form hvalue htag hpoll)
      · exact hmid.append (hmid'.append (.value v))

/-- Over attributes: whether the last one was bare is what is left. -/
theorem Between.passes_attributes {bare : Bool} {s : TokenState} (h : Between script bare s)
    (attributes : List Attr) (tokens : List Bytes) :
    ∃ mid s', Passes (tokens, s) (attributes.flatMap Attr.text) (tokens ++ mid, s') ∧
      OneGroup (attributes.filterMap fun a => a.form.value) mid ∧
      Between script ((attributes.getLast?.map fun a => a.form.value.isNone).getD bare) s' := by
  induction attributes generalizing bare s tokens with
  | nil =>
      refine ⟨[], s, ?_, .nil _, h⟩
      rw [List.append_nil]
      cases h with
      | before => exact .nil rfl
      | name _ => exact .nil rfl
      | equal => exact .nil rfl
  | cons a attributes ih =>
      obtain ⟨mid, s', ha, hmid, hs'⟩ := h.passes_attr tokens a
      obtain ⟨mid', s'', hattributes, hmid', hs''⟩ := ih hs' (tokens ++ mid)
      refine ⟨mid ++ mid', s'', ?_, ?_, ?_⟩
      · rw [List.flatMap_cons, ← List.append_assoc]
        exact ha.append hattributes
      · have hvalues : (a :: attributes).filterMap (fun a => a.form.value) =
            a.form.value.toList ++ attributes.filterMap fun a => a.form.value := by
          cases hvalue : a.form.value <;> simp [hvalue]
        rw [hvalues]
        exact hmid.append hmid'
      · rw [List.getLast?_cons]
        cases hlast : attributes.getLast? with
        | none => simpa [hlast] using hs''
        | some last => simpa [hlast] using hs''

end

/-! ## Whole tags -/

/-- What may follow the name of a tag. -/
def endsName (c : UInt8) : Prop := isBlank c ∨ c = 47 ∨ c = 62

/-- Behind the name of a tag, it is the same as before the name of an attribute. -/
theorem poll_tagName {c : UInt8} (hc : endsName c) (tokens : List Bytes) (name : Bytes) :
    poll tokens (.tagName name) c =
      poll (tokens ++ [tokenOpen, name]) (.beforeAttrName (isRaw name)) c := by
  rcases hc with hc | rfl | rfl
  · obtain ⟨halpha, hclose, hslash, _⟩ := isBlank_plain hc
    simp [poll, hclose, hslash, hc, halpha]
  · simp [poll]
  · simp [poll]

/-- A bare attribute is not left by what ends a tag. -/
theorem Between.poll_bare {script : Bool} {s : TokenState} (h : Between script true s)
    {c : UInt8} (hc : endsName c) (tokens : List Bytes) :
    Between script true (poll tokens s c).2 := by
  have hne : c ≠ 61 := by
    rintro rfl
    rcases hc with hc | hc | hc
    · cases hc
    · exact absurd hc (by decide)
    · exact absurd hc (by decide)
  have hchar : isAttrChar c = false := by
    rcases hc with hc | rfl | rfl
    · exact isBlank_attrChar hc
    · rfl
    · rfl
  cases h with
  | name htext =>
      cases hblank : isBlank c with
      | true => simpa [poll, hchar, hblank] using Between.equal
      | false => simpa [poll, hchar, hblank, hne] using Between.name htext
  | equal => simpa [poll, hne] using Between.equal

theorem Between.run_bare {script : Bool} {content : Bytes} (hcontent : ∀ c ∈ content, endsName c)
    {s : TokenState} (h : Between script true s) (tokens : List Bytes) :
    Between script true (run (tokens, s) content).2 := by
  induction content generalizing s tokens with
  | nil => exact h
  | cons c content ih =>
      exact ih (fun d hd => hcontent d (List.mem_cons_of_mem c hd))
        (h.poll_bare (hcontent c List.mem_cons_self) tokens) _

namespace StartTag

variable (tag : StartTag) (tokens : List Bytes) (text : Bytes)

theorem endsName_tail : ∀ c ∈ tag.tail ++ [62], endsName c := by
  intro c hc
  rcases List.mem_append.mp hc with hc | hc
  · rcases List.mem_append.mp hc with hc | hc
    · exact .inl (tag.isBlank_blanks c hc)
    · split at hc
      next => exact .inr (.inl (List.mem_singleton.mp hc))
      next => cases hc
  · exact .inr (.inr (List.mem_singleton.mp hc))

theorem exists_head : ∃ c content, tag.rest ++ [62] = c :: content ∧ endsName c := by
  cases hattributes : tag.attributes with
  | nil =>
      cases htail : tag.tail ++ [62] with
      | nil => exact absurd htail (by simp)
      | cons c content =>
          refine ⟨c, content, ?_, tag.endsName_tail c (htail ▸ List.mem_cons_self)⟩
          rw [rest, hattributes, List.flatMap_nil, List.nil_append]
          exact htail
  | cons a attributes =>
      cases hblanks : a.blanks with
      | nil => exact absurd hblanks a.blanks_ne
      | cons b blanks =>
          refine ⟨b, blanks ++ (a.name ++ a.form.text) ++ attributes.flatMap Attr.text ++
            tag.tail ++ [62], ?_, .inl (a.isBlank_blanks b (hblanks ▸ List.mem_cons_self))⟩
          rw [rest, hattributes, List.flatMap_cons, Attr.text, hblanks]
          rfl

/-- Up to the name. -/
theorem passes_tagName : Passes (tokens, .tagOpen) (tag.letter :: tag.name)
    (tokens, .tagName tag.nameToken) := by
  have hletter : poll tokens .tagOpen tag.letter = (tokens, .tagName [tag.letter]) := by
    have hbang := isalpha_ne tag.isalpha_letter (d := 33) rfl
    have hslash := isalpha_ne tag.isalpha_letter (d := 47) rfl
    simp [poll, hbang, hslash, tag.isalpha_letter]
  have hkeep : ∀ text, ∀ c ∈ tag.name,
      poll tokens (.tagName text) c = (tokens, .tagName (text ++ [tolower c])) := by
    intro text c hc
    obtain ⟨hblank, hclose, hslash⟩ := tag.name_plain c hc
    simp [poll, hblank, hclose, hslash]
  exact .cons rfl hletter (.keep tolower (fun _ => rfl) hkeep [tag.letter])

/-- The state before the attributes, with the tokens there are then. -/
def opened : List Bytes × TokenState :=
  (tokens ++ [text] ++ [tokenOpen, tag.nameToken], .beforeAttrName (isRaw tag.nameToken))

/-- What is read behind the name is read from there. -/
theorem run_name {front : Bytes} (hne : front ≠ []) (hfront : front <+: tag.rest ++ [62]) :
    run (tokens ++ [text], .tagName tag.nameToken) front = run (tag.opened tokens text) front := by
  obtain ⟨c, content, hrest, hc⟩ := tag.exists_head
  rw [hrest] at hfront
  cases front with
  | nil => exact absurd rfl hne
  | cons d front =>
      rw [(List.cons_prefix_cons.mp hfront).1, opened, run_cons, run_cons, poll_tagName hc]

theorem run_text :
    run (tokens, .data text) tag.text = run (tag.opened tokens text) (tag.rest ++ [62]) := by
  rw [StartTag.text, run_cons, ← tag.run_name tokens text (by simp) (List.prefix_refl _)]
  show run (tokens ++ [text], .tagOpen) _ = _
  rw [run_append, (tag.passes_tagName _).run_eq]

/-- Over the attributes, up to the end of the tag. -/
theorem passes_attributes : ∃ mid s,
    Passes (tag.opened tokens text) (tag.attributes.flatMap Attr.text)
      (tokens ++ text :: tokenOpen :: mid, s) ∧ OneGroup tag.values mid ∧
      Between (isRaw tag.nameToken)
        ((tag.attributes.getLast?.map fun a => a.form.value.isNone).getD false) s := by
  have hbefore : Between (isRaw tag.nameToken) false (.beforeAttrName (isRaw tag.nameToken)) :=
    .before
  obtain ⟨mid, s, hpasses, hmid, hs⟩ := hbefore.passes_attributes tag.attributes
    (tokens ++ [text] ++ [tokenOpen, tag.nameToken])
  refine ⟨tag.nameToken :: mid, s, ?_, ?_, hs⟩
  · simpa [opened] using hpasses
  · exact (OneGroup.letter tag.isalpha_letter (tag.name.map tolower)).append hmid

/-- Behind an attribute with a value, the end of the tag is read as such. -/
theorem passes_tail (script : Bool) : ∃ mid s,
    Passes (tokens, .beforeAttrName script) tag.tail (tokens ++ mid, s) ∧ OneGroup [] mid ∧
      poll (tokens ++ mid) s 62 =
        (tokens ++ mid ++ [tokenClose], if tag.slash then .data [] else afterTag script) := by
  have hblanks : Passes (tokens, .beforeAttrName script) tag.blanks
      (tokens, .beforeAttrName script) := passes_before fun b hb => by
    obtain ⟨halpha, hclose, hslash, _⟩ := isBlank_plain (tag.isBlank_blanks b hb)
    exact ⟨halpha, hclose, hslash⟩
  rw [tail]
  cases tag.slash with
  | false =>
      refine ⟨[], .beforeAttrName script, ?_, .nil _, rfl⟩
      simpa using hblanks
  | true =>
      refine ⟨[tokenSlash], .selfEndTag, ?_, .single (by decide) (by decide), rfl⟩
      exact hblanks.append (.single rfl rfl rfl)

theorem inside {q : List Bytes × TokenState} (hrest : Passes (tag.opened tokens text) tag.rest q)
    {front : Bytes} (hne : front ≠ []) (hfront : front <+: tag.text) (hproper : front ≠ tag.text) :
    (run (tokens, .data text) front).2.isTag := by
  have htext : tag.text = 60 :: (tag.letter :: tag.name ++ tag.rest) ++ [62] := by
    simp [StartTag.text]
  have hname := tag.passes_tagName (tokens ++ [text])
  rw [htext] at hfront hproper
  have hfront := (List.prefix_concat_iff.mp hfront).resolve_left hproper
  cases front with
  | nil => exact absurd rfl hne
  | cons c front =>
  obtain ⟨rfl, hbehind⟩ := List.cons_prefix_cons.mp hfront
  show (run (tokens ++ [text], .tagOpen) front).2.isTag
  rcases List.prefix_or_prefix_of_prefix hbehind (List.prefix_append _ _) with hin | hout
  · exact hname.inside front hin
  · obtain ⟨behind, rfl⟩ := hout
    have hinside := (List.prefix_append_right_inj _).mp hbehind
    rw [run_append, hname.run_eq]
    by_cases hbehind : behind = []
    · rw [hbehind]
      rfl
    · rw [tag.run_name tokens text hbehind (hinside.trans (List.prefix_append _ _))]
      exact hrest.inside behind hinside

/-- A tag without a bare attribute at its end is read as one. -/
theorem readAsTag (h : ∀ a ∈ tag.attributes.getLast?, a.form.value.isSome) :
    tag.ReadAsTag tokens text := by
  obtain ⟨mid, s, hattributes, hmid, hs⟩ := tag.passes_attributes tokens text
  have hbefore : s = .beforeAttrName (isRaw tag.nameToken) := by
    have hbare : (tag.attributes.getLast?.map fun a => a.form.value.isNone).getD false = false := by
      cases hlast : tag.attributes.getLast? with
      | none => rfl
      | some a =>
          have hsome := h a hlast
          cases hvalue : a.form.value with
          | none =>
              rw [hvalue] at hsome
              cases hsome
          | some v => simp [hvalue]
    rw [hbare] at hs
    cases hs
    rfl
  subst hbefore
  obtain ⟨mid', s', htail, hmid', hclose⟩ :=
    tag.passes_tail (tokens ++ text :: tokenOpen :: mid) (isRaw tag.nameToken)
  have hrest : Passes (tag.opened tokens text) tag.rest _ := hattributes.append htail
  have hrun : run (tokens, .data text) tag.text =
      (tokens ++ text :: tokenOpen :: mid ++ mid' ++ [tokenClose],
        if tag.slash then .data [] else afterTag (isRaw tag.nameToken)) := by
    rw [tag.run_text, run_append, hrest.run_eq]
    exact hclose
  refine ⟨fun front => tag.inside tokens text hrest, ?_, mid ++ mid', ?_, ?_⟩
  · rw [hrun]
  · rw [hrun]
    simp
  · have hgroup := hmid.append hmid'
    rwa [List.append_nil] at hgroup

/-- `<a disabled>` -/
def disabled : StartTag where
  letter := 97
  name := []
  attributes := [{
    blanks := [32]
    name := [100, 105, 115, 97, 98, 108, 101, 100]
    form := .bare
    blanks_ne := by simp
    isBlank_blanks := by simp [isBlank]
    name_letter := ⟨100, List.mem_cons_self, rfl⟩
    name_plain := by simp [isBlank] }]
  blanks := []
  slash := false
  isalpha_letter := rfl
  name_plain := by simp
  isBlank_blanks := by simp

end StartTag

end HtmlDoc
