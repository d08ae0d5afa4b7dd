import Zookeeper.Spider.HtmlQuery

/-!
# The tokens of a page

`html_doc::TokenParser` (`spider/html/TokenParser.cpp`) reads a page a character at a time.
Each of its states takes the character, may put tokens behind those there are, and says which
state is next.  The states for the attributes of a tag are there twice, once for the tags
`script` and `style`, whose text is not read as tags.

`run` is the loop of `Parse` from any state, and is what the properties of the tokens are
stated with.
-/

namespace HtmlDoc

/-! ## Characters -/

/-- `std::isalpha` in the "C" locale. -/
def isalpha (c : UInt8) : Bool := (65 ≤ c && c ≤ 90) || (97 ≤ c && c ≤ 122)

/-- `std::isdigit`. -/
def isdigit (c : UInt8) : Bool := 48 ≤ c && c ≤ 57

/-- `std::tolower` in the "C" locale. -/
def tolower (c : UInt8) : UInt8 := if 65 ≤ c ∧ c ≤ 90 then c + 32 else c

/-- `' '` or `'\t'`. -/
def isBlank (c : UInt8) : Bool := c == 32 || c == 9

/-- A character that a state for the name of an attribute puts to the name. -/
def isAttrChar (c : UInt8) : Bool := isalpha c || c == 45 || isdigit c

theorem isalpha_ne {c d : UInt8} (hc : isalpha c) (hd : isalpha d = false) : c ≠ d := by
  rintro rfl
  rw [hd] at hc
  cases hc

theorem isBlank_ne {c d : UInt8} (hc : isBlank c) (hd : isBlank d = false) : c ≠ d := by
  rintro rfl
  rw [hd] at hc
  cases hc

theorem isalpha_of_isBlank {c : UInt8} (h : isBlank c) : isalpha c = false := by
  simp only [isBlank, Bool.or_eq_true, beq_iff_eq] at h
  rcases h with rfl | rfl <;> rfl

theorem isBlank_of_isalpha {c : UInt8} (h : isalpha c) : isBlank c = false := by
  cases hblank : isBlank c with
  | false => rfl
  | true =>
      rw [isalpha_of_isBlank hblank] at h
      cases h

theorem isalpha_tolower {c : UInt8} (h : isalpha c) : isalpha (tolower c) := by
  grind [isalpha, tolower]

/-- What a list begins with. -/
theorem exists_span {α : Type} (p : α → Bool) (l : List α) :
    ∃ front rest, l = front ++ rest ∧ (∀ x ∈ front, p x) ∧ ∀ x ∈ rest.head?, p x = false := by
  refine ⟨l.takeWhile p, l.dropWhile p, List.takeWhile_append_dropWhile.symm,
    fun x hx => List.mem_takeWhile_imp hx, fun x hx => ?_⟩
  have hnot := List.head?_dropWhile_not p l
  rw [Option.mem_def.mp hx] at hnot
  exact Bool.eq_false_iff.mpr (by simpa using hnot)

/-- `<` -/
abbrev tokenOpen : Bytes := [60]

/-- `>` -/
abbrev tokenClose : Bytes := [62]

/-- `/` -/
abbrev tokenSlash : Bytes := [47]

/-- `=` -/
abbrev tokenEqual : Bytes := [61]

/-- `!` -/
abbrev tokenBang : Bytes := [33]

/-- `--` -/
abbrev tokenDashes : Bytes := [45, 45]

/-- `doctype` -/
abbrev tokenDoctype : Bytes := [100, 111, 99, 116, 121, 112, 101]

/-- `script` -/
abbrev tokenScript : Bytes := [115, 99, 114, 105, 112, 116]

/-- `style` -/
abbrev tokenStyle : Bytes := [115, 116, 121, 108, 101]

/-- The tags whose text is no tags. -/
def isRaw (name : Bytes) : Bool := name == tokenScript || name == tokenStyle

/-! ## The states -/

/-- A `TokenParserState` with what it reads of `_text` and `_temp`.  The states for attributes
are those with `Script` in the name if `script` is set. -/
inductive TokenState where
  | data (text : Bytes)
  | tagOpen
  | markupDeclarationOpen (text : Bytes)
  | docType (text : Bytes)
  | comment (text : Bytes)
  | tagName (text : Bytes)
  | beforeAttrName (script : Bool)
  | attrName (script : Bool) (text : Bytes)
  | beforeAttrValueEqual (script : Bool)
  | beforeAttrValue (script : Bool)
  | attrValueDoubleQuotes (script : Bool) (text : Bytes)
  | attrValueSingleQuotes (script : Bool) (text : Bytes)
  | endTagOpen
  | selfEndTag
  | endTagName (text : Bytes)
  | endTagNameClose
  | script (text : Bytes)
  | beforeEndScript (text : Bytes)
  | endScriptOpen (text : Bytes)
  | endScript (text temp : Bytes)
  | endScriptClose (text temp : Bytes)
deriving DecidableEq, Repr

/-- The loop of `CheckLastTag`, over the tokens from the back, behind the token `last`. -/
def checkLastTagFrom (tag last : Bytes) : List Bytes → Bool
  | [] => false
  | token :: tokens =>
      if token = tokenOpen then decide (tag = last) else checkLastTagFrom tag token tokens

/-- `CheckLastTag`.  The last token itself is passed over. -/
def checkLastTag (tokens : List Bytes) (tag : Bytes) : Bool :=
  match tokens.reverse with
  | [] => false
  | last :: tokens => checkLastTagFrom tag last tokens

/-- The text up to its last `<`. -/
def beforeLastOpen (text : Bytes) : Bytes := (text.reverse.dropWhile (· ≠ 60)).tail.reverse

/-- What a state for the end of a script does at `>`, which is in `text` already. -/
def closeScript (tokens : List Bytes) (text temp : Bytes) : List Bytes × TokenState :=
  if checkLastTag tokens temp then
    (tokens ++ [beforeLastOpen text, tokenOpen, tokenSlash, temp, tokenClose], .data [])
  else (tokens, .script text)

/-- The state behind the `>` of a start tag. -/
def afterTag (script : Bool) : TokenState := if script then .script [] else .data []

/-- `Poll` of each state. -/
def poll (tokens : List Bytes) : TokenState → UInt8 → List Bytes × TokenState
  | .data text, c =>
      if c = 60 then (tokens ++ [text], .tagOpen)
      else if c = 13 ∨ c = 10 then (tokens, .data text)
      else (tokens, .data (text ++ [c]))
  | .tagOpen, c =>
      if c = 33 then (tokens, .markupDeclarationOpen [])
      else if c = 47 then (tokens, .endTagOpen)
      else if isalpha c then (tokens, .tagName [c])
      else (tokens, .tagOpen)
  | .markupDeclarationOpen text, c =>
      if text ++ [tolower c] = tokenDashes then (tokens, .comment [])
      else if text ++ [tolower c] = tokenDoctype then (tokens, .docType [])
      else (tokens, .markupDeclarationOpen (text ++ [tolower c]))
  | .docType text, c =>
      if c = 62 then
        (tokens ++ [tokenOpen, tokenBang, tokenDoctype, text, tokenClose], .data [])
      else (tokens, .docType (text ++ [c]))
  | .comment text, c =>
      let text := text ++ [tolower c]
      if [45, 45, 62] <:+ text then
        (tokens ++ [tokenOpen, tokenBang, tokenDashes, text.take (text.length - 3), tokenDashes,
          tokenClose], .data [])
      else (tokens, .comment text)
  | .tagName text, c =>
      if c = 62 then (tokens ++ [tokenOpen, text, tokenClose], afterTag (isRaw text))
      else if c = 47 then (tokens ++ [tokenOpen, text, tokenSlash], .selfEndTag)
      else if isBlank c then (tokens ++ [tokenOpen, text], .beforeAttrName (isRaw text))
      else (tokens, .tagName (text ++ [tolower c]))
  | .beforeAttrName script, c =>
      if c = 62 then (tokens ++ [tokenClose], afterTag script)
      else if c = 47 then (tokens ++ [tokenSlash], .selfEndTag)
      else if isalpha c then (tokens, .attrName script [tolower c])
      else (tokens, .beforeAttrName script)
  | .attrName script text, c =>
      if isAttrChar c then (tokens, .attrName script (text ++ [tolower c]))
      else if isBlank c then (tokens ++ [text], .beforeAttrValueEqual script)
      else if c = 61 then (tokens ++ [text, tokenEqual], .beforeAttrValue script)
      else (tokens, .attrName script text)
  | .beforeAttrValueEqual script, c =>
      if c = 61 then (tokens ++ [tokenEqual], .beforeAttrValue script)
      else (tokens, .beforeAttrValueEqual script)
  | .beforeAttrValue script, c =>
      if c = 34 then (tokens, .attrValueDoubleQuotes script [])
      else if c = 39 then (tokens, .attrValueSingleQuotes script [])
      else if c = 62 then (tokens ++ [[], tokenClose], .data [])
      else (tokens, .beforeAttrValue script)
  | .attrValueDoubleQuotes script text, c =>
      if c = 34 then (tokens ++ [text], .beforeAttrName script)
      else (tokens, .attrValueDoubleQuotes script (text ++ [c]))
  | .attrValueSingleQuotes script text, c =>
      if c = 39 then (tokens ++ [text], .beforeAttrName script)
      else (tokens, .attrValueSingleQuotes script (text ++ [c]))
  | .endTagOpen, c => if isalpha c then (tokens, .endTagName [c]) else (tokens, .endTagOpen)
  | .selfEndTag, c => if c = 62 then (tokens ++ [tokenClose], .data []) else (tokens, .selfEndTag)
  | .endTagName text, c =>
      if c = 62 then (tokens ++ [tokenOpen, tokenSlash, text, tokenClose], .data [])
      else
        let text := if isalpha c || isdigit c then text ++ [tolower c] else text
        if isBlank c then (tokens ++ [tokenOpen, tokenSlash, text], .endTagNameClose)
        else (tokens, .endTagName text)
  | .endTagNameClose, c =>
      if c = 62 then (tokens ++ [tokenClose], .data []) else (tokens, .endTagNameClose)
  | .script text, c =>
      if c = 60 then (tokens, .beforeEndScript (text ++ [c])) else (tokens, .script (text ++ [c]))
  -- `if (c = '/')` holds of every `c`, and nothing behind it is reached.
  | .beforeEndScript text, c => (tokens, .endScriptOpen (text ++ [c]))
  | .endScriptOpen text, c =>
      if isalpha c then (tokens, .endScript (text ++ [c]) [tolower c])
      else if isBlank c then (tokens, .endScriptOpen (text ++ [c]))
      else (tokens, .script (text ++ [c]))
  | .endScript text temp, c =>
      if c = 62 then closeScript tokens (text ++ [c]) temp
      else if c = 60 then (tokens, .beforeEndScript (text ++ [c]))
      else if isBlank c then (tokens, .endScriptClose (text ++ [c]) temp)
      else if isalpha c then (tokens, .endScript (text ++ [c]) (temp ++ [tolower c]))
      else (tokens, .script (text ++ [c]))
  | .endScriptClose text temp, c =>
      if c = 62 then closeScript tokens (text ++ [c]) temp
      else if c = 60 then (tokens, .beforeEndScript (text ++ [c]))
      else if isBlank c then (tokens, .endScriptClose (text ++ [c]) temp)
      else (tokens, .script (text ++ [c]))

/-- The loop of `Parse`. -/
def run (p : List Bytes × TokenState) (content : Bytes) : List Bytes × TokenState :=
  content.foldl (fun p c => poll p.1 p.2 c) p

/-- `TokenParser::Parse`. -/
def TokenParser.parse (content : Bytes) : List Bytes := (run ([], .data []) content).1

/-! ## Runs -/

@[simp] theorem run_nil (p : List Bytes × TokenState) : run p [] = p := rfl

theorem run_cons (tokens : List Bytes) (s : TokenState) (c : UInt8) (content : Bytes) :
    run (tokens, s) (c :: content) = run (poll tokens s c) content := rfl

theorem run_append (p : List Bytes × TokenState) (content rest : Bytes) :
    run p (content ++ rest) = run (run p content) rest :=
  List.foldl_append

/-- Tokens are only put behind those there are. -/
theorem poll_grows (tokens : List Bytes) (s : TokenState) (c : UInt8) :
    tokens <+: (poll tokens s c).1 := by
  cases s <;> simp only [poll, closeScript] <;> grind

theorem run_grows (p : List Bytes × TokenState) (content : Bytes) :
    p.1 <+: (run p content).1 := by
  induction content generalizing p with
  | nil => exact List.prefix_refl _
  | cons c content ih => exact (poll_grows p.1 p.2 c).trans (ih _)

/-- A state that keeps what it reads, read to the end. -/
theorem run_keep {q : Bytes → TokenState} {tokens : List Bytes} {content : Bytes}
    (f : UInt8 → UInt8)
    (hkeep : ∀ text, ∀ c ∈ content, poll tokens (q text) c = (tokens, q (text ++ [f c])))
    (text : Bytes) : run (tokens, q text) content = (tokens, q (text ++ content.map f)) := by
  induction content generalizing text with
  | nil => rw [run_nil, List.map_nil, List.append_nil]
  | cons c content ih =>
      rw [run_cons, hkeep text c List.mem_cons_self,
        ih (fun text d hd => hkeep text d (List.mem_cons_of_mem c hd)), List.map_cons,
        List.append_assoc, List.singleton_append]

/-- A state that passes what it reads by. -/
theorem run_stay {s : TokenState} {tokens : List Bytes} {content : Bytes}
    (hstay : ∀ c ∈ content, poll tokens s c = (tokens, s)) :
    run (tokens, s) content = (tokens, s) := by
  induction content with
  | nil => rfl
  | cons c content ih =>
      rw [run_cons, hstay c List.mem_cons_self,
        ih fun d hd => hstay d (List.mem_cons_of_mem c hd)]

/-! ## The first tokens -/

/-- The states of a tag of which no token is put out yet. -/
def TokenState.opens : TokenState → Bool
  | .tagOpen | .markupDeclarationOpen _ | .docType _ | .comment _ | .tagName _ | .endTagOpen
  | .endTagName _ => true
  | _ => false

/-- The first token is text, and the second a `<`. -/
inductive Led : List Bytes × TokenState → Prop where
  | start (text : Bytes) : Led ([], .data text)
  | text {text : Bytes} {s : TokenState} (h : s.opens) : Led ([text], s)
  | tag (text : Bytes) (rest : List Bytes) (s : TokenState) : Led (text :: tokenOpen :: rest, s)

theorem Led.poll {tokens : List Bytes} {s : TokenState} (h : Led (tokens, s)) (c : UInt8) :
    Led (HtmlDoc.poll tokens s c) := by
  cases h with
  | start text =>
      simp only [HtmlDoc.poll]
      split
      next => exact .text rfl
      next =>
        split
        next => exact .start _
        next => exact .start _
  | tag text rest s =>
      obtain ⟨more, hmore⟩ := poll_grows (text :: tokenOpen :: rest) s c
      have heq : HtmlDoc.poll (text :: tokenOpen :: rest) s c =
        (text :: tokenOpen :: (rest ++ more), (HtmlDoc.poll (text :: tokenOpen :: rest) s c).2) :=
        Prod.ext hmore.symm rfl
      rw [heq]
      exact .tag _ _ _
  | @text text s h =>
      cases s <;> simp only [TokenState.opens, Bool.false_eq_true] at h <;>
        simp only [HtmlDoc.poll] <;> (repeat' split) <;>
        first
        | exact .text rfl
        | exact .tag _ _ _

theorem Led.run {p : List Bytes × TokenState} (h : Led p) (content : Bytes) :
    Led (HtmlDoc.run p content) := by
  induction content generalizing p with
  | nil => exact h
  | cons c content ih => exact ih (h.poll c)

/-- The tokens of a page do not begin with a tag. -/
theorem parse_led (content : Bytes) : Led (HtmlDoc.run ([], .data []) content) :=
  (Led.start []).run content

end HtmlDoc
