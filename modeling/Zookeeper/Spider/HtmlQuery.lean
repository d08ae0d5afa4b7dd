import Zookeeper.Bytes
import Mathlib.Data.List.TakeWhile

/-!
# Selectors

The constructor of `html_doc::Query` (`spider/html/HtmlDocument.cpp`) makes rules of the
text of a selector.  A token between spaces is cut at `>` into compounds, and a compound is
a name and any number of classes, behind a `.`, and ids, behind a `#`.

A turn of its loop takes one part.  It goes on only over letters, digits, `-` and `_`, so at
any other byte it takes an empty name and stays where it is.  A rule has room for one id.

`query_iff` says which texts are read to the end, with all their parts in the rules.
-/

namespace HtmlDoc

/-! ## Rules -/

/-- `Query::QueryRule`. -/
structure QueryRule where
  id : Bytes := []
  tagName : Bytes := []
  classes : List Bytes := []
  isChild : Bool := false
deriving DecidableEq, Repr

/-- `std::isalnum` in the "C" locale. -/
def isalnum (c : UInt8) : Bool :=
  (48 ≤ c && c ≤ 57) || (65 ≤ c && c ≤ 90) || (97 ≤ c && c ≤ 122)

/-- The bytes the inner loop goes on over. -/
def isNameByte (c : UInt8) : Bool := isalnum c || c == 45 || c == 95

/-- `.` and `#`. -/
def isMark (c : UInt8) : Bool := c == 46 || c == 35

/-- A part goes where the byte it begins with says. -/
def QueryRule.record (rule : QueryRule) (c : UInt8) (part : Bytes) : QueryRule :=
  if c = 46 then { rule with classes := rule.classes ++ [part] }
  else if c = 35 then { rule with id := part }
  else { rule with tagName := part }

/-- `_rules`, and the rule that is built. -/
structure Parsing where
  rules : List QueryRule := []
  rule : QueryRule := {}
deriving DecidableEq, Repr

/-- One turn of the loop, at the byte `c` of a token, with what it leaves of the token. -/
def turn (p : Parsing) (c : UInt8) (rest : Bytes) : Parsing × Bytes :=
  if c = 62 then ({ rules := p.rules ++ [p.rule], rule := { isChild := true } }, rest)
  else
    let scanned := if isMark c then rest else c :: rest
    ({ p with rule := p.rule.record c (scanned.takeWhile isNameByte) },
      scanned.dropWhile isNameByte)

/-- The loop for a token.  There is no result where the turns do not suffice. -/
def parseToken : Nat → Parsing → Bytes → Option (List QueryRule)
  | _, p, [] => some (p.rules ++ [p.rule])
  | 0, _, _ :: _ => none
  | turns + 1, p, c :: rest => parseToken turns (turn p c rest).1 (turn p c rest).2

/-- `Query::Query`, with a number of turns for each token. -/
def query (turns : Nat) (q : Bytes) : Option (List QueryRule) :=
  (q.splitOn 32).foldlM (fun rules token => parseToken turns { rules := rules } token) []

/-! ## What a selector says -/

/-- A compound, cut in front of each `.` and `#`. -/
def cutParts : Bytes → List Bytes
  | [] => []
  | c :: rest =>
      match cutParts rest with
      | [] => [[c]]
      | part :: parts => if part.head?.any isMark then [c] :: part :: parts
          else (c :: part) :: parts

/-- A part of a compound. -/
inductive Part where
  | tagName (name : Bytes)
  | cls (name : Bytes)
  | id (name : Bytes)
deriving DecidableEq, Repr

/-- What a piece of a compound says. -/
def Part.of : Bytes → Part
  | [] => .tagName []
  | c :: rest => if c = 46 then .cls rest else if c = 35 then .id rest else .tagName (c :: rest)

def Part.name : Part → Bytes
  | .tagName name | .cls name | .id name => name

/-- The compounds of a token. -/
def compounds (token : Bytes) : List Bytes := token.splitOn 62

/-- The parts of a compound that are not empty. -/
def parts (compound : Bytes) : List Part :=
  ((cutParts compound).map Part.of).filter fun part => part.name ≠ []

/-- The ids of a compound, with the empty ones. -/
def ids (compound : Bytes) : List Bytes :=
  (cutParts compound).filterMap fun piece => if piece.head? = some 35 then some piece.tail else none

/-- A part is in a rule. -/
def QueryRule.has (rule : QueryRule) : Part → Prop
  | .tagName name => rule.tagName = name
  | .cls name => name ∈ rule.classes
  | .id name => rule.id = name

instance (rule : QueryRule) : DecidablePred rule.has
  | .tagName name => inferInstanceAs (Decidable (rule.tagName = name))
  | .cls name => inferInstanceAs (Decidable (name ∈ rule.classes))
  | .id name => inferInstanceAs (Decidable (rule.id = name))

/-- Each token has a rule, and each part of one is in a rule. -/
structure Recorded (q : Bytes) (rules : List QueryRule) : Prop where
  count : (q.splitOn 32).length ≤ rules.length
  parts : ∀ token ∈ q.splitOn 32, ∀ compound ∈ compounds token, ∀ part ∈ parts compound,
    ∃ rule ∈ rules, rule.has part

/-- The constructor finishes, with all parts recorded. -/
def Reads (q : Bytes) : Prop := ∃ turns rules, query turns q = some rules ∧ Recorded q rules

/-- A byte that a turn takes. -/
def taken (c : UInt8) : Bool := isNameByte c || isMark c || c == 62

/-- Every id is the last one of a compound. -/
def KeepsIds (q : Bytes) : Prop :=
  ∀ token ∈ q.splitOn 32, ∀ compound ∈ compounds token, ∀ name ∈ ids compound, name ≠ [] →
    ∃ token' ∈ q.splitOn 32, ∃ compound' ∈ compounds token',
      (ids compound').getLast? = some name

/-! ## One turn -/

/-- The rule of a compound. -/
def QueryRule.add (rule : QueryRule) (piece : Bytes) : QueryRule :=
  match piece with
  | [] => rule
  | c :: rest => rule.record c (if isMark c then rest else c :: rest)

def QueryRule.addAll (rule : QueryRule) (compound : Bytes) : QueryRule :=
  (cutParts compound).foldl QueryRule.add rule

/-- The rules of a token, the first of which goes on from a rule. -/
def tokenRules (rule : QueryRule) (token : Bytes) : List QueryRule :=
  match compounds token with
  | [] => []
  | compound :: rest => rule.addAll compound :: rest.map ({ isChild := true : QueryRule }).addAll

theorem not_mark_of_nameByte {c : UInt8} (h : isNameByte c = true) : isMark c = false := by
  rw [isMark, Bool.or_eq_false_iff, beq_eq_false_iff_ne, beq_eq_false_iff_ne]
  constructor <;> rintro rfl <;> exact absurd h (by decide)

/-- A turn that takes a part takes all of its name. -/
theorem turn_part {c : UInt8} (h : isNameByte c = true ∨ isMark c = true) (p : Parsing)
    (rest : Bytes) : turn p c rest =
      ({ p with rule := p.rule.add (c :: rest.takeWhile isNameByte) },
        rest.dropWhile isNameByte) := by
  have hchild : c ≠ 62 := by
    rintro rfl
    exact absurd h (by decide)
  rw [turn, if_neg hchild, QueryRule.add]
  rcases h with hname | hmark
  · simp [not_mark_of_nameByte hname, hname]
  · simp [hmark]

/-- A turn that takes nothing leaves the token as it is. -/
theorem turn_stuck {c : UInt8} (h : taken c = false) (p : Parsing) (rest : Bytes) :
    (turn p c rest).2 = c :: rest := by
  simp only [taken, Bool.or_eq_false_iff, beq_eq_false_iff_ne] at h
  rw [turn, if_neg h.2]
  simp [h.1.1, h.1.2]

/-! ## Cutting -/

theorem cutParts_cons (c : UInt8) (rest : Bytes) :
    ∃ name parts, cutParts (c :: rest) = (c :: name) :: parts := by
  rw [cutParts]
  cases cutParts rest with
  | nil => exact ⟨[], [], rfl⟩
  | cons part parts =>
      dsimp only
      split
      next => exact ⟨[], _, rfl⟩
      next => exact ⟨part, parts, rfl⟩

/-- A name is cut off as a whole. -/
theorem cutParts_append {name next : Bytes} (hname : ∀ c ∈ name, isMark c = false)
    (hnext : next = [] ∨ next.head?.any isMark = true) (c : UInt8) :
    cutParts (c :: (name ++ next)) = (c :: name) :: cutParts next := by
  induction name generalizing c with
  | nil =>
      rw [List.nil_append]
      cases next with
      | nil => rfl
      | cons d next =>
          obtain ⟨part, parts, hcut⟩ := cutParts_cons d next
          have hmark : isMark d = true := by simpa using hnext
          rw [cutParts, hcut]
          simp [hmark]
  | cons d name ih =>
      have hcut := ih (fun e he => hname e (List.mem_cons_of_mem _ he)) d
      have hmark := hname d List.mem_cons_self
      rw [List.cons_append, cutParts, hcut]
      simp [hmark]

/-- What does not begin with a mark is in front. -/
theorem mark_of_mem_tail {compound piece : Bytes} (h : piece ∈ (cutParts compound).tail) :
    piece.head?.any isMark = true := by
  induction compound with
  | nil => cases h
  | cons c rest ih =>
      rw [cutParts] at h
      cases hcut : cutParts rest with
      | nil =>
          rw [hcut] at h
          cases h
      | cons part parts =>
          rw [hcut] at h ih
          simp only [List.tail_cons] at ih
          dsimp only at h
          split at h
          next hmark =>
              rcases List.mem_cons.1 h with rfl | hmem
              · exact hmark
              · exact ih hmem
          next => exact ih h

/-- A compound that begins with a part has it as its first piece. -/
theorem addAll_append {name next : Bytes} (hname : ∀ c ∈ name, isMark c = false)
    (hnext : next = [] ∨ next.head?.any isMark = true) (rule : QueryRule) (c : UInt8) :
    rule.addAll (c :: (name ++ next)) = (rule.add (c :: name)).addAll next := by
  rw [QueryRule.addAll, cutParts_append hname hnext, List.foldl_cons, QueryRule.addAll]

theorem compounds_append {part : Bytes} (h : 62 ∉ part) (left : Bytes) :
    compounds (part ++ left) = (compounds left).modifyHead (part ++ ·) := by
  induction part with
  | nil =>
      rw [List.nil_append]
      cases compounds left <;> rfl
  | cons c part ih =>
      have hc : (c == 62) = false := beq_eq_false_iff_ne.2 fun heq => h (heq ▸ List.mem_cons_self)
      have hrest := ih fun hmem => h (List.mem_cons_of_mem _ hmem)
      rw [compounds] at hrest
      rw [compounds, List.cons_append, List.splitOn_cons_eq_if_modifyHead, hc, hrest]
      simp [compounds, Function.comp_def]

/-- The rules of a token that begins with a part. -/
theorem tokenRules_append {c : UInt8} {name left : Bytes} (hchild : 62 ∉ c :: name)
    (hname : ∀ c ∈ name, isMark c = false)
    (hleft : left = [] ∨ left.head?.any (fun c => isMark c || c == 62) = true) (rule : QueryRule) :
    tokenRules rule (c :: name ++ left) = tokenRules (rule.add (c :: name)) left := by
  rw [tokenRules, compounds_append hchild, tokenRules]
  cases hcompounds : compounds left with
  | nil => rfl
  | cons next rest =>
      have hnext : next = [] ∨ next.head?.any isMark = true := by
        cases left with
        | nil => exact .inl (List.cons.inj hcompounds).1.symm
        | cons d left =>
            rw [compounds, List.splitOn_cons_eq_if_modifyHead] at hcompounds
            split at hcompounds
            next => exact .inl (List.cons.inj hcompounds).1.symm
            next hne =>
                have hmark : isMark d = true := by simpa [hne] using hleft
                cases hsplit : left.splitOn 62 with
                | nil => exact absurd hsplit (List.splitOn_ne_nil _ _)
                | cons first others =>
                    rw [hsplit, List.modifyHead_cons] at hcompounds
                    refine .inr ?_
                    rw [← (List.cons.inj hcompounds).1]
                    simpa using hmark
      simp only [List.modifyHead_cons, List.cons_append]
      rw [addAll_append hname hnext]

theorem tokenRules_child (token : Bytes) : tokenRules { isChild := true } token =
    (compounds token).map ({ isChild := true : QueryRule }).addAll := by
  rw [tokenRules]
  cases compounds token <;> rfl

/-! ## The loops -/

theorem parseToken_stuck {c : UInt8} (h : taken c = false) (turns : Nat) (p : Parsing)
    (rest : Bytes) : parseToken turns p (c :: rest) = none := by
  induction turns generalizing p with
  | zero => rfl
  | succ turns ih =>
      rw [parseToken, turn_stuck h]
      exact ih _

/-- What a turn leaves of the bytes that no turn takes. -/
theorem mem_turn {c b : UInt8} {rest : Bytes} (hb : taken b = false) (hc : taken c = true)
    (hmem : b ∈ c :: rest) (p : Parsing) : b ∈ (turn p c rest).2 := by
  have hne : b ≠ c := fun heq => by simp [heq, hc] at hb
  have hrest : b ∈ rest := (List.mem_cons.1 hmem).resolve_left hne
  simp only [taken, Bool.or_eq_true, beq_iff_eq] at hc
  rcases hc with hpart | rfl
  · rw [turn_part hpart]
    rw [← List.takeWhile_append_dropWhile (p := isNameByte) (l := rest), List.mem_append] at hrest
    refine hrest.resolve_left fun hname => ?_
    have hnameByte := List.mem_takeWhile_imp hname
    simp [taken, hnameByte] at hb
  · exact hrest

/-- A token with a byte that no turn takes is never read to its end. -/
theorem parseToken_none {b : UInt8} (hb : taken b = false) {token : Bytes} (hmem : b ∈ token)
    (turns : Nat) (p : Parsing) : parseToken turns p token = none := by
  induction turns generalizing p token with
  | zero =>
      cases token with
      | nil => cases hmem
      | cons c rest => rfl
  | succ turns ih =>
      cases token with
      | nil => cases hmem
      | cons c rest =>
          cases hc : taken c with
          | true =>
              rw [parseToken]
              exact ih (mem_turn hb hc hmem p) _
          | false => exact parseToken_stuck hc _ p rest

theorem dropWhile_boundary {rest : Bytes} (h : ∀ c ∈ rest, taken c = true) :
    rest.dropWhile isNameByte = [] ∨
      (rest.dropWhile isNameByte).head?.any (fun c => isMark c || c == 62) = true := by
  cases hleft : rest.dropWhile isNameByte with
  | nil => exact .inl rfl
  | cons c left =>
      have hstop : isNameByte c = false := by
        have hhead := List.head?_dropWhile_not isNameByte rest
        rw [hleft] at hhead
        exact hhead
      have hmem : c ∈ rest := List.dropWhile_subset isNameByte (hleft ▸ List.mem_cons_self)
      have htaken := h c hmem
      rw [taken, hstop, Bool.false_or] at htaken
      exact .inr htaken

/-- All other tokens are, with a turn for each byte at most. -/
theorem parseToken_eq {token : Bytes} (h : ∀ c ∈ token, taken c = true) {turns : Nat}
    (hturns : token.length ≤ turns) (p : Parsing) :
    parseToken turns p token = some (p.rules ++ tokenRules p.rule token) := by
  induction turns generalizing p token with
  | zero =>
      obtain rfl := List.eq_nil_of_length_eq_zero (Nat.le_zero.1 hturns)
      rfl
  | succ turns ih =>
      cases token with
      | nil => rfl
      | cons c rest =>
          have hrest := fun d hd => h d (List.mem_cons_of_mem c hd)
          have hc := h c List.mem_cons_self
          simp only [taken, Bool.or_eq_true, beq_iff_eq] at hc
          rw [List.length_cons] at hturns
          rcases hc with hpart | rfl
          · -- a part is taken, and the rest of its compound goes on from it
            have hsuffix := List.dropWhile_suffix isNameByte (l := rest)
            rw [parseToken, turn_part hpart,
              ih (fun d hd => hrest d (hsuffix.subset hd)) (by have := hsuffix.length_le; omega)]
            have hname : ∀ d ∈ rest.takeWhile isNameByte, isNameByte d = true :=
              fun _ hd => List.mem_takeWhile_imp hd
            have hchild : 62 ∉ c :: rest.takeWhile isNameByte := by
              intro hmem
              rcases List.mem_cons.1 hmem with rfl | hmem
              · exact absurd hpart (by decide)
              · exact absurd (hname _ hmem) (by decide)
            have happend := tokenRules_append hchild
              (fun d hd => not_mark_of_nameByte (hname d hd)) (dropWhile_boundary hrest) p.rule
            rw [List.cons_append, List.takeWhile_append_dropWhile] at happend
            rw [happend]
          · -- a compound ends
            rw [parseToken, turn, if_pos rfl, ih hrest (by omega), tokenRules_child,
              List.append_assoc]
            rfl

/-- More turns do not change what is read. -/
theorem parseToken_mono {turns more : Nat} (hle : turns ≤ more) {p : Parsing} {token : Bytes}
    {rules : List QueryRule} (h : parseToken turns p token = some rules) :
    parseToken more p token = some rules := by
  induction turns generalizing more p token with
  | zero =>
      cases token with
      | nil => simpa [parseToken] using h
      | cons c rest => cases h
  | succ turns ih =>
      cases token with
      | nil => simpa [parseToken] using h
      | cons c rest =>
          cases more with
          | zero => exact absurd hle (Nat.not_succ_le_zero _)
          | succ more => exact ih (Nat.le_of_succ_le_succ hle) h

/-- All tokens are read, each behind the rules of the ones before. -/
theorem foldlM_parseToken {tokens : List Bytes} {turns : Nat}
    (h : ∀ token ∈ tokens, ∀ c ∈ token, taken c = true)
    (hturns : ∀ token ∈ tokens, token.length ≤ turns) (rules : List QueryRule) :
    tokens.foldlM (fun rules token => parseToken turns { rules := rules } token) rules =
      some (rules ++ tokens.flatMap (tokenRules {})) := by
  induction tokens generalizing rules with
  | nil => simp
  | cons token tokens ih =>
      obtain ⟨htoken, htokens⟩ := List.forall_mem_cons.1 h
      obtain ⟨hlength, hlengths⟩ := List.forall_mem_cons.1 hturns
      rw [List.foldlM_cons, parseToken_eq htoken hlength]
      refine (ih htokens hlengths _).trans ?_
      rw [List.flatMap_cons, List.append_assoc]

theorem foldlM_none {b : UInt8} (hb : taken b = false) {tokens : List Bytes}
    (h : ∃ token ∈ tokens, b ∈ token) (turns : Nat) (rules : List QueryRule) :
    tokens.foldlM (fun rules token => parseToken turns { rules := rules } token) rules =
      none := by
  induction tokens generalizing rules with
  | nil =>
      obtain ⟨token, hmem, -⟩ := h
      cases hmem
  | cons token tokens ih =>
      obtain ⟨bad, hmem, hbad⟩ := h
      rw [List.foldlM_cons]
      rcases List.mem_cons.1 hmem with rfl | hmem
      · rw [parseToken_none hb hbad]
        rfl
      · cases parseToken turns { rules := rules } token with
        | none => rfl
        | some rules => exact ih ⟨bad, hmem, hbad⟩ rules

theorem foldlM_mono {turns more : Nat} (hle : turns ≤ more) {tokens : List Bytes}
    {rules read : List QueryRule}
    (h : tokens.foldlM (fun rules token => parseToken turns { rules := rules } token) rules =
      some read) :
    tokens.foldlM (fun rules token => parseToken more { rules := rules } token) rules =
      some read := by
  induction tokens generalizing rules with
  | nil => exact h
  | cons token tokens ih =>
      rw [List.foldlM_cons] at h ⊢
      obtain ⟨first, hfirst, hrest⟩ := Option.bind_eq_some_iff.1 h
      exact Option.bind_eq_some_iff.2 ⟨first, parseToken_mono hle hfirst, ih hrest⟩

/-- The constructor finishes on the texts whose bytes are spaces or are taken, and makes the
rules of their tokens. -/
theorem query_eq_some {q : Bytes} {rules : List QueryRule} :
    (∃ turns, query turns q = some rules) ↔
      (∀ c ∈ q, c = 32 ∨ taken c = true) ∧
        rules = (q.splitOn 32).flatMap (tokenRules {}) := by
  -- enough turns for the longest token
  have hread : ∀ turns, ((q.splitOn 32).map List.length).max?.getD 0 ≤ turns →
      (∀ c ∈ q, c = 32 ∨ taken c = true) →
      query turns q = some ((q.splitOn 32).flatMap (tokenRules {})) := by
    intro turns hturns h
    refine foldlM_parseToken ?_ ?_ []
    · intro token htoken c hc
      obtain ⟨hmem, hne⟩ := Bytes.mem_splitOn.1 ⟨token, htoken, hc⟩
      exact (h c hmem).resolve_left hne
    · intro token htoken
      exact (List.le_max?_getD_of_mem (List.mem_map_of_mem htoken)).trans hturns
  constructor
  · rintro ⟨turns, h⟩
    have htaken : ∀ c ∈ q, c = 32 ∨ taken c = true := by
      intro c hc
      by_contra hbad
      simp only [not_or, Bool.not_eq_true] at hbad
      have hnone := foldlM_none hbad.2 (Bytes.mem_splitOn.2 ⟨hc, hbad.1⟩) turns []
      exact absurd (h.symm.trans hnone) (Option.some_ne_none _)
    have hmore := hread _ (Nat.le_max_right turns _) htaken
    exact ⟨htaken, Option.some.inj ((foldlM_mono (Nat.le_max_left turns _) h).symm.trans hmore)⟩
  · rintro ⟨h, rfl⟩
    exact ⟨_, hread _ le_rfl h⟩

/-! ## What is recorded -/

theorem add_classes (rule : QueryRule) (name : Bytes) :
    (rule.add (46 :: name)).classes = rule.classes ++ [name] := rfl

theorem add_id (rule : QueryRule) (piece : Bytes) :
    (rule.add piece).id = if piece.head? = some 35 then piece.tail else rule.id := by
  cases piece with
  | nil => rfl
  | cons c rest =>
      simp only [QueryRule.add, QueryRule.record, List.head?_cons, Option.some.injEq,
        List.tail_cons]
      split
      next hdot => simp [hdot]
      next =>
        split
        next hhash => simp [hhash, isMark]
        next => rfl

theorem mem_classes_add {rule : QueryRule} {name : Bytes} (h : name ∈ rule.classes)
    (piece : Bytes) : name ∈ (rule.add piece).classes := by
  cases piece with
  | nil => exact h
  | cons c rest =>
      simp only [QueryRule.add, QueryRule.record]
      split
      next => exact List.mem_append_left _ h
      next => split <;> exact h

theorem add_tagName {rule : QueryRule} {c : UInt8} {name : Bytes} :
    (rule.add (c :: name)).tagName = if isMark c then rule.tagName else c :: name := by
  simp only [QueryRule.add, QueryRule.record, isMark]
  split
  next hdot => simp [hdot]
  next hdot =>
    split
    next hhash => simp [hhash]
    next hhash => simp [hdot, hhash]

theorem mem_classes_foldl {pieces : List Bytes} {rule : QueryRule} {name : Bytes}
    (h : name ∈ rule.classes ∨ 46 :: name ∈ pieces) :
    name ∈ (pieces.foldl QueryRule.add rule).classes := by
  induction pieces generalizing rule with
  | nil => exact h.resolve_right List.not_mem_nil
  | cons piece pieces ih =>
      refine ih ?_
      rcases h with h | h
      · exact .inl (mem_classes_add h piece)
      · rcases List.mem_cons.1 h with rfl | h
        · exact .inl (by rw [add_classes]; exact List.mem_append_right _ List.mem_cons_self)
        · exact .inr h

/-- The last id stays. -/
theorem id_foldl (pieces : List Bytes) (rule : QueryRule) :
    (pieces.foldl QueryRule.add rule).id = ((pieces.filterMap fun piece =>
      if piece.head? = some 35 then some piece.tail else none).getLast?).getD rule.id := by
  induction pieces generalizing rule with
  | nil => rfl
  | cons piece pieces ih =>
      rw [List.foldl_cons, ih, add_id, List.filterMap_cons]
      split
      next hid =>
          rw [List.getLast?_cons]
          cases (List.filterMap _ pieces).getLast? <;> rfl
      next => rfl

theorem tagName_foldl {pieces : List Bytes} (h : ∀ piece ∈ pieces, piece.head?.any isMark = true)
    (rule : QueryRule) : (pieces.foldl QueryRule.add rule).tagName = rule.tagName := by
  induction pieces generalizing rule with
  | nil => rfl
  | cons piece pieces ih =>
      obtain ⟨hpiece, hpieces⟩ := List.forall_mem_cons.1 h
      rw [List.foldl_cons, ih hpieces]
      cases piece with
      | nil => rfl
      | cons c name => rw [add_tagName, if_pos (by simpa using hpiece)]

/-- The id of the rule of a compound is the last one. -/
theorem addAll_id (b : Bool) (compound : Bytes) :
    (({ isChild := b : QueryRule }).addAll compound).id = ((ids compound).getLast?).getD [] :=
  id_foldl _ _

/-- The rule of a compound has its name and its classes, and the last id. -/
theorem addAll_has (b : Bool) {compound : Bytes} {part : Part} (h : part ∈ parts compound) :
    (({ isChild := b : QueryRule }).addAll compound).has part ∨ ∃ name, part = .id name := by
  rw [parts, List.mem_filter, List.mem_map] at h
  obtain ⟨⟨piece, hpiece, rfl⟩, hname⟩ := h
  have hne : piece ≠ [] := by
    rintro rfl
    exact absurd hname (by decide)
  obtain ⟨c, name, rfl⟩ := List.exists_cons_of_ne_nil hne
  rw [Part.of]
  split
  next hdot =>
      subst hdot
      exact .inl (mem_classes_foldl (.inr hpiece))
  next hdot =>
      split
      next => exact .inr ⟨name, rfl⟩
      next hhash =>
          have hmark : isMark c = false := by
            simp [isMark, hdot, hhash]
          -- a name is the first piece, and no other one changes it
          refine .inl ?_
          show (QueryRule.addAll _ compound).tagName = _
          rw [QueryRule.addAll]
          cases hcut : cutParts compound with
          | nil =>
              rw [hcut] at hpiece
              cases hpiece
          | cons first others =>
              have hothers : ∀ piece ∈ others, piece.head?.any isMark = true :=
                fun piece hmem => @mark_of_mem_tail compound piece (by rw [hcut]; exact hmem)
              rw [hcut] at hpiece
              rcases List.mem_cons.1 hpiece with rfl | hmem
              · rw [List.foldl_cons, tagName_foldl hothers, add_tagName, if_neg (by simp [hmark])]
              · exact absurd (hothers _ hmem) (by simp [hmark])

theorem mem_tokenRules {rule : QueryRule} {token : Bytes} (h : rule ∈ tokenRules {} token) :
    ∃ b, ∃ compound ∈ compounds token, rule = ({ isChild := b : QueryRule }).addAll compound := by
  rw [tokenRules] at h
  cases hcompounds : compounds token with
  | nil =>
      rw [hcompounds] at h
      cases h
  | cons first others =>
      rw [hcompounds] at h
      rcases List.mem_cons.1 h with rfl | hmem
      · exact ⟨false, first, List.mem_cons_self, rfl⟩
      · obtain ⟨compound, hcompound, rfl⟩ := List.mem_map.1 hmem
        exact ⟨true, compound, List.mem_cons_of_mem _ hcompound, rfl⟩

theorem exists_tokenRules {token compound : Bytes} (h : compound ∈ compounds token) :
    ∃ b, ({ isChild := b : QueryRule }).addAll compound ∈ tokenRules {} token := by
  rw [tokenRules]
  cases hcompounds : compounds token with
  | nil =>
      rw [hcompounds] at h
      cases h
  | cons first others =>
      rw [hcompounds] at h
      rcases List.mem_cons.1 h with rfl | hmem
      · exact ⟨false, List.mem_cons_self⟩
      · exact ⟨true, List.mem_cons_of_mem _ (List.mem_map_of_mem hmem)⟩

theorem tokenRules_ne_nil (token : Bytes) : tokenRules {} token ≠ [] := by
  cases hcompounds : compounds token with
  | nil => exact absurd hcompounds (List.splitOn_ne_nil _ _)
  | cons first others =>
      rw [tokenRules, hcompounds]
      exact List.cons_ne_nil _ _

theorem length_le_flatMap (tokens : List Bytes) :
    tokens.length ≤ (tokens.flatMap (tokenRules {})).length := by
  induction tokens with
  | nil => exact le_rfl
  | cons token tokens ih =>
      have hpos := List.length_pos_iff.2 (tokenRules_ne_nil token)
      rw [List.flatMap_cons, List.length_append, List.length_cons]
      omega

theorem id_mem_parts {compound name : Bytes} :
    .id name ∈ parts compound ↔ name ∈ ids compound ∧ name ≠ [] := by
  have hpiece : ∀ piece, Part.of piece = .id name ↔
      (if piece.head? = some 35 then some piece.tail else none) = some name := by
    intro piece
    cases piece with
    | nil => simp [Part.of]
    | cons c rest =>
        rw [Part.of]
        split
        next hdot => simp [hdot]
        next => split <;> simp_all
  rw [parts, ids, List.mem_filter, List.mem_map, List.mem_filterMap]
  simp only [hpiece, Part.name]
  exact and_congr_right fun _ => decide_eq_true_iff

/-- The rules of the tokens have all parts if no id is lost. -/
theorem recorded_iff (q : Bytes) :
    Recorded q ((q.splitOn 32).flatMap (tokenRules {})) ↔ KeepsIds q := by
  constructor
  · intro h token htoken compound hcompound name hname hne
    obtain ⟨rule, hrule, hhas⟩ :=
      h.parts token htoken compound hcompound (.id name) (id_mem_parts.2 ⟨hname, hne⟩)
    obtain ⟨token', htoken', hmem⟩ := List.mem_flatMap.1 hrule
    obtain ⟨b, compound', hcompound', rfl⟩ := mem_tokenRules hmem
    refine ⟨token', htoken', compound', hcompound', ?_⟩
    have hid : _ = name := hhas
    rw [addAll_id] at hid
    cases hlast : (ids compound').getLast? with
    | none =>
        rw [hlast] at hid
        exact absurd hid.symm hne
    | some last =>
        rw [hlast] at hid
        exact congrArg some hid
  · intro h
    refine ⟨length_le_flatMap _, fun token htoken compound hcompound part hpart => ?_⟩
    obtain ⟨b, hmem⟩ := exists_tokenRules hcompound
    rcases addAll_has b hpart with hhas | ⟨name, rfl⟩
    · exact ⟨_, List.mem_flatMap.2 ⟨token, htoken, hmem⟩, hhas⟩
    · obtain ⟨hname, hne⟩ := id_mem_parts.1 hpart
      obtain ⟨token', htoken', compound', hcompound', hlast⟩ :=
        h token htoken compound hcompound name hname hne
      obtain ⟨b', hmem'⟩ := exists_tokenRules hcompound'
      refine ⟨_, List.mem_flatMap.2 ⟨token', htoken', hmem'⟩, ?_⟩
      show _ = name
      rw [addAll_id, hlast]
      rfl

/-- The constructor finishes with all parts recorded exactly on the texts of letters, digits
and `-_.#>` between spaces, if each id in it is the last one of a compound. -/
theorem reads_iff (q : Bytes) :
    Reads q ↔ (∀ c ∈ q, c = 32 ∨ taken c = true) ∧ KeepsIds q := by
  constructor
  · rintro ⟨turns, rules, hquery, hrecorded⟩
    obtain ⟨htaken, rfl⟩ := query_eq_some.1 ⟨turns, hquery⟩
    exact ⟨htaken, (recorded_iff q).1 hrecorded⟩
  · rintro ⟨htaken, hids⟩
    obtain ⟨turns, hquery⟩ := query_eq_some.2 ⟨htaken, rfl⟩
    exact ⟨turns, _, hquery, (recorded_iff q).2 hids⟩

/-- The selector `*` is never read. -/
theorem star_not_read : ¬ ∀ q, Reads q := by
  intro h
  obtain ⟨turns, rules, hquery, -⟩ := h [42]
  have htaken := (query_eq_some.1 ⟨turns, hquery⟩).1 42 List.mem_cons_self
  exact absurd htaken (by decide)

end HtmlDoc
