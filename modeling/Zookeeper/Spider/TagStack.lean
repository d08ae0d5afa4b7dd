import Zookeeper.Spider.HtmlParser

/-!
# The stack of open tags

What `Parse` does to its stack is read off the tokens, without the tags on it: `moves`.  A
script is pushed and popped within its own text, so that no other tag is read with a script at
the top.

`parse_orderly` says that `Parse` returns a document or throws a `std::logic_error` exactly if
the moves never need an element that is not there, and that it reads no token that is not there
in any case.
-/

namespace HtmlDoc

/-! ## Moves -/

/-- Where the text of a script ends whose `>` is at `i`. -/
def rawEnd (tokens : List Bytes) (name : Bytes) (i : Nat) : Nat :=
  match textUntil name [] (tokens.drop (i + 1)) (i + 1) with
  | none => i
  | some (_, j) => j

/-- The tokens after a turn that ends at `i`. -/
def trimAfter (tokens : List Bytes) (i : Nat) : List Bytes :=
  if tokens[i]? = some tokenClose then
    match HtmlParser.textAfter tokens i with
    | none => tokens
    | some text => tokens.set (i + 1) text
  else tokens

/-- Text with letters behind a `>` needs a tag at the top. -/
def textMoves (tokens : List Bytes) (i : Nat) : List StackMove :=
  if tokens[i]? = some tokenClose then
    match HtmlParser.textAfter tokens i with
    | none => []
    | some text => if text.any isalpha then [.top] else []
  else []

/-- A tag that is to be closed is pushed. -/
def tagMoves (tag : Tag) : List StackMove := if tag.hasCloseTag then [.push] else []

/-- What is done to the stack from the token `i` on. -/
def moves : Nat → List Bytes → Nat → List StackMove
  | 0, _, _ => []
  | n + 1, tokens, i =>
      match tokens[i]? with
      | none => []
      | some token =>
          if token.all (fun c => !isprint c) then moves n tokens (i + 1)
          else if token = tokenOpen then
            match tokens[i + 1]? with
            | none => []
            | some token =>
                if token = tokenBang then
                  match skipAnnotation tokens i with
                  | some j => moves n tokens (j + 1)
                  | none => moves n tokens (i + 1)
                else if token = tokenSlash then .pop :: moves n tokens (i + 1)
                else
                  match parseTagBegin tokens i with
                  | .error _ => []
                  | .ok (tag, j) =>
                      if tag.hasCloseTag && isRaw tag.name then
                        let close := if tokens[j]? = some tokenClose then j else j + 1
                        .push :: .pop :: moves n tokens (rawEnd tokens tag.name close + 1)
                      else
                        tagMoves tag ++
                          (textMoves tokens j ++ moves n (trimAfter tokens j) (j + 1))
          else textMoves tokens i ++ moves n (trimAfter tokens i) (i + 1)

/-- What is done to the stack over a whole page. -/
def pageMoves (content : Bytes) : List StackMove :=
  moves (TokenParser.parse content).length (TokenParser.parse content) 0

/-- A document, or a `std::logic_error`. -/
def Orderly {α : Type} : Except ParseFault α → Bool
  | .ok _ => true
  | .error (.logicError _) => true
  | .error .outOfRange => true
  | .error .underflow => false
  | .error .beyond => false
  | .error .unfinished => false

/-- A run agrees with its moves: it finds the stack empty where they do, and fails at nothing
else but with a `std::logic_error`. -/
def Agrees {α : Type} (r : Except ParseFault α) (height : Option Nat) : Prop :=
  (Orderly r ∧ height.isSome) ∨ (r = .error .underflow ∧ height = none)

theorem Agrees.map {α β : Type} {r : Except ParseFault α} {height : Option Nat}
    (h : Agrees r height) (f : α → β) : Agrees (r >>= fun a => .ok (f a)) height := by
  rcases h with ⟨horderly, hheight⟩ | ⟨rfl, hheight⟩
  · cases r with
    | ok a => exact .inl ⟨rfl, hheight⟩
    | error fault =>
        refine .inl ⟨?_, hheight⟩
        cases fault with
        | logicError what => rfl
        | outOfRange => rfl
        | underflow => cases horderly
        | beyond => cases horderly
        | unfinished => cases horderly
  · exact .inr ⟨rfl, hheight⟩

theorem Agrees.orderly_iff {α : Type} {r : Except ParseFault α} {height : Option Nat}
    (h : Agrees r height) : (Orderly r ↔ height.isSome) ∧ r ≠ .error .beyond := by
  rcases h with ⟨horderly, hheight⟩ | ⟨rfl, rfl⟩
  · refine ⟨iff_of_true horderly hheight, ?_⟩
    rintro rfl
    cases horderly
  · exact ⟨iff_of_false Bool.false_ne_true Bool.false_ne_true, fun h => by cases h⟩

/-! ## What is read -/

theorem bind_ok {α β : Type} {x : Except ParseFault α} {f : α → Except ParseFault β} {b : β}
    (h : x >>= f = .ok b) : ∃ a, x = .ok a ∧ f a = .ok b := by
  cases x with
  | error fault => cases h
  | ok a => exact ⟨a, rfl, h⟩

theorem bind_error {α β : Type} {x : Except ParseFault α} {f : α → Except ParseFault β}
    {fault : ParseFault} (h : x >>= f = .error fault) :
    x = .error fault ∨ ∃ a, x = .ok a ∧ f a = .error fault := by
  cases x with
  | error fault' =>
      cases h
      exact .inl rfl
  | ok a => exact .inr ⟨a, rfl, h⟩

theorem annotationEnd_le {last : Bytes} {rest : List Bytes} {j e : Nat}
    (h : annotationEnd last rest j = some e) : j ≤ e := by
  induction rest generalizing last j with
  | nil => cases h
  | cons token rest ih =>
      rw [annotationEnd] at h
      split at h
      next => exact Nat.le_of_eq (Option.some.inj h)
      next => exact Nat.le_of_succ_le (ih h)

theorem skipAnnotation_lt {tokens : List Bytes} {i j : Nat}
    (h : skipAnnotation tokens i = some j) : i < j := by
  rw [ skipAnnotation] at h
  split at h
  next =>
    split at h
    next =>
      have hle := annotationEnd_le h
      omega
    next => cases h
  next => cases h

theorem textUntil_le {name text text' : Bytes} {rest : List Bytes} {j e : Nat}
    (h : textUntil name text rest j = some (text', e)) : j ≤ e := by
  induction rest generalizing text j with
  | nil => cases h
  | cons token rest ih =>
      rw [textUntil] at h
      split at h
      next =>
        cases h
        exact Nat.le_add_right j 3
      next => exact Nat.le_of_succ_le (ih h)

theorem le_rawEnd (tokens : List Bytes) (name : Bytes) (i : Nat) : i ≤ rawEnd tokens name i := by
  rw [rawEnd]
  split
  next => exact Nat.le_refl i
  next h => exact Nat.le_of_succ_le (textUntil_le h)

theorem length_trimAfter (tokens : List Bytes) (i : Nat) :
    (trimAfter tokens i).length = tokens.length := by
  rw [trimAfter]
  split
  next =>
    split
    next => rfl
    next => exact List.length_set
  next => rfl

/-- What a turn of the loop over attributes does. -/
theorem readAttributes_cons (token : Bytes) (rest : List Bytes) (i : Nat) (step : AttrStep)
    (tag : Tag) :
    (token = tokenClose ∧ readAttributes (token :: rest) i step tag = .ok (tag, i + 1)) ∨
      (∃ step' tag', readAttributes (token :: rest) i step tag =
        readAttributes rest (i + 1) step' tag') ∨
      ∃ what, readAttributes (token :: rest) i step tag = .error (.logicError what) := by
  by_cases hclose : token = tokenClose
  · refine .inl ⟨hclose, ?_⟩
    unfold readAttributes
    exact if_pos hclose
  · refine .inr ?_
    cases step with
    | name => exact .inl ⟨.equal token, tag, by rw [readAttributes, if_neg hclose]⟩
    | equal name =>
        by_cases hequal : token = tokenEqual
        · exact .inl ⟨.value name, tag, by rw [readAttributes, if_neg hclose, if_pos hequal]⟩
        · exact .inr ⟨_, by rw [readAttributes, if_neg hclose, if_neg hequal]⟩
    | value name => exact .inl ⟨.name, _, by rw [readAttributes, if_neg hclose]⟩

/-- The attributes of a tag are read to a `>`. -/
theorem readAttributes_ok {rest : List Bytes} {i j : Nat} {step : AttrStep} {tag tag' : Tag}
    (h : readAttributes rest i step tag = .ok (tag', j)) :
    i < j ∧ j ≤ i + rest.length ∧ rest[j - 1 - i]? = some tokenClose := by
  induction rest generalizing i step tag with
  | nil => cases h
  | cons token rest ih =>
      rcases readAttributes_cons token rest i step tag with
        ⟨rfl, hread⟩ | ⟨step', tag'', hread⟩ | ⟨what, hread⟩
      · rw [hread] at h
        cases h
        simp
      · rw [hread] at h
        obtain ⟨hlt, hle, hclose⟩ := ih h
        have hindex : j - 1 - i = j - 1 - (i + 1) + 1 := by omega
        refine ⟨Nat.lt_of_succ_lt hlt, ?_, ?_⟩
        · rw [List.length_cons]
          omega
        · rw [hindex, List.getElem?_cons_succ]
          exact hclose
      · rw [hread] at h
        cases h

theorem readAttributes_error {rest : List Bytes} {i : Nat} {step : AttrStep} {tag : Tag}
    {fault : ParseFault} (h : readAttributes rest i step tag = .error fault) :
    ∃ what, fault = .logicError what := by
  induction rest generalizing i step tag with
  | nil =>
      cases h
      exact ⟨_, rfl⟩
  | cons token rest ih =>
      rcases readAttributes_cons token rest i step tag with
        ⟨_, hread⟩ | ⟨step', tag', hread⟩ | ⟨what, hread⟩
      · rw [hread] at h
        cases h
      · rw [hread] at h
        exact ih h
      · rw [hread] at h
        cases h
        exact ⟨what, rfl⟩

theorem at_ok {tokens : List Bytes} {i : Nat} {token : Bytes} :
    at_ tokens i = .ok token ↔ tokens[i]? = some token := by
  rw [at_]
  cases tokens[i]? <;> simp

theorem index_error {tokens : List Bytes} {i : Nat} {fault : ParseFault}
    (h : index tokens i = .error fault) : tokens.length ≤ i := by
  rw [index] at h
  split at h
  next hnone => exact List.getElem?_eq_none_iff.mp hnone
  next => cases h

theorem at_error {tokens : List Bytes} {i : Nat} {fault : ParseFault}
    (h : at_ tokens i = .error fault) : fault = .outOfRange := by
  rw [at_] at h
  split at h
  next =>
    cases h
    rfl
  next => cases h

/-- A start tag is read up to its `>`, or to the token in front of that. -/
theorem parseTagBegin_ok {tokens : List Bytes} {i j : Nat} {tag : Tag}
    (h : parseTagBegin tokens i = .ok (tag, j)) :
    i < j ∧ (tokens[j]? = some tokenClose ∨ tokens[j + 1]? = some tokenClose) := by
  obtain ⟨name, _, h⟩ := bind_ok h
  obtain ⟨token, htoken, h⟩ := bind_ok h
  obtain ⟨⟨tag', j'⟩, hread, h⟩ := bind_ok h
  obtain ⟨last, _, h⟩ := bind_ok h
  cases h
  split at hread
  next hclose =>
    cases hread
    rw [hclose, at_ok] at htoken
    exact ⟨Nat.lt_succ_self i, .inr htoken⟩
  next =>
    obtain ⟨hlt, _, hend⟩ := readAttributes_ok hread
    have hindex : i + 2 + (j' - 1 - (i + 2)) = j' - 1 := by omega
    rw [List.getElem?_drop, hindex] at hend
    exact ⟨by omega, .inl hend⟩

/-- No token is read that is not there, but for what `at` refuses. -/
theorem parseTagBegin_error {tokens : List Bytes} {i : Nat} {fault : ParseFault}
    (hi : i + 1 < tokens.length) (h : parseTagBegin tokens i = .error fault) :
    fault = .outOfRange ∨ ∃ what, fault = .logicError what := by
  rcases bind_error h with h | ⟨name, _, h⟩
  · have hle := index_error h
    omega
  rcases bind_error h with h | ⟨token, _, h⟩
  · exact .inl (at_error h)
  rcases bind_error h with h | ⟨p, _, h⟩
  · split at h
    next => cases h
    next => exact .inr (readAttributes_error h)
  rcases bind_error h with h | ⟨last, _, h⟩
  · exact .inl (at_error h)
  · cases h

/-! ## The parser and its moves -/

namespace HtmlParser

/-- No tag but the one that is read is a script. -/
def NoRaw (stack : List (TagNode Unit)) : Prop := ∀ node ∈ stack, isRaw node.tag.name = false

/-- A step that goes on, with what the moves depend on. -/
def Leads (r : Except ParseFault HtmlParser) (tokens : List Bytes) (i height : Nat) : Prop :=
  ∃ s, r = .ok s ∧ s.tokens = tokens ∧ s.i = i ∧ s.stack.length = height ∧ NoRaw s.stack

variable {s : HtmlParser}

theorem pop_leads {node : TagNode Unit} {stack : List (TagNode Unit)}
    (hstack : s.stack = node :: stack) (h : NoRaw stack) :
    Leads s.pop s.tokens s.i stack.length := by
  obtain ⟨tokens, i, stack', root⟩ := s
  cases hstack
  cases stack with
  | nil => exact ⟨_, rfl, rfl, rfl, rfl, h⟩
  | cons parent stack =>
      refine ⟨_, rfl, rfl, rfl, rfl, fun other hother => ?_⟩
      rcases List.mem_cons.mp hother with rfl | hother
      · exact h parent List.mem_cons_self
      · exact h other (List.mem_cons_of_mem _ hother)

/-- What comes of text behind a `>`. -/
theorem readText_leads (h : NoRaw s.stack) (hclose : s.tokens[s.i]? = some tokenClose) :
    (∃ height, StackMove.replay (textMoves s.tokens s.i) s.stack.length = some height ∧
        Leads s.readText (trimAfter s.tokens s.i) s.i height) ∨
      (StackMove.replay (textMoves s.tokens s.i) s.stack.length = none ∧
        s.readText = .error .underflow) := by
  obtain ⟨tokens, i, stack, root⟩ := s
  rw [readText, textMoves, trimAfter, if_pos hclose, if_pos hclose]
  dsimp only at h ⊢
  cases textAfter tokens i with
  | none => exact .inl ⟨_, rfl, _, rfl, rfl, rfl, rfl, h⟩
  | some text =>
      dsimp only
      cases hany : text.any isalpha with
      | false => exact .inl ⟨_, rfl, _, rfl, rfl, rfl, rfl, h⟩
      | true =>
          cases stack with
          | nil => exact .inr ⟨rfl, rfl⟩
          | cons top stack =>
              refine .inl ⟨_, rfl, _, rfl, rfl, rfl, rfl, fun other hother => ?_⟩
              rcases List.mem_cons.mp hother with rfl | hother
              · exact h top List.mem_cons_self
              · exact h other (List.mem_cons_of_mem _ hother)

theorem rawTop_eq_false (h : NoRaw s.stack) : s.rawTop = false := by
  rw [rawTop]
  cases hstack : s.stack with
  | nil => rfl
  | cons top stack => exact h top (hstack ▸ List.mem_cons_self)

/-- The end of a turn. -/
theorem atClose_leads (h : NoRaw s.stack) {token : Bytes} (htoken : s.tokens[s.i]? = some token) :
    (∃ height, StackMove.replay (textMoves s.tokens s.i) s.stack.length = some height ∧
        Leads s.atClose (trimAfter s.tokens s.i) (s.i + 1) height) ∨
      (StackMove.replay (textMoves s.tokens s.i) s.stack.length = none ∧
        s.atClose = .error .underflow) := by
  have hread := at_ok.mpr htoken
  by_cases hclose : token = tokenClose
  · have heq : s.atClose = s.readText >>= fun s => .ok s.next := by
      rw [atClose, hread]
      show (if token = tokenClose then _ else _) = _
      rw [if_pos hclose, rawTop_eq_false h]
      rfl
    rw [hclose] at htoken
    rw [heq]
    rcases readText_leads h htoken with ⟨height, hreplay, s', hs', hlead⟩ | ⟨hreplay, hs'⟩
    · obtain ⟨htokens, hi, hheight, hraw⟩ := hlead
      rw [hs']
      exact .inl ⟨height, hreplay, s'.next, rfl, htokens, congrArg (· + 1) hi, hheight, hraw⟩
    · rw [hs']
      exact .inr ⟨hreplay, rfl⟩
  · have heq : s.atClose = .ok s.next := by
      rw [atClose, hread]
      show (if token = tokenClose then _ else _) = _
      rw [if_neg hclose]
      rfl
    have hne : s.tokens[s.i]? ≠ some tokenClose := by
      rw [htoken]
      exact fun hsome => hclose (Option.some.inj hsome)
    rw [heq, textMoves, trimAfter, if_neg hne, if_neg hne]
    exact .inl ⟨_, rfl, s.next, rfl, rfl, rfl, rfl, h⟩

/-- The text of a script is read, and the script is popped. -/
theorem atClose_raw {node : TagNode Unit} {stack : List (TagNode Unit)}
    (hstack : s.stack = node :: stack) (h : NoRaw stack) (hraw : isRaw node.tag.name)
    (htoken : s.tokens[s.i]? = some tokenClose) :
    Leads s.atClose s.tokens (rawEnd s.tokens node.tag.name s.i + 1) stack.length := by
  obtain ⟨tokens, i, stack', root⟩ := s
  cases hstack
  have heq : (HtmlParser.mk tokens i (node :: stack) root).atClose =
      (HtmlParser.mk tokens i (node :: stack) root).readTextNodeUntil.pop >>=
        fun s => .ok s.next := by
    have htop : (HtmlParser.mk tokens i (node :: stack) root).rawTop = true := hraw
    rw [atClose, at_ok.mpr htoken, htop]
    rfl
  have hend : ∃ node' i', (HtmlParser.mk tokens i (node :: stack) root).readTextNodeUntil =
      ⟨tokens, i', node' :: stack, root⟩ ∧ i' = rawEnd tokens node.tag.name i := by
    rw [readTextNodeUntil, rawEnd]
    dsimp only
    cases textUntil node.tag.name [] (tokens.drop (i + 1)) (i + 1) with
    | none => exact ⟨node, i, rfl, rfl⟩
    | some p =>
        obtain ⟨text, j⟩ := p
        exact ⟨_, j, rfl, rfl⟩
  obtain ⟨node', i', hread, rfl⟩ := hend
  obtain ⟨s', hs', htokens, hi, hheight, hno⟩ :=
    pop_leads (s := ⟨tokens, rawEnd tokens node.tag.name i, node' :: stack, root⟩) rfl h
  rw [heq, hread, hs']
  exact ⟨s'.next, rfl, htokens, congrArg (· + 1) hi, hheight, hno⟩

/-- A turn, with its token. -/
theorem turn_eq {token : Bytes} (htoken : s.tokens[s.i]? = some token)
    (hprint : ¬ token.all (fun c => !isprint c)) : s.turn =
      if token = tokenOpen then
        match s.tokens[s.i + 1]? with
        | none => .error (.logicError endOfDocument)
        | some token =>
            if token = tokenBang then
              match skipAnnotation s.tokens s.i with
              | some j => .ok { s with i := j + 1 }
              | none => s.atClose
            else if token = tokenSlash then s.pop >>= atClose
            else parseTagBegin s.tokens s.i >>= fun p => (s.startTag p.1 p.2).atClose
      else s.atClose := by
  rw [turn, at_ok.mpr htoken]
  show (if token.all _ then _ else _) = _
  rw [if_neg hprint]
  rfl

/-- A start tag that is no script goes on the stack as its moves say. -/
theorem startTag_spec (h : NoRaw s.stack) {tag : Tag} (hnot : ¬ (tag.hasCloseTag && isRaw tag.name))
    (j : Nat) : (s.startTag tag j).tokens = s.tokens ∧ (s.startTag tag j).i = j ∧
      NoRaw (s.startTag tag j).stack ∧
      StackMove.replay (tagMoves tag) s.stack.length = some (s.startTag tag j).stack.length := by
  obtain ⟨tokens, i, stack, root⟩ := s
  rw [startTag, tagMoves]
  cases hclose : tag.hasCloseTag with
  | true =>
      refine ⟨rfl, rfl, fun node hnode => ?_, rfl⟩
      rcases List.mem_cons.mp hnode with rfl | hnode
      · rw [hclose, Bool.true_and, Bool.not_eq_true] at hnot
        exact hnot
      · exact h node hnode
  | false =>
      cases stack with
      | nil => exact ⟨rfl, rfl, h, rfl⟩
      | cons top stack =>
          refine ⟨rfl, rfl, fun node hnode => ?_, rfl⟩
          rcases List.mem_cons.mp hnode with rfl | hnode
          · exact h top List.mem_cons_self
          · exact h node (List.mem_cons_of_mem _ hnode)

theorem textMoves_of_ne {tokens : List Bytes} {i : Nat} (h : tokens[i]? ≠ some tokenClose) :
    textMoves tokens i = [] ∧ trimAfter tokens i = tokens := by
  rw [textMoves, trimAfter, if_neg h, if_neg h]
  exact ⟨rfl, rfl⟩

/-- The loop does what its moves say. -/
def LoopAgrees (n : Nat) : Prop :=
  ∀ (m : Nat) (s : HtmlParser), NoRaw s.stack → s.tokens.length ≤ n + s.i →
    s.tokens.length ≤ m + s.i →
      Agrees (loop n s) (StackMove.replay (moves m s.tokens s.i) s.stack.length)

section

variable {n m : Nat} (ih : LoopAgrees n)
include ih

/-- It goes on from where a step has led to. -/
theorem loop_of_leads {r : Except ParseFault HtmlParser} {tokens : List Bytes} {i height : Nat}
    (h : Leads r tokens i height) (hn : tokens.length ≤ n + i) (hm : tokens.length ≤ m + i) :
    Agrees (r >>= loop n) (StackMove.replay (moves m tokens i) height) := by
  obtain ⟨s, rfl, rfl, rfl, rfl, hraw⟩ := h
  exact ih m s hraw hn hm

theorem loop_atClose (h : NoRaw s.stack) (hi : s.i < s.tokens.length)
    (hn : s.tokens.length ≤ n + (s.i + 1)) (hm : s.tokens.length ≤ m + (s.i + 1)) :
    Agrees (s.atClose >>= loop n) (StackMove.replay
      (textMoves s.tokens s.i ++ moves m (trimAfter s.tokens s.i) (s.i + 1)) s.stack.length) := by
  rw [StackMove.replay_append]
  rcases atClose_leads h (List.getElem?_eq_getElem hi) with ⟨height, hreplay, hlead⟩ | ⟨hreplay, hs⟩
  · rw [hreplay]
    refine loop_of_leads ih hlead ?_ ?_
    · rwa [length_trimAfter]
    · rwa [length_trimAfter]
  · rw [hreplay, hs]
    exact .inr ⟨rfl, rfl⟩

/-- The same, where nothing is popped or looked at. -/
theorem loop_atClose_of_ne (h : NoRaw s.stack) (hi : s.i < s.tokens.length)
    (hne : s.tokens[s.i]? ≠ some tokenClose) (hn : s.tokens.length ≤ n + (s.i + 1))
    (hm : s.tokens.length ≤ m + (s.i + 1)) :
    Agrees (s.atClose >>= loop n)
      (StackMove.replay (moves m s.tokens (s.i + 1)) s.stack.length) := by
  obtain ⟨hmoves, htrim⟩ := textMoves_of_ne hne
  have hloop := loop_atClose (m := m) ih h hi hn hm
  rwa [hmoves, htrim, List.nil_append] at hloop

theorem loop_pop (h : NoRaw s.stack) (hi : s.i < s.tokens.length)
    (hne : s.tokens[s.i]? ≠ some tokenClose) (hn : s.tokens.length ≤ n + (s.i + 1))
    (hm : s.tokens.length ≤ m + (s.i + 1)) :
    Agrees (s.pop >>= atClose >>= loop n)
      (StackMove.replay (.pop :: moves m s.tokens (s.i + 1)) s.stack.length) := by
  cases hstack : s.stack with
  | nil =>
      rw [pop, hstack]
      exact .inr ⟨rfl, rfl⟩
  | cons node stack =>
      rw [hstack] at h
      obtain ⟨s', hs', htokens, hindex, hheight, hraw⟩ :=
        pop_leads hstack fun other hother => h other (List.mem_cons_of_mem node hother)
      rw [← htokens, ← hindex] at hi hne hn hm
      rw [hs', List.length_cons, StackMove.replay, ← hheight, ← htokens, ← hindex]
      exact loop_atClose_of_ne ih hraw hi hne hn hm

theorem loop_startTag (h : NoRaw s.stack) {tag : Tag} {j : Nat}
    (hnot : ¬ (tag.hasCloseTag && isRaw tag.name)) (hj : j < s.tokens.length)
    (hn : s.tokens.length ≤ n + (j + 1)) (hm : s.tokens.length ≤ m + (j + 1)) :
    Agrees ((s.startTag tag j).atClose >>= loop n) (StackMove.replay
      (tagMoves tag ++ (textMoves s.tokens j ++ moves m (trimAfter s.tokens j) (j + 1)))
        s.stack.length) := by
  obtain ⟨htokens, hindex, hraw, hreplay⟩ := startTag_spec h hnot j
  rw [StackMove.replay_append, hreplay]
  have hloop := loop_atClose (m := m) (s := s.startTag tag j) ih hraw
  rw [htokens, hindex] at hloop
  exact hloop hj hn hm

end

/-- A script is read to its end, in this turn or the next one. -/
theorem loop_raw {n m : Nat} (ih : ∀ k ≤ n, LoopAgrees k) (h : NoRaw s.stack) {tag : Tag}
    {j e : Nat} (hclose : tag.hasCloseTag) (hraw : isRaw tag.name)
    (hend : s.tokens[j]? = some tokenClose ∧ e = j ∨
      s.tokens[j]? ≠ some tokenClose ∧ s.tokens[j + 1]? = some tokenClose ∧ e = j + 1)
    (hn : s.tokens.length ≤ n + (j + 1)) (hm : s.tokens.length ≤ m + (j + 1)) :
    Agrees ((s.startTag tag j).atClose >>= loop n)
      (StackMove.replay (moves m s.tokens (rawEnd s.tokens tag.name e + 1)) s.stack.length) := by
  obtain ⟨tokens, i, stack, root⟩ := s
  have hstart : (HtmlParser.mk tokens i stack root).startTag tag j =
      ⟨tokens, j, .new tag :: stack, root⟩ := by rw [startTag, if_pos hclose]
  have hle := le_rawEnd tokens tag.name e
  dsimp only at hend hn hm ⊢
  rw [hstart]
  rcases hend with ⟨htoken, rfl⟩ | ⟨hne, htoken, rfl⟩
  · have hlead := atClose_raw (s := ⟨tokens, e, .new tag :: stack, root⟩) rfl h hraw htoken
    exact loop_of_leads (ih n (Nat.le_refl n)) hlead (by omega) (by omega)
  · obtain ⟨hj, _⟩ := List.getElem?_eq_some_iff.mp htoken
    have hskip : (HtmlParser.mk tokens j (.new tag :: stack) root).atClose =
        .ok ⟨tokens, j + 1, .new tag :: stack, root⟩ := by
      have hread := List.getElem?_eq_getElem (Nat.lt_of_succ_lt hj)
      rw [hread] at hne
      rw [atClose, at_ok.mpr hread]
      show (if tokens[j] = tokenClose then _ else _) = _
      rw [if_neg fun heq => hne (congrArg some heq)]
      rfl
    cases n with
    | zero => omega
    | succ n =>
        have hturn : (HtmlParser.mk tokens (j + 1) (.new tag :: stack) root).turn =
            (HtmlParser.mk tokens (j + 1) (.new tag :: stack) root).atClose := by
          have hprint : ¬ tokenClose.all (fun c => !isprint c) = true := by decide
          rw [turn_eq htoken hprint, if_neg (by decide)]
        have hloop : loop (n + 1) ⟨tokens, j + 1, .new tag :: stack, root⟩ =
            (HtmlParser.mk tokens (j + 1) (.new tag :: stack) root).atClose >>= loop n := by
          rw [loop, if_pos hj, hturn]
        have hlead := atClose_raw (s := ⟨tokens, j + 1, .new tag :: stack, root⟩) rfl h hraw htoken
        rw [hskip]
        show Agrees (loop (n + 1) _) _
        rw [hloop]
        exact loop_of_leads (ih n (Nat.le_succ n)) hlead (by omega) (by omega)

/-- A start tag that has been read. -/
theorem loop_tag {n m : Nat} (ih : ∀ k ≤ n, LoopAgrees k) (h : NoRaw s.stack) {tag : Tag} {j : Nat}
    (hparse : parseTagBegin s.tokens s.i = .ok (tag, j))
    (hn : s.tokens.length ≤ n + (s.i + 1)) (hm : s.tokens.length ≤ m + (s.i + 1)) :
    Agrees ((s.startTag tag j).atClose >>= loop n) (StackMove.replay
      (if tag.hasCloseTag && isRaw tag.name then
        .push :: .pop :: moves m s.tokens
          (rawEnd s.tokens tag.name (if s.tokens[j]? = some tokenClose then j else j + 1) + 1)
      else tagMoves tag ++ (textMoves s.tokens j ++ moves m (trimAfter s.tokens j) (j + 1)))
        s.stack.length) := by
  obtain ⟨hlt, hend⟩ := parseTagBegin_ok hparse
  by_cases hraw : (tag.hasCloseTag && isRaw tag.name) = true
  · rw [if_pos hraw]
    rw [Bool.and_eq_true] at hraw
    by_cases hclose : s.tokens[j]? = some tokenClose
    · rw [if_pos hclose]
      exact loop_raw ih h hraw.1 hraw.2 (.inl ⟨hclose, rfl⟩) (by omega) (by omega)
    · rw [if_neg hclose]
      exact loop_raw ih h hraw.1 hraw.2 (.inr ⟨hclose, hend.resolve_left hclose, rfl⟩)
        (by omega) (by omega)
  · have hj : j < s.tokens.length := by
      rcases hend with hend | hend
      · exact (List.getElem?_eq_some_iff.mp hend).1
      · exact Nat.lt_of_succ_lt (List.getElem?_eq_some_iff.mp hend).1
    rw [if_neg hraw]
    exact loop_startTag (ih n (Nat.le_refl n)) h hraw hj (by omega) (by omega)

/-- The loop does what its moves say: one turn, and the rest by induction on the turns. -/
theorem loop_agrees (n : Nat) : LoopAgrees n := by
  induction n using Nat.strong_induction_on with
  | _ n ih =>
  intro m s h hn hm
  by_cases hi : s.i < s.tokens.length
  · obtain ⟨n, rfl⟩ := Nat.exists_eq_succ_of_ne_zero (n := n) (by omega)
    obtain ⟨m, rfl⟩ := Nat.exists_eq_succ_of_ne_zero (n := m) (by omega)
    have ih : ∀ k ≤ n, LoopAgrees k := fun k hk => ih k (Nat.lt_succ_of_le hk)
    have ihn := ih n (Nat.le_refl n)
    have htoken := List.getElem?_eq_getElem hi
    have hloop : loop (n + 1) s = s.turn >>= loop n := by rw [loop, if_pos hi]
    rw [hloop, moves, htoken]
    dsimp only
    generalize s.tokens[s.i] = token at htoken
    by_cases hprint : token.all (fun c => !isprint c) = true
    · have hturn : s.turn = .ok s.next := by
        rw [turn, at_ok.mpr htoken]
        show (if token.all _ then _ else _) = _
        rw [if_pos hprint]
        rfl
      rw [if_pos hprint, hturn]
      exact ihn m s.next h (by simp only [next]; omega) (by simp only [next]; omega)
    · rw [if_neg hprint, turn_eq htoken hprint]
      by_cases hopen : token = tokenOpen
      · rw [if_pos hopen, if_pos hopen]
        have hne : s.tokens[s.i]? ≠ some tokenClose := by
          rw [htoken, hopen]
          decide
        cases hnext : s.tokens[s.i + 1]? with
        | none => exact .inl ⟨rfl, rfl⟩
        | some next =>
        obtain ⟨hi', _⟩ := List.getElem?_eq_some_iff.mp hnext
        dsimp only
        by_cases hbang : next = tokenBang
        · rw [if_pos hbang, if_pos hbang]
          cases hskip : skipAnnotation s.tokens s.i with
          | none => exact loop_atClose_of_ne ihn h hi hne (by omega) (by omega)
          | some j =>
              have hlt := skipAnnotation_lt hskip
              exact ihn m { s with i := j + 1 } h (by dsimp only; omega) (by dsimp only; omega)
        rw [if_neg hbang, if_neg hbang]
        by_cases hslash : next = tokenSlash
        · rw [if_pos hslash, if_pos hslash]
          exact loop_pop ihn h hi hne (by omega) (by omega)
        rw [if_neg hslash, if_neg hslash]
        cases hparse : parseTagBegin s.tokens s.i with
        | error fault =>
            rcases parseTagBegin_error hi' hparse with rfl | ⟨what, rfl⟩
            · exact .inl ⟨rfl, rfl⟩
            · exact .inl ⟨rfl, rfl⟩
        | ok p => exact loop_tag ih h hparse (by omega) (by omega)
      · rw [if_neg hopen, if_neg hopen]
        exact loop_atClose ihn h hi (by omega) (by omega)
  · have hloop : loop n s = .ok s := by cases n <;> rw [loop, if_neg hi]
    have hmoves : moves m s.tokens s.i = [] := by
      have hnone : s.tokens[s.i]? = none := List.getElem?_eq_none_iff.mpr (Nat.le_of_not_lt hi)
      cases m with
      | zero => rfl
      | succ m => rw [moves, hnone]
    rw [hloop, hmoves]
    exact .inl ⟨rfl, rfl⟩

end HtmlParser

/-! ## Pages -/

/-- The text in front of the first tag keeps `SkipDoctype` from finding any. -/
theorem skipDoctype_eq (content : Bytes) : skipDoctype (TokenParser.parse content) 0 = .ok 0 := by
  have hled := parse_led content
  rw [TokenParser.parse]
  generalize run ([], .data []) content = p at hled
  rw [skipDoctype]
  split
  next => rfl
  next pos _ =>
    split
    next hlength =>
      cases hled with
      | start text => cases hlength
      | text h =>
          rw [List.length_singleton] at hlength
          omega
      | tag text rest s =>
          simp only [List.length_cons] at hlength
          rcases rest with _ | ⟨third, _ | ⟨fourth, _ | ⟨fifth, rest⟩⟩⟩
          · simp only [List.length_nil] at hlength
            omega
          · simp only [List.length_cons, List.length_nil] at hlength
            omega
          · simp only [List.length_cons, List.length_nil] at hlength
            omega
          · rfl
    next => rfl

/-- A page gives a document, or a `std::logic_error`, exactly if in front of every end tag and
every text behind a tag the end tags are no more than the tags that were pushed.  The tokens
are read within their bounds on every page. -/
theorem parse_orderly (content : Bytes) :
    (Orderly (HtmlParser.parse content) ↔ StackMove.Backed (pageMoves content) 1) ∧
      HtmlParser.parse content ≠ .error .beyond := by
  have hroot : HtmlParser.NoRaw [TagNode.new {}] := fun node hnode => by
    rw [List.mem_singleton.mp hnode]
    rfl
  have hagrees := HtmlParser.loop_agrees (TokenParser.parse content).length
    (TokenParser.parse content).length
    { tokens := TokenParser.parse content, i := 0, stack := [.new {}] } hroot (Nat.le_refl _)
    (Nat.le_refl _)
  rw [← StackMove.replay_iff]
  have hparse : HtmlParser.parse content =
      HtmlParser.loop (TokenParser.parse content).length
        { tokens := TokenParser.parse content, i := 0, stack := [.new {}] } >>=
          fun s => .ok s.document := by
    rw [HtmlParser.parse, skipDoctype_eq]
    rfl
  rw [hparse]
  exact (hagrees.map HtmlParser.document).orderly_iff

/-- Two end tags too many. -/
theorem parse_underflow : ¬ ∀ content : Bytes, Orderly (HtmlParser.parse content) := by
  intro h
  exact absurd (h [60, 47, 97, 62, 60, 47, 97, 62]) (by decide)

end HtmlDoc
