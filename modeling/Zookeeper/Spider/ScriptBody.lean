import Zookeeper.Spider.TokenParser

/-!
# The text of scripts

What is between `<script>` and `</script>` should be one token, whatever it is, as long as it
does not end the script itself.  Six states of `TokenParser` see to that.

`StateBeforeEndScript` assigns where it should compare, so that any character behind `<` is
taken for the `/` of an end tag.  `Opaque` describes the texts that are read as one token all
the same, and `script_body` says that these are exactly the ones that are.
-/

namespace HtmlDoc

/-- `<name>body</name>`. -/
def rawElement (name body : Bytes) : Bytes :=
  60 :: name ++ 62 :: body ++ 60 :: 47 :: name ++ [62]

/-- The text holds no `</` with the name behind it, but for blanks. -/
def NoEndTag (name body : Bytes) : Prop :=
  ∀ front blanks rest, (∀ b ∈ blanks, isBlank b) →
    body ≠ front ++ 60 :: 47 :: (blanks ++ name ++ rest)

/-- A text that is read as text.  A `<` takes the next character with it, whatever that is, and
the blanks behind.  Letters that follow are not the name in front of a `>`. -/
inductive Opaque (name : Bytes) : Bytes → Prop where
  | nil : Opaque name []
  | char {c : UInt8} {body : Bytes} (hc : c ≠ 60) (h : Opaque name body) : Opaque name (c :: body)
  | other {c d : UInt8} {blanks body : Bytes} (hblanks : ∀ b ∈ blanks, isBlank b)
      (hblank : isBlank d = false) (halpha : isalpha d = false) (h : Opaque name body) :
      Opaque name (60 :: c :: (blanks ++ d :: body))
  | word {c : UInt8} {blanks letters body : Bytes} (hblanks : ∀ b ∈ blanks, isBlank b)
      (hletters : ∀ d ∈ letters, isalpha d) (hne : letters ≠ [])
      (hend : ∀ d ∈ body.head?, isalpha d = false)
      (hname : ¬ (letters.map tolower = name ∧ (body.dropWhile isBlank).head? = some 62))
      (h : Opaque name body) : Opaque name (60 :: c :: (blanks ++ (letters ++ body)))

/-! ## Names -/

/-- The names are letters, and small ones. -/
theorem isRaw_letters {name : Bytes} (h : isRaw name) :
    (∀ c ∈ name, isalpha c) ∧ name.map tolower = name ∧ name ≠ [] := by
  simp only [isRaw, Bool.or_eq_true, beq_iff_eq] at h
  rcases h with rfl | rfl
  · simp [isalpha, tolower]
  · simp [isalpha, tolower]

/-! ## The last tag -/

theorem checkLastTag_start (tokens : List Bytes) (text temp : Bytes) {name : Bytes}
    (hname : isRaw name) :
    checkLastTag (tokens ++ [text, tokenOpen, name, tokenClose]) temp = decide (temp = name) := by
  have hopen : name ≠ tokenOpen := by
    rintro rfl
    cases hname
  rw [checkLastTag, List.reverse_append]
  simp only [List.reverse_cons, List.reverse_nil, List.nil_append, List.cons_append,
    checkLastTagFrom, hopen, if_false, if_true]

theorem beforeLastOpen_append (front : Bytes) {rest : Bytes} (hrest : 60 ∉ rest) :
    beforeLastOpen (front ++ 60 :: rest) = front := by
  have hkeep : ∀ c ∈ rest.reverse, decide (c ≠ 60) = true := by
    intro c hc
    rw [decide_eq_true_eq]
    rintro rfl
    exact hrest (List.mem_reverse.mp hc)
  rw [beforeLastOpen, List.reverse_append, List.reverse_cons, List.append_assoc,
    List.dropWhile_append_of_pos hkeep]
  simp

theorem length_beforeLastOpen (text : Bytes) (c : UInt8) :
    (beforeLastOpen (text ++ [c])).length ≤ text.length := by
  have hdrop := (List.dropWhile_suffix (fun c : UInt8 => decide (c ≠ 60))
    (l := (text ++ [c]).reverse)).length_le
  rw [List.length_reverse, List.length_append, List.length_singleton] at hdrop
  rw [beforeLastOpen, List.length_reverse, List.length_tail]
  omega

/-! ## The states of a script -/

section

variable {tokens : List Bytes}

theorem run_endScriptOpen_blanks (text : Bytes) {blanks : Bytes}
    (hblanks : ∀ b ∈ blanks, isBlank b) :
    run (tokens, .endScriptOpen text) blanks = (tokens, .endScriptOpen (text ++ blanks)) := by
  have hkeep : ∀ text, ∀ b ∈ blanks,
      poll tokens (.endScriptOpen text) b = (tokens, .endScriptOpen (text ++ [id b])) := by
    intro text b hb
    simp [poll, hblanks b hb, isalpha_of_isBlank (hblanks b hb)]
  rw [run_keep id hkeep, List.map_id]

/-- A `<` in a script, with the character and the blanks behind it. -/
theorem run_script_open (text : Bytes) (c : UInt8) {blanks : Bytes}
    (hblanks : ∀ b ∈ blanks, isBlank b) (rest : Bytes) :
    run (tokens, .script text) (60 :: c :: (blanks ++ rest)) =
      run (tokens, .endScriptOpen (text ++ 60 :: c :: blanks)) rest := by
  rw [run_cons, run_cons, run_append]
  simp only [poll, if_true]
  rw [run_endScriptOpen_blanks _ hblanks]
  simp only [List.append_assoc, List.cons_append, List.nil_append]

theorem run_endScript_letters (text temp : Bytes) {letters : Bytes}
    (hletters : ∀ c ∈ letters, isalpha c) :
    run (tokens, .endScript text temp) letters =
      (tokens, .endScript (text ++ letters) (temp ++ letters.map tolower)) := by
  have hkeep : ∀ read, ∀ c ∈ letters,
      poll tokens (.endScript (text ++ read) (temp ++ read.map tolower)) c =
        (tokens, .endScript (text ++ (read ++ [id c])) (temp ++ (read ++ [id c]).map tolower)) := by
    intro read c hc
    have hc := hletters c hc
    simp [poll, hc, isBlank_of_isalpha hc, isalpha_ne hc (d := 62) rfl,
      isalpha_ne hc (d := 60) rfl]
  have hrun := run_keep
    (q := fun read => .endScript (text ++ read) (temp ++ read.map tolower)) id hkeep []
  simpa using hrun

theorem run_endScriptOpen_letters (text : Bytes) {letters : Bytes} (hne : letters ≠ [])
    (hletters : ∀ c ∈ letters, isalpha c) :
    run (tokens, .endScriptOpen text) letters =
      (tokens, .endScript (text ++ letters) (letters.map tolower)) := by
  cases letters with
  | nil => exact absurd rfl hne
  | cons c letters =>
      have hpoll : poll tokens (.endScriptOpen text) c =
          (tokens, .endScript (text ++ [c]) [tolower c]) := by
        simp [poll, hletters c List.mem_cons_self]
      rw [run_cons, hpoll,
        run_endScript_letters _ _ fun d hd => hletters d (List.mem_cons_of_mem c hd)]
      simp

/-- Text without a `<` stays text. -/
theorem run_script_text (text : Bytes) {body : Bytes} (hbody : 60 ∉ body) :
    run (tokens, .script text) body = (tokens, .script (text ++ body)) := by
  have hkeep : ∀ text, ∀ c ∈ body,
      poll tokens (.script text) c = (tokens, .script (text ++ [id c])) := by
    intro text c hc
    have hopen : c ≠ 60 := by
      rintro rfl
      exact hbody hc
    simp [poll, hopen]
  rw [run_keep id hkeep, List.map_id]

/-- Where there should be a name, any other character is text, and so is what follows. -/
theorem run_endScriptOpen_text (text : Bytes) {c : UInt8} {rest : Bytes}
    (halpha : isalpha c = false) (hblank : isBlank c = false) (hrest : 60 ∉ rest) :
    run (tokens, .endScriptOpen text) (c :: rest) = (tokens, .script (text ++ c :: rest)) := by
  have hpoll : poll tokens (.endScriptOpen text) c = (tokens, .script (text ++ [c])) := by
    simp [poll, halpha, hblank]
  rw [run_cons, hpoll, run_script_text _ hrest, List.append_assoc, List.singleton_append]

/-- Behind a name that does not end the script, blanks are read as in the script. -/
theorem run_endScriptClose (text temp : Bytes) {body rest : Bytes}
    (hend : ¬ (checkLastTag tokens temp ∧ (body.dropWhile isBlank).head? = some 62)) :
    run (tokens, .endScriptClose text temp) (body ++ 60 :: rest) =
      run (tokens, .script text) (body ++ 60 :: rest) := by
  induction body generalizing text with
  | nil => simp [run_cons, poll]
  | cons c body ih =>
      by_cases hblank : isBlank c = true
      · rw [List.dropWhile_cons_of_pos hblank] at hend
        have h62 := isBlank_ne hblank (d := 62) rfl
        have h60 := isBlank_ne hblank (d := 60) rfl
        simp only [List.cons_append, run_cons, poll, h62, h60, hblank, if_true, if_false]
        exact ih _ hend
      · rw [List.dropWhile_cons_of_neg hblank, List.head?_cons, Option.some_inj] at hend
        by_cases h62 : c = 62
        · have hcheck : ¬ checkLastTag tokens temp = true := fun h => hend ⟨h, h62⟩
          simp [run_cons, poll, closeScript, h62, hcheck]
        · by_cases h60 : c = 60
          · simp [run_cons, poll, h60]
          · simp [run_cons, poll, h62, h60, hblank]

/-- And so is what follows its letters. -/
theorem run_endScript (text temp : Bytes) {body rest : Bytes}
    (halpha : ∀ d ∈ body.head?, isalpha d = false)
    (hend : ¬ (checkLastTag tokens temp ∧ (body.dropWhile isBlank).head? = some 62)) :
    run (tokens, .endScript text temp) (body ++ 60 :: rest) =
      run (tokens, .script text) (body ++ 60 :: rest) := by
  cases body with
  | nil => simp [run_cons, poll]
  | cons c body =>
      have halpha := halpha c rfl
      by_cases hblank : isBlank c = true
      · rw [List.dropWhile_cons_of_pos hblank] at hend
        have h62 := isBlank_ne hblank (d := 62) rfl
        have h60 := isBlank_ne hblank (d := 60) rfl
        simp only [List.cons_append, run_cons, poll, h62, h60, hblank, if_true, if_false]
        exact run_endScriptClose _ _ hend
      · rw [List.dropWhile_cons_of_neg hblank, List.head?_cons, Option.some_inj] at hend
        by_cases h62 : c = 62
        · have hcheck : ¬ checkLastTag tokens temp = true := fun h => hend ⟨h, h62⟩
          simp [run_cons, poll, closeScript, h62, hcheck]
        · by_cases h60 : c = 60
          · simp [run_cons, poll, h60]
          · simp [run_cons, poll, h62, h60, hblank, halpha]

/-- The name in front of a `>` ends the script, and what was text before its `<` is shorter
than all that was read. -/
theorem run_endScript_end (text temp : Bytes) {body : Bytes} (hcheck : checkLastTag tokens temp)
    (hend : (body.dropWhile isBlank).head? = some 62) :
    ∃ blanks rest, body = blanks ++ 62 :: rest ∧
      run (tokens, .endScript text temp) (blanks ++ [62]) =
        (tokens ++ [beforeLastOpen (text ++ blanks ++ [62]), tokenOpen, tokenSlash, temp,
          tokenClose], .data []) := by
  refine ⟨body.takeWhile isBlank, (body.dropWhile isBlank).tail, ?_, ?_⟩
  · cases hdrop : body.dropWhile isBlank with
    | nil =>
        rw [hdrop] at hend
        cases hend
    | cons c rest =>
        rw [hdrop, List.head?_cons, Option.some_inj] at hend
        rw [List.tail_cons, ← hend, ← hdrop, List.takeWhile_append_dropWhile]
  · have hblanks : ∀ b ∈ body.takeWhile isBlank, isBlank b := fun b hb => List.mem_takeWhile_imp hb
    generalize body.takeWhile isBlank = blanks at hblanks
    cases blanks with
    | nil => simp [run_cons, poll, closeScript, hcheck]
    | cons b blanks =>
        have hb := hblanks b List.mem_cons_self
        have hpoll : poll tokens (.endScript text temp) b =
            (tokens, .endScriptClose (text ++ [b]) temp) := by
          simp [poll, hb, isBlank_ne hb (d := 62) rfl, isBlank_ne hb (d := 60) rfl]
        have hkeep : ∀ text, ∀ d ∈ blanks,
            poll tokens (.endScriptClose text temp) d =
              (tokens, .endScriptClose (text ++ [id d]) temp) := by
          intro text d hd
          have hd := hblanks d (List.mem_cons_of_mem b hd)
          simp [poll, hd, isBlank_ne hd (d := 62) rfl, isBlank_ne hd (d := 60) rfl]
        rw [List.cons_append, run_cons, hpoll, run_append,
          run_keep (q := fun text => .endScriptClose text temp) id hkeep, List.map_id]
        simp [run_cons, poll, closeScript, hcheck]

end

/-! ## The texts that are one token -/

/-- Where the script ends too early, less is text. -/
theorem not_read_endScript {tokens : List Bytes} {name text temp body rest front : Bytes}
    (hcheck : ∀ temp, checkLastTag tokens temp = decide (temp = name)) (htemp : temp = name)
    (hend : (body.dropWhile isBlank).head? = some 62) (hfront : front = text ++ body) :
    run (tokens, .endScript text temp) (body ++ rest) ≠
      (tokens ++ [front, tokenOpen, tokenSlash, name, tokenClose], .data []) := by
  have htrue : checkLastTag tokens temp = true := by rw [hcheck, decide_eq_true htemp]
  obtain ⟨blanks, after, rfl, hrun⟩ := run_endScript_end text temp htrue hend
  intro h
  have hsplit : blanks ++ 62 :: after ++ rest = blanks ++ [62] ++ (after ++ rest) := by simp
  have hprefix := run_grows (run (tokens, .endScript text temp) (blanks ++ [62])) (after ++ rest)
  rw [← run_append, hrun, ← hsplit, h, List.prefix_append_right_inj] at hprefix
  have hlength := congrArg List.length (List.cons_prefix_cons.mp hprefix).1
  have hless := length_beforeLastOpen (text ++ blanks) 62
  rw [hfront] at hlength
  simp only [List.length_append, List.length_cons] at hlength hless
  omega

theorem open_not_mem_end {name : Bytes} (hname : isRaw name) : 60 ∉ 47 :: name ++ [62] := by
  simp only [List.cons_append, List.mem_cons, List.mem_append, List.not_mem_nil, or_false]
  rintro (h | h | h)
  · exact absurd h (by decide)
  · exact isalpha_ne ((isRaw_letters hname).1 _ h) rfl rfl
  · exact absurd h (by decide)

/-- What is read of a script whose text is one token. -/
def ReadAsText (tokens : List Bytes) (name text body : Bytes) : Prop :=
  run (tokens, .script text) (body ++ 60 :: (47 :: name ++ [62])) =
    (tokens ++ [text ++ body, tokenOpen, tokenSlash, name, tokenClose], .data [])

section

variable {tokens : List Bytes} {name text : Bytes}

theorem readAsText_char {c : UInt8} (hc : c ≠ 60) (body : Bytes) :
    ReadAsText tokens name text (c :: body) ↔ ReadAsText tokens name (text ++ [c]) body := by
  rw [ReadAsText, ReadAsText, List.append_assoc, List.singleton_append]
  simp [run_cons, poll, hc]

theorem readAsText_other (c : UInt8) {blanks : Bytes} (hblanks : ∀ b ∈ blanks, isBlank b)
    {d : UInt8} (hblank : isBlank d = false) (halpha : isalpha d = false) (body : Bytes) :
    ReadAsText tokens name text (60 :: c :: (blanks ++ d :: body)) ↔
      ReadAsText tokens name (text ++ 60 :: c :: blanks ++ [d]) body := by
  simp only [ReadAsText, List.append_assoc, List.cons_append, List.nil_append]
  rw [run_script_open _ _ hblanks, run_cons]
  simp [poll, hblank, halpha]

/-- A text that ends in a `<`, with a character and blanks behind it or without, takes the
`<` of the end tag with it. -/
theorem not_readAsText_open (hname : isRaw name) : ¬ ReadAsText tokens name text [60] := by
  have hend : 60 ∉ name ++ [62] := fun hmem => open_not_mem_end hname (List.mem_cons_of_mem 47 hmem)
  have hrun : run (tokens, .script text) (60 :: 60 :: (47 :: name ++ [62])) =
      run (tokens, .endScriptOpen (text ++ [60, 60])) (47 :: name ++ [62]) :=
    @run_script_open tokens text 60 [] (fun b hb => by cases hb) _
  have hlost : run (tokens, .endScriptOpen (text ++ [60, 60])) (47 :: name ++ [62]) =
      (tokens, .script (text ++ [60, 60] ++ (47 :: name ++ [62]))) :=
    run_endScriptOpen_text _ rfl rfl hend
  intro h
  rw [ReadAsText, List.singleton_append, hrun, hlost] at h
  simp at h

theorem not_readAsText_blanks (hname : isRaw name) (c : UInt8) {blanks : Bytes}
    (hblanks : ∀ b ∈ blanks, isBlank b) :
    ¬ ReadAsText tokens name text (60 :: c :: blanks) := by
  have hlost : run (tokens, .endScriptOpen (text ++ 60 :: c :: blanks))
      (60 :: (47 :: name ++ [62])) =
        (tokens, .script (text ++ 60 :: c :: blanks ++ 60 :: (47 :: name ++ [62]))) :=
    run_endScriptOpen_text _ rfl rfl (open_not_mem_end hname)
  intro h
  rw [ReadAsText, List.cons_append, List.cons_append, run_script_open _ _ hblanks, hlost] at h
  simp at h

variable (hcheck : ∀ temp, checkLastTag tokens temp = decide (temp = name))
include hcheck

theorem readAsText_word (c : UInt8) {blanks letters : Bytes} (hblanks : ∀ b ∈ blanks, isBlank b)
    (hletters : ∀ d ∈ letters, isalpha d) (hne : letters ≠ []) {body : Bytes}
    (hend : ∀ d ∈ body.head?, isalpha d = false) :
    ReadAsText tokens name text (60 :: c :: (blanks ++ (letters ++ body))) ↔
      ¬ (letters.map tolower = name ∧ (body.dropWhile isBlank).head? = some 62) ∧
        ReadAsText tokens name (text ++ 60 :: c :: blanks ++ letters) body := by
  simp only [ReadAsText, List.append_assoc, List.cons_append]
  rw [run_script_open _ _ hblanks, run_append, run_endScriptOpen_letters _ hne hletters]
  by_cases hnot : letters.map tolower = name ∧ (body.dropWhile isBlank).head? = some 62
  · refine iff_of_false (fun h => ?_) fun h => h.1 hnot
    exact not_read_endScript hcheck hnot.1 hnot.2 (by simp) h
  · have hclose : ¬ (checkLastTag tokens (letters.map tolower) ∧
        (body.dropWhile isBlank).head? = some 62) := by
      rw [hcheck, decide_eq_true_eq]
      exact hnot
    rw [run_endScript _ _ hend hclose, and_iff_right hnot, List.append_assoc, List.cons_append,
      List.cons_append]

variable (hname : isRaw name)
include hname

theorem readAsText_nil : ReadAsText tokens name text [] := by
  obtain ⟨hletters, hlower, hne⟩ := isRaw_letters hname
  have hfront : beforeLastOpen (text ++ 60 :: 47 :: (name ++ [62])) = text :=
    beforeLastOpen_append text (open_not_mem_end hname)
  have hname : run (tokens, .endScriptOpen (text ++ [60] ++ [47])) name =
      (tokens, .endScript (text ++ [60] ++ [47] ++ name) (name.map tolower)) :=
    run_endScriptOpen_letters _ hne hletters
  rw [ReadAsText, List.nil_append, List.append_nil]
  simp only [List.cons_append, run_cons, poll, if_true]
  rw [run_append, hname, hlower, run_cons]
  simp only [poll, if_true, closeScript, hcheck, decide_true, run_nil, List.append_assoc,
    List.cons_append, List.nil_append, hfront]

/-- Of an opaque text all is read as text. -/
theorem Opaque.readAsText {body : Bytes} (h : Opaque name body) :
    ReadAsText tokens name text body := by
  induction h generalizing text with
  | nil => exact readAsText_nil hcheck hname
  | char hc _ ih => exact (readAsText_char hc _).mpr ih
  | other hblanks hblank halpha _ ih =>
      exact (readAsText_other _ hblanks hblank halpha _).mpr ih
  | word hblanks hletters hne hend hnot _ ih =>
      exact (readAsText_word hcheck _ hblanks hletters hne hend).mpr ⟨hnot, ih⟩

/-- A text that is read as text is opaque. -/
theorem opaque_of_readAsText {body : Bytes} (h : ReadAsText tokens name text body) :
    Opaque name body := by
  induction hn : body.length using Nat.strong_induction_on generalizing body text with
  | _ n ih =>
  cases body with
  | nil => exact .nil
  | cons c body =>
  by_cases hc : c = 60
  · subst hc
    cases body with
    | nil => exact absurd h (not_readAsText_open hname)
    | cons c body =>
        obtain ⟨blanks, rest, rfl, hblanks, hrest⟩ := exists_span isBlank body
        cases rest with
        | nil =>
            rw [List.append_nil] at h
            exact absurd h (not_readAsText_blanks hname c hblanks)
        | cons d rest =>
            cases halpha : isalpha d with
            | false =>
                have hread := (readAsText_other c hblanks (hrest d rfl) halpha rest).mp h
                refine .other hblanks (hrest d rfl) halpha (ih rest.length ?_ hread rfl)
                simp only [← hn, List.length_cons, List.length_append]
                omega
            | true =>
                obtain ⟨letters, rest', heq, hletters, hend⟩ := exists_span isalpha (d :: rest)
                have hne : letters ≠ [] := by
                  rintro rfl
                  rw [List.nil_append] at heq
                  have hfalse := hend d (by rw [← heq]; rfl)
                  rw [halpha] at hfalse
                  cases hfalse
                rw [heq] at h hn ⊢
                obtain ⟨hnot, hread⟩ := (readAsText_word hcheck c hblanks hletters hne hend).mp h
                refine .word hblanks hletters hne hend hnot (ih rest'.length ?_ hread rfl)
                simp only [← hn, List.length_cons, List.length_append]
                omega
  · refine .char hc (ih body.length ?_ ((readAsText_char hc body).mp h) rfl)
    rw [← hn, List.length_cons]
    exact Nat.lt_succ_self _

end

/-- The start tag of a script. -/
theorem run_rawStart {name : Bytes} (hname : isRaw name) (tokens : List Bytes) (text rest : Bytes) :
    run (tokens, .data text) (60 :: name ++ 62 :: rest) =
      run (tokens ++ [text, tokenOpen, name, tokenClose], .script []) rest := by
  have hassoc : tokens ++ [text, tokenOpen, name, tokenClose] =
      tokens ++ [text] ++ [tokenOpen, name, tokenClose] := by simp
  rw [hassoc]
  simp only [isRaw, Bool.or_eq_true, beq_iff_eq] at hname
  rcases hname with rfl | rfl
  · rfl
  · rfl

/-- An element whose text is not read as tags is read as its two tags with the text between
them exactly if the text is opaque. -/
theorem script_body {name : Bytes} (hname : isRaw name) (tokens : List Bytes) (text body : Bytes) :
    run (tokens, .data text) (rawElement name body) =
      (tokens ++ [text, tokenOpen, name, tokenClose, body, tokenOpen, tokenSlash, name, tokenClose],
        .data []) ↔
      Opaque name body := by
  have hcheck := fun temp => checkLastTag_start tokens text temp hname
  have hread : run (tokens, .data text) (rawElement name body) =
      run (tokens ++ [text, tokenOpen, name, tokenClose], .script [])
        (body ++ 60 :: (47 :: name ++ [62])) := by
    rw [← run_rawStart hname, rawElement]
    simp
  have hresult : tokens ++ [text, tokenOpen, name, tokenClose, body, tokenOpen, tokenSlash, name,
      tokenClose] = tokens ++ [text, tokenOpen, name, tokenClose] ++ [[] ++ body, tokenOpen,
        tokenSlash, name, tokenClose] := by simp
  rw [hread, hresult]
  exact ⟨opaque_of_readAsText hcheck hname, Opaque.readAsText hcheck hname⟩

/-- `if(a<b){}` in a script. -/
theorem script_body_less : run ([], .data []) (rawElement tokenScript
    [105, 102, 40, 97, 60, 98, 41, 123, 125]) =
      ([[], tokenOpen, tokenScript, tokenClose, [105, 102, 40, 97, 60, 98, 41, 123, 125], tokenOpen,
        tokenSlash, tokenScript, tokenClose], .data []) := by
  have htext : Opaque tokenScript [123, 125] := .char (by decide) (.char (by decide) .nil)
  have hless : Opaque tokenScript (60 :: 98 :: ([] ++ 41 :: [123, 125])) :=
    .other (fun b hb => by cases hb) rfl rfl htext
  exact (script_body rfl [] [] _).2
    (.char (by decide) (.char (by decide) (.char (by decide) (.char (by decide) hless))))

/-- `<xscript>` in a script, with no `/` in it, ends it. -/
theorem script_ends_early : ¬ ∀ (name body : Bytes), isRaw name → NoEndTag name body →
    ∀ (tokens : List Bytes) (text : Bytes), run (tokens, .data text) (rawElement name body) =
      (tokens ++ [text, tokenOpen, name, tokenClose, body, tokenOpen, tokenSlash, name, tokenClose],
        .data []) := by
  intro h
  have hbody : NoEndTag tokenScript [60, 120, 115, 99, 114, 105, 112, 116, 62] := by
    intro front blanks rest _ heq
    have hmem : (47 : UInt8) ∈ front ++ 60 :: 47 :: (blanks ++ tokenScript ++ rest) := by simp
    rw [← heq] at hmem
    exact absurd hmem (by decide)
  exact absurd (h tokenScript _ rfl hbody [] []) (by decide)

end HtmlDoc
