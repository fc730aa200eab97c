/-
# The kinds of lines

A line is tried as one kind after the other, but what it is can be said for
each kind alone: a blank line, a comment and a line that starts like a rule
are told apart by how they start, and among the remaining texts a token rule
has an arrow after a token's name (`Line.classify_eq_iff`). Blanks around a
line do not count (`Line.classify_pad`).

Every line that can be read has a plain text, and this text is read as the
same line (`Line.classify_text`): nothing that the text of one kind holds makes
it a line of a kind that is tried before.

Key definitions: `Line.IsComment`, `Line.IsText`, `Line.ReadAs`.
Key theorems: `readTokenRule_eq_some_iff`, `Line.classify_eq_iff`,
`Line.classify_pad`, `Line.classify_text`, `Line.classify_partition`.
-/
import TokenAutomata.Proofs.RuleText

namespace TokenAutomata

open Text (Blank Tight TrimsTo)

/-! ### Trimming -/

namespace Text

theorem trim_trim (s : List Char) : trim (trim s) = trim s := trim_of_tight (trimsTo_trim s).1

theorem trim_pad {before after : List Char} (hb : Blank before) (ha : Blank after) (s : List Char) :
    trim (before ++ s ++ after) = trim s := by
  obtain ⟨htight, blanks, blanks', hblanks, hblanks', hs⟩ := trimsTo_trim s
  refine trim_of_trimsTo ⟨htight, before ++ blanks, blanks' ++ after, ?_, ?_, ?_⟩
  · exact fun c hc => (List.mem_append.1 hc).elim (hb c) (hblanks c)
  · exact fun c hc => (List.mem_append.1 hc).elim (hblanks' c) (ha c)
  · calc before ++ s ++ after = before ++ (blanks ++ trim s ++ blanks') ++ after := by rw [← hs]
      _ = before ++ blanks ++ trim s ++ (blanks' ++ after) := by simp only [List.append_assoc]

theorem trim_eq_nil_iff {s : List Char} : trim s = [] ↔ Blank s := by
  rw [trim_eq_iff]
  constructor
  · rintro ⟨-, before, after, hb, ha, rfl⟩
    rw [List.append_nil]
    exact fun c hc => (List.mem_append.1 hc).elim (hb c) (ha c)
  · intro h
    exact ⟨tight_of_solid fun c hc => absurd hc List.not_mem_nil, s, [], h, blank_nil, by simp⟩

end Text

theorem splitHead_trim (line : List Char) : splitHead (Text.trim line) = splitHead line := by
  unfold splitHead
  rw [Text.trim_trim]

theorem isExpression_trim (line : List Char) : isExpression (Text.trim line) = isExpression line := by
  rw [isExpression, splitHead_trim, isExpression]

theorem Rule.read_trim (line : List Char) : Rule.read (Text.trim line) = Rule.read line := by
  unfold Rule.read
  rw [splitHead_trim, Text.trim_trim]

theorem isExpression_of_text {r : Rule} (hr : r.WellFormed) : isExpression r.text = true := by
  have hread := Rule.read_eq_ok_iff.2 ⟨hr, Rule.writtenIn_text hr⟩
  unfold Rule.read at hread
  unfold isExpression
  cases hhead : splitHead r.text with
  | none =>
    rw [hhead] at hread
    cases hread
  | some parts => rfl

/-! ### Token rules -/

/-- No arrow starts at a character before something that does not go on with it. -/
theorem cutArrow_cons {c : Char} {rest : List Char} (h : ¬ (c = '-' ∧ rest.head? = some '>')) :
    cutArrow (c :: rest) = (cutArrow rest).map fun (a, b) => (c :: a, b) := by
  refine cutArrow.eq_3 c rest ?_
  rintro rest' rfl rfl
  exact h ⟨rfl, rfl⟩

theorem cutArrow_append_left {s : List Char} (hs : '-' ∉ s) (rest : List Char) :
    cutArrow (s ++ rest) = (cutArrow rest).map fun (a, b) => (s ++ a, b) := by
  induction s with
  | nil => simp
  | cons c s ih =>
    rw [List.mem_cons, not_or] at hs
    rw [List.cons_append, cutArrow_cons fun h => hs.1 h.1.symm, ih hs.2, Option.map_map]
    rfl

theorem cutArrow_eq_none {s : List Char} (hs : '>' ∉ s) : cutArrow s = none := by
  induction s with
  | nil => rfl
  | cons c s ih =>
    rw [List.mem_cons, not_or] at hs
    have hnext : s.head? ≠ some '>' := fun h => hs.2 (List.mem_of_head? h)
    rw [cutArrow_cons fun h => hnext h.2, ih hs.2, Option.map_none]

theorem cutArrow_append_right {t : List Char} (ht : '>' ∉ t) (s : List Char) :
    cutArrow (s ++ t) = (cutArrow s).map fun (a, b) => (a, b ++ t) := by
  fun_induction cutArrow s with
  | case1 => exact cutArrow_eq_none ht
  | case2 rest => rfl
  | case3 c rest harrow ih =>
    have hnext : ¬ (c = '-' ∧ (rest ++ t).head? = some '>') := by
      rintro ⟨rfl, hhead⟩
      cases rest with
      | nil => exact ht (List.mem_of_head? hhead)
      | cons d rest =>
        cases hhead
        exact harrow rest rfl rfl
    rw [List.cons_append, cutArrow_cons hnext, ih, Option.map_map, Option.map_map]
    rfl

/-- A token's name and a text on the two sides of the first arrow. -/
theorem readTokenRule_eq_some_iff {line : List Char} {token : String} {literal : List Symbol} :
    readTokenRule line = some (token, literal) ↔ isTokenName token.toList = true ∧ literal ≠ [] ∧
      ∃ left right, cutArrow line = some (left, right) ∧ TrimsTo left token.toList ∧
        TrimsTo right literal := by
  constructor
  · intro h
    obtain ⟨hname, hne⟩ := readTokenRule_wellFormed h
    obtain ⟨⟨left, right⟩, hcut, hcheck⟩ := Option.bind_eq_some_iff.1 h
    dsimp only at hcheck
    by_cases hc : (isTokenName (Text.trim left) && !(Text.trim right).isEmpty) = true
    · rw [if_pos hc] at hcheck
      cases hcheck
      refine ⟨hname, hne, left, right, hcut, ?_, Text.trimsTo_trim right⟩
      rw [String.toList_ofList]
      exact Text.trimsTo_trim left
    · rw [if_neg hc] at hcheck
      cases hcheck
  · rintro ⟨hname, hne, left, right, hcut, hleft, hright⟩
    refine Option.bind_eq_some_iff.2 ⟨(left, right), hcut, ?_⟩
    dsimp only
    rw [Text.trim_of_trimsTo hleft, Text.trim_of_trimsTo hright, if_pos (by simp [hname, hne]),
      String.ofList_toList]
    rfl

theorem not_mem_of_blank {s : List Char} (hs : Blank s) {c : Char} (hc : Text.isBlank c = false) :
    c ∉ s := by
  intro hmem
  rw [hs c hmem] at hc
  cases hc

theorem readTokenRule_pad {before after : List Char} (hb : Blank before) (ha : Blank after)
    (line : List Char) : readTokenRule (before ++ line ++ after) = readTokenRule line := by
  have hleft : '-' ∉ before := not_mem_of_blank hb rfl
  have hright : '>' ∉ after := not_mem_of_blank ha rfl
  unfold readTokenRule
  rw [List.append_assoc, cutArrow_append_left hleft, cutArrow_append_right hright]
  cases cutArrow line with
  | none => rfl
  | some parts =>
    have htoken : Text.trim (before ++ parts.1) = Text.trim parts.1 := by
      simpa using Text.trim_pad hb Text.blank_nil parts.1
    have hliteral : Text.trim (parts.2 ++ after) = Text.trim parts.2 := by
      simpa using Text.trim_pad Text.blank_nil ha parts.2
    simp only [Option.map_some, Option.bind_eq_bind, Option.bind_some, htoken, hliteral]

theorem readTokenRule_trim (line : List Char) : readTokenRule (Text.trim line) = readTokenRule line := by
  obtain ⟨-, before, after, hb, ha, hline⟩ := Text.trimsTo_trim line
  conv_rhs => rw [hline, readTokenRule_pad hb ha]

/-- No blank lies between `0` and `z`. -/
theorem isBlank_of_range {c : Char} (hlow : 48 ≤ c.val) (hhigh : c.val ≤ 122) : Text.isBlank c = false := by
  have hlow : 48 ≤ c.toNat := UInt32.le_iff_toNat_le.1 hlow
  have hhigh : c.toNat ≤ 122 := UInt32.le_iff_toNat_le.1 hhigh
  simp only [Text.isBlank, Bool.or_eq_false_iff, Bool.and_eq_false_iff, decide_eq_false_iff_not,
    beq_eq_false_iff_ne]
  omega

theorem isBlank_of_isAlphanum {c : Char} (h : c.isAlphanum = true) : Text.isBlank c = false := by
  have hkinds : ((c.isUpper || c.isLower) || c.isDigit) = true := h
  rcases Bool.or_eq_true_iff.1 hkinds with hletter | hdigit
  · rcases Bool.or_eq_true_iff.1 hletter with hupper | hlower
    · exact isBlank_of_isUpper hupper
    · obtain ⟨hlow, hhigh⟩ := Bool.and_eq_true_iff.1 hlower
      exact isBlank_of_range (UInt32.le_trans (by decide) (of_decide_eq_true hlow)) (of_decide_eq_true hhigh)
  · obtain ⟨hlow, hhigh⟩ := Bool.and_eq_true_iff.1 hdigit
    exact isBlank_of_range (of_decide_eq_true hlow) (UInt32.le_trans (of_decide_eq_true hhigh) (by decide))

/-- The characters of a token's name are no blanks, and no mark of a line is among them. -/
theorem solid_of_mem_tokenName {name : List Char} (h : isTokenName name = true) {c : Char} (hc : c ∈ name) :
    Text.isBlank c = false ∧ c ≠ '-' ∧ c ≠ '#' ∧ c ≠ '<' := by
  rw [isTokenName, Bool.and_eq_true, List.all_eq_true] at h
  rcases Bool.or_eq_true_iff.1 (h.2 c hc) with halnum | hbar
  · refine ⟨isBlank_of_isAlphanum halnum, ?_, ?_, ?_⟩
    · rintro rfl
      cases halnum
    · rintro rfl
      cases halnum
    · rintro rfl
      cases halnum
  · rw [beq_iff_eq.1 hbar]
    decide

namespace Line

/-! ### Kinds -/

/-- What is not blank of the line starts with `#`. -/
def IsComment (raw : List Char) : Prop := ∃ rest, TrimsTo raw ('#' :: rest)

/-- Neither empty nor marked as a comment or a rule. -/
structure IsText (raw : List Char) : Prop where
  not_blank : ¬ Blank raw
  not_comment : ¬ IsComment raw
  not_rule : isExpression raw = false

variable {raw : List Char} {l : Line}

theorem isText_iff : IsText raw ↔ ¬ Blank raw ∧ ¬ IsComment raw ∧ isExpression raw = false :=
  ⟨fun h => ⟨h.not_blank, h.not_comment, h.not_rule⟩, fun h => ⟨h.1, h.2.1, h.2.2⟩⟩

theorem isComment_iff : IsComment raw ↔ (Text.trim raw).head? = some '#' := by
  constructor
  · rintro ⟨rest, h⟩
    rw [Text.trim_of_trimsTo h]
    rfl
  · intro h
    obtain ⟨rest, hrest⟩ := List.head?_eq_some_iff.1 h
    exact ⟨rest, Text.trim_eq_iff.1 hrest⟩

theorem head_of_isExpression (h : isExpression raw = true) : (Text.trim raw).head? = some '<' := by
  obtain ⟨⟨name, body⟩, hhead⟩ := Option.isSome_iff_exists.1 h
  obtain ⟨-, blanks, -, htrim⟩ := splitHead_eq_some_iff.1 hhead
  rw [htrim]
  rfl

/-- What starts with neither mark is a text. -/
theorem isText_of_head {c : Char} (h : (Text.trim raw).head? = some c) (hmark : c ≠ '#') (hopen : c ≠ '<') :
    IsText raw := by
  refine ⟨fun hblank => ?_, fun hcomment => ?_, ?_⟩
  · rw [Text.trim_eq_nil_iff.2 hblank] at h
    cases h
  · rw [isComment_iff.1 hcomment] at h
    exact hmark (Option.some.inj h).symm
  · rw [← Bool.not_eq_true]
    intro hrule
    rw [head_of_isExpression hrule] at h
    exact hopen (Option.some.inj h).symm

theorem classify_of_blank (h : Blank raw) : classify raw = .ok .blank := by
  unfold classify
  exact if_pos (Text.trim_eq_nil_iff.2 h)

theorem classify_of_isComment (h : IsComment raw) : classify raw = .ok .comment := by
  have hhead := isComment_iff.1 h
  have hne : Text.trim raw ≠ [] := by
    intro hnil
    rw [hnil] at hhead
    cases hhead
  unfold classify
  dsimp only
  rw [if_neg hne, if_pos hhead]

theorem classify_of_isExpression (h : isExpression raw = true) :
    classify raw = (Rule.read raw).map .expression := by
  have hhead := head_of_isExpression h
  have hne : Text.trim raw ≠ [] := by
    intro hnil
    rw [hnil] at hhead
    cases hhead
  have hmark : (Text.trim raw).head? ≠ some '#' := by
    rw [hhead]
    decide
  unfold classify
  dsimp only
  rw [if_neg hne, if_neg hmark, isExpression_trim, if_pos h, Rule.read_trim]

theorem classify_of_isText (h : IsText raw) : classify raw =
    .ok (((readTokenRule raw).map fun rule => tokenRule rule.1 rule.2).getD (.sentence (Text.trim raw))) := by
  have hne : Text.trim raw ≠ [] := mt Text.trim_eq_nil_iff.1 h.not_blank
  have hmark : (Text.trim raw).head? ≠ some '#' := mt isComment_iff.2 h.not_comment
  have hrule : ¬ isExpression raw = true := by simp [h.not_rule]
  unfold classify
  dsimp only
  rw [if_neg hne, if_neg hmark, isExpression_trim, if_neg hrule, readTokenRule_trim]
  cases readTokenRule raw with
  | none => rfl
  | some rule => rfl

/-- What the line is read as, for each kind by what the line alone has to be. -/
inductive ReadAs (raw : List Char) : Except SyntaxError Line → Prop
  | blank : Blank raw → ReadAs raw (.ok .blank)
  | comment : IsComment raw → ReadAs raw (.ok .comment)
  | rule {r : Rule} : isExpression raw = true → Rule.read raw = .ok r → ReadAs raw (.ok (.expression r))
  | malformed {e : SyntaxError} : isExpression raw = true → Rule.read raw = .error e → ReadAs raw (.error e)
  | tokenRule {token : String} {literal : List Symbol} : IsText raw →
      readTokenRule raw = some (token, literal) → ReadAs raw (.ok (.tokenRule token literal))
  | word {word : List Symbol} : IsText raw → readTokenRule raw = none → TrimsTo raw word →
      ReadAs raw (.ok (.sentence word))

theorem classify_readAs (raw : List Char) : ReadAs raw (classify raw) := by
  by_cases hblank : Blank raw
  · rw [classify_of_blank hblank]
    exact .blank hblank
  by_cases hcomment : IsComment raw
  · rw [classify_of_isComment hcomment]
    exact .comment hcomment
  cases hrule : isExpression raw with
  | true =>
    rw [classify_of_isExpression hrule]
    cases hread : Rule.read raw with
    | ok r => exact .rule hrule hread
    | error e => exact .malformed hrule hread
  | false =>
    have htext : IsText raw := ⟨hblank, hcomment, hrule⟩
    rw [classify_of_isText htext]
    cases htoken : readTokenRule raw with
    | some rule => exact .tokenRule htext htoken
    | none => exact .word htext htoken (Text.trimsTo_trim raw)

/-- The order in which the kinds are tried does not count. -/
theorem classify_eq_iff {outcome : Except SyntaxError Line} :
    classify raw = outcome ↔ ReadAs raw outcome := by
  constructor
  · rintro rfl
    exact classify_readAs raw
  · intro h
    cases h with
    | blank hblank => exact classify_of_blank hblank
    | comment hcomment => exact classify_of_isComment hcomment
    | rule hrule hread =>
      rw [classify_of_isExpression hrule, hread]
      rfl
    | malformed hrule hread =>
      rw [classify_of_isExpression hrule, hread]
      rfl
    | tokenRule htext htoken =>
      rw [classify_of_isText htext, htoken, Option.map_some, Option.getD_some]
    | word htext htoken hword =>
      rw [classify_of_isText htext, htoken, Option.map_none, Option.getD_none, Text.trim_of_trimsTo hword]

theorem classify_pad {before after : List Char} (hb : Blank before) (ha : Blank after)
    (raw : List Char) : classify (before ++ raw ++ after) = classify raw := by
  unfold classify
  rw [Text.trim_pad hb ha]

/-! ### Plain texts -/

theorem cutArrow_text {token : String} (hname : isTokenName token.toList = true) (literal : List Symbol) :
    cutArrow (text (.tokenRule token literal)) = some (token.toList ++ [' '], ' ' :: literal) := by
  have hno : '-' ∉ token.toList ++ [' '] := by
    rw [List.mem_append, List.mem_singleton, not_or]
    exact ⟨fun hmem => (solid_of_mem_tokenName hname hmem).2.1 rfl, by decide⟩
  have hparts : text (.tokenRule token literal) =
      (token.toList ++ [' ']) ++ '-' :: '>' :: ' ' :: literal := by
    simp [text]
  rw [hparts, cutArrow_append_left hno]
  simp [cutArrow]

theorem classify_text_tokenRule {token : String} {literal : List Symbol}
    (hname : isTokenName token.toList = true) (hne : literal ≠ []) (hliteral : Tight literal) :
    classify (text (.tokenRule token literal)) = .ok (.tokenRule token literal) := by
  have htoken : Tight token.toList := Text.tight_of_solid fun c hc => (solid_of_mem_tokenName hname hc).1
  have htoken_ne : token.toList ≠ [] := by
    intro hnil
    rw [hnil] at hname
    cases hname
  -- the text starts as the name does, so it is neither a comment nor a rule
  have htext : IsText (text (.tokenRule token literal)) := by
    obtain ⟨c, rest, hfirst⟩ := List.exists_cons_of_ne_nil htoken_ne
    have hc : c ∈ token.toList := hfirst ▸ List.mem_cons_self
    obtain ⟨-, -, hmark, hopen⟩ := solid_of_mem_tokenName hname hc
    refine isText_of_head ?_ hmark hopen
    rw [text, Text.trim_of_tight (htoken.append hliteral htoken_ne hne), hfirst]
    rfl
  refine classify_eq_iff.2 (.tokenRule htext ?_)
  refine readTokenRule_eq_some_iff.2 ⟨hname, hne, _, _, cutArrow_text hname literal, ?_, ?_⟩
  · exact ⟨htoken, [], [' '], Text.blank_nil, Text.blank_space, by simp⟩
  · exact ⟨hliteral, [' '], [], Text.blank_space, Text.blank_nil, by simp⟩

/-- What is read from a line is read from its plain text as well. -/
theorem classify_text (h : classify raw = .ok l) : classify l.text = .ok l := by
  have hwf := classify_wellFormed h
  cases classify_eq_iff.1 h with
  | blank => rfl
  | comment => rfl
  | rule =>
    exact classify_eq_iff.2 (.rule (isExpression_of_text hwf)
      (Rule.read_eq_ok_iff.2 ⟨hwf, Rule.writtenIn_text hwf⟩))
  | tokenRule _ htoken =>
    obtain ⟨hname, hne, _, _, -, -, hliteral⟩ := readTokenRule_eq_some_iff.1 htoken
    exact classify_text_tokenRule hname hne hliteral.1
  | word _ _ hword =>
    obtain ⟨-, before, after, hb, ha, rfl⟩ := hword
    rwa [classify_pad hb ha] at h

theorem isExpression_iff : isExpression raw = true ↔
    (∃ e, classify raw = .error e) ∨ ∃ rule, classify raw = .ok (.expression rule) := by
  constructor
  · intro hrule
    cases hread : Rule.read raw with
    | ok r => exact Or.inr ⟨r, classify_eq_iff.2 (.rule hrule hread)⟩
    | error e => exact Or.inl ⟨e, classify_eq_iff.2 (.malformed hrule hread)⟩
  · rintro (⟨e, h⟩ | ⟨r, h⟩)
    · cases classify_eq_iff.1 h with
      | malformed hrule => exact hrule
    · cases classify_eq_iff.1 h with
      | rule hrule => exact hrule

theorem isSentence_iff :
    isSentence raw = true ↔ ∃ l, classify raw = .ok l ∧ ∀ rule, l ≠ .expression rule := by
  rw [isSentence, Bool.not_eq_true', ← Bool.not_eq_true, isExpression_iff, not_or, not_exists, not_exists]
  cases classify raw with
  | ok l => simp
  | error e => simp

theorem classify_eq_blank_iff : classify raw = .ok .blank ↔ Blank raw := by
  rw [classify_eq_iff]
  constructor
  · rintro ⟨⟩
    assumption
  · exact .blank

theorem classify_eq_comment_iff : classify raw = .ok .comment ↔ IsComment raw := by
  rw [classify_eq_iff]
  constructor
  · rintro ⟨⟩
    assumption
  · exact .comment

theorem classify_eq_tokenRule_iff {token : String} {literal : List Symbol} :
    classify raw = .ok (.tokenRule token literal) ↔
      IsText raw ∧ readTokenRule raw = some (token, literal) := by
  rw [classify_eq_iff]
  constructor
  · intro h
    cases h with
    | tokenRule htext htoken => exact ⟨htext, htoken⟩
  · rintro ⟨htext, htoken⟩
    exact .tokenRule htext htoken

theorem classify_eq_sentence_iff {word : List Symbol} :
    classify raw = .ok (.sentence word) ↔
      IsText raw ∧ readTokenRule raw = none ∧ TrimsTo raw word := by
  rw [classify_eq_iff]
  constructor
  · intro h
    cases h with
    | word htext htoken hword => exact ⟨htext, htoken, hword⟩
  · rintro ⟨htext, htoken, hword⟩
    exact .word htext htoken hword

/-- A line that starts like a rule, and no other, is a rule or an error; all
other kinds are told apart by the line alone. What is read from a line can be
written plainly and is then read again. -/
theorem classify_partition (raw : List Char) :
    ((∃ e, classify raw = .error e) ∨ (∃ rule, classify raw = .ok (.expression rule)) ↔
      isExpression raw = true) ∧
    (isSentence raw = true ↔ ∃ l, classify raw = .ok l ∧ ∀ rule, l ≠ .expression rule) ∧
    isSentence raw = !isExpression raw ∧
    (classify raw = .ok .blank ↔ Blank raw) ∧
    (classify raw = .ok .comment ↔ IsComment raw) ∧
    (∀ token literal, classify raw = .ok (.tokenRule token literal) ↔
      ¬ Blank raw ∧ ¬ IsComment raw ∧ isExpression raw = false ∧
        readTokenRule raw = some (token, literal)) ∧
    (∀ word, classify raw = .ok (.sentence word) ↔
      ¬ Blank raw ∧ ¬ IsComment raw ∧ isExpression raw = false ∧
        readTokenRule raw = none ∧ TrimsTo raw word) ∧
    ∀ l, classify raw = .ok l → classify l.text = .ok l := by
  refine ⟨isExpression_iff.symm, isSentence_iff, rfl, classify_eq_blank_iff, classify_eq_comment_iff,
    fun token literal => ?_, fun word => ?_, fun l h => classify_text h⟩
  · rw [classify_eq_tokenRule_iff, isText_iff, and_assoc, and_assoc]
  · rw [classify_eq_sentence_iff, isText_iff, and_assoc, and_assoc]

/-- Marks of other kinds of lines may stand in the text of a token rule. -/
theorem arrowRule_classify :
    classify "\tARROW->-> #<S> ::= a| ".toList = .ok (.tokenRule "ARROW" "-> #<S> ::= a|".toList) ∧
    classify "ARROW -> -> #<S> ::= a|".toList = .ok (.tokenRule "ARROW" "-> #<S> ::= a|".toList) := by
  have hread : classify "\tARROW->-> #<S> ::= a| ".toList =
      .ok (.tokenRule "ARROW" "-> #<S> ::= a|".toList) := by rfl
  obtain ⟨-, -, -, -, -, -, -, htext⟩ := classify_partition "\tARROW->-> #<S> ::= a| ".toList
  exact ⟨hread, htext _ hread⟩

end Line

end TokenAutomata
