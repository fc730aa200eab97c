/-
# Which texts are rules

A line is read as a rule just if it is that rule written down, up to blanks:
around the line, between the name and `::=`, and around each alternative, and
up to pieces of the body without content (`Rule.WrittenIn`). For every step of
reading there is one text it comes from: the head of a line is cut off in one
way (`splitHead_eq_some_iff`), and a piece of the body without blanks at its
ends is read as the alternative whose text it is
(`Alternative.read_eq_ok_iff`).

Key definitions: `Rule.WrittenIn`.
Key theorems: `splitHead_eq_some_iff`, `Alternative.read_eq_ok_iff`,
`Rule.read_eq_ok_iff`, `Rule.writtenIn_text`, `Rule.read_exactly_written`.
-/
import TokenAutomata.Proofs.ReadLines
import TokenAutomata.Proofs.TrimmedText

namespace TokenAutomata

open Text (Blank Tight TrimsTo)

/-- Without the blanks around it, the line reads `<NAME>`, some blanks, `::=`
and a body. The pieces of the body between the `|`, without the blanks around
them, are empty or the alternatives in their order. -/
def Rule.WrittenIn (r : Rule) (line : List Char) : Prop :=
  ∃ blanks body contents, Blank blanks ∧
    TrimsTo line (referenceText r.name ++ blanks ++ "::=".toList ++ body) ∧
    List.Forall₂ TrimsTo (body.splitOn '|') contents ∧
    contents.filter (· ≠ []) = r.alternatives.map Alternative.text

/-! ### Characters -/

theorem isBlank_of_isUpper {c : Char} (h : c.isUpper = true) : Text.isBlank c = false := by
  have hrange : 65 ≤ c.val ∧ c.val ≤ 90 := of_decide_eq_true h
  have hlow : 65 ≤ c.toNat := UInt32.le_iff_toNat_le.1 hrange.1
  have hhigh : c.toNat ≤ 90 := UInt32.le_iff_toNat_le.1 hrange.2
  simp only [Text.isBlank, Bool.or_eq_false_iff, Bool.and_eq_false_iff, decide_eq_false_iff_not,
    beq_eq_false_iff_ne]
  omega

/-- Neither names nor references hold a blank or a mark between pieces. -/
theorem solid_of_mem_name {name : List Char} (h : isNonterminalName name = true) {c : Char} (hc : c ∈ name) :
    Text.isBlank c = false ∧ c ≠ '|' ∧ c ≠ '>' := by
  rw [isNonterminalName, Bool.and_eq_true, List.all_eq_true] at h
  rcases Bool.or_eq_true_iff.1 (h.2 c hc) with hupper | hbar
  · refine ⟨isBlank_of_isUpper hupper, ?_, ?_⟩
    · rintro rfl
      cases hupper
    · rintro rfl
      cases hupper
  · rw [beq_iff_eq.1 hbar]
    decide

/-- In the text of an alternative there are no blanks and no `|`. -/
theorem Alternative.WellFormed.solid {alt : Alternative} (h : alt.WellFormed) {c : Char}
    (hc : c ∈ alt.text) : Text.isBlank c = false ∧ c ≠ '|' := by
  cases alt with
  | epsilon =>
    rw [List.mem_singleton.1 hc]
    decide
  | production terminals next =>
    obtain ⟨-, hterminals, hname⟩ := h
    rcases List.mem_append.1 hc with hc | hc
    · have hterminal := (hterminals c hc).1
      simp only [isTerminal, Bool.and_eq_true, Bool.not_eq_true', bne_iff_ne] at hterminal
      exact ⟨hterminal.1.1.1, hterminal.2⟩
    · cases next with
      | none => cases hc
      | some name =>
        have hc : c ∈ '<' :: name.toList ++ ['>'] := hc
        rw [List.mem_append, List.mem_cons, List.mem_singleton] at hc
        rcases hc with (rfl | hc) | rfl
        · decide
        · have hsolid := solid_of_mem_name (hname name rfl) hc
          exact ⟨hsolid.1, hsolid.2.1⟩
        · decide

theorem Alternative.WellFormed.text_ne_nil {alt : Alternative} (h : alt.WellFormed) : alt.text ≠ [] := by
  cases alt with
  | epsilon => exact List.cons_ne_nil _ _
  | production terminals next => exact List.append_ne_nil_of_left_ne_nil h.1 _

theorem Alternative.WellFormed.tight {alt : Alternative} (h : alt.WellFormed) : Tight alt.text :=
  Text.tight_of_solid fun _ hc => (h.solid hc).1

/-! ### Alternatives -/

/-- The text of an alternative is read as that alternative. -/
theorem Alternative.WellFormed.read_text {alt : Alternative} (h : alt.WellFormed) (rule : String) :
    Alternative.read rule alt.text = .ok alt := by
  cases alt with
  | epsilon => rfl
  | production terminals next =>
    obtain ⟨hne, hterminals, hname⟩ := h
    obtain ⟨hfind, hepsilon⟩ := terminals_checked_iff.2 hterminals
    have hopen : '<' ∉ terminals := fun hm => by
      have hterminal := (hterminals _ hm).1
      revert hterminal
      decide
    have halone : (production terminals next).text ≠ [epsilonSymbol] := by
      intro he
      obtain ⟨c, rest, rfl⟩ := List.exists_cons_of_ne_nil hne
      exact hepsilon ((List.cons.inj he).1 ▸ List.mem_cons_self)
    unfold Alternative.read
    rw [if_neg halone]
    cases next with
    | none =>
      have htext : (production terminals none).text = terminals := List.append_nil terminals
      rw [htext, Text.cut_eq_none_iff.2 hopen]
      dsimp only
      rw [hfind]
      exact check_eq_ok.2 ⟨hepsilon, check_eq_ok.2 ⟨hne, rfl⟩⟩
    | some name =>
      have hclose : '>' ∉ name.toList := fun hm => (solid_of_mem_name (hname name rfl) hm).2.2 rfl
      have hcut : Text.cut '<' (production terminals (some name)).text =
          some (terminals, name.toList ++ '>' :: []) := Text.cut_eq_some_iff.2 ⟨rfl, hopen⟩
      have hcut' : Text.cut '>' (name.toList ++ '>' :: []) = some (name.toList, []) :=
        Text.cut_eq_some_iff.2 ⟨rfl, hclose⟩
      have hproper : ¬ (!isNonterminalName name.toList) = true := by simp [hname name rfl]
      rw [hcut]
      dsimp only
      rw [hfind, hcut']
      refine check_eq_ok.2 ⟨hepsilon, check_eq_ok.2 ⟨hproper, check_eq_ok.2 ⟨?_, check_eq_ok.2 ⟨hne, ?_⟩⟩⟩⟩
      · exact not_not.2 rfl
      · show Except.ok (production terminals (some (String.ofList name.toList))) = _
        rw [String.ofList_toList]

/-- A piece without blanks at its ends is read as the alternative whose text it is. -/
theorem Alternative.read_eq_ok_iff {rule : String} {piece : List Char} (hp : Tight piece)
    {alt : Alternative} : Alternative.read rule piece = .ok alt ↔ alt.WellFormed ∧ alt.text = piece := by
  constructor
  · intro h
    obtain ⟨hwf, after, hafter, hpiece⟩ := read_eq_ok h
    obtain ⟨-, before, blanks, hbefore, hblanks, hs⟩ := Text.trim_eq_iff.1 hafter
    have hblank : Blank after := by
      rw [hs, List.append_nil]
      exact fun c hc => (List.mem_append.1 hc).elim (hbefore c) (hblanks c)
    have hnil : after = [] := (hpiece ▸ hp).eq_nil_of_append hblank
    rw [hpiece, hnil, List.append_nil]
    exact ⟨hwf, rfl⟩
  · rintro ⟨hwf, rfl⟩
    exact hwf.read_text rule

/-! ### The head of a rule -/

theorem splitHead_eq_some_iff {line name body : List Char} : splitHead line = some (name, body) ↔
    '>' ∉ name ∧ ∃ blanks, Blank blanks ∧
      Text.trim line = '<' :: name ++ '>' :: (blanks ++ "::=".toList ++ body) := by
  have hmark : ∀ rest, Text.trimStart rest = ':' :: ':' :: '=' :: body ↔
      ∃ blanks, Blank blanks ∧ rest = blanks ++ "::=".toList ++ body := by
    intro rest
    constructor
    · intro h
      obtain ⟨blanks, hblanks, hrest⟩ := Text.exists_blank_trimStart rest
      refine ⟨blanks, hblanks, ?_⟩
      rw [hrest, h, List.append_assoc]
      rfl
    · rintro ⟨blanks, hblanks, rfl⟩
      rw [List.append_assoc, Text.trimStart_append hblanks]
      exact Text.trimStart_cons (by decide)
  constructor
  · intro h
    unfold splitHead at h
    split at h
    · rename_i rest htrim
      obtain ⟨⟨name', after⟩, hcut, hbody⟩ := Option.bind_eq_some_iff.1 h
      dsimp only at hbody
      split at hbody
      · rename_i body' hstart
        cases hbody
        obtain ⟨hrest, hname⟩ := Text.cut_eq_some_iff.1 hcut
        obtain ⟨blanks, hblanks, hafter⟩ := (hmark after).1 hstart
        exact ⟨hname, blanks, hblanks, by rw [htrim, hrest, hafter]; rfl⟩
      · cases hbody
    · cases h
  · rintro ⟨hname, blanks, hblanks, htrim⟩
    have hcut : Text.cut '>' (name ++ '>' :: (blanks ++ "::=".toList ++ body)) =
        some (name, blanks ++ "::=".toList ++ body) := Text.cut_eq_some_iff.2 ⟨rfl, hname⟩
    unfold splitHead
    rw [htrim]
    refine Option.bind_eq_some_iff.2 ⟨_, hcut, ?_⟩
    dsimp only
    rw [(hmark _).2 ⟨blanks, hblanks, rfl⟩]
    rfl

/-! ### Rules -/

theorem forall₂_eq_map_iff {α β : Type} {f : α → β} {xs : List α} {ys : List β} :
    List.Forall₂ (fun x y => f x = y) xs ys ↔ xs.map f = ys := by
  rw [← List.forall₂_map_left_iff, List.forall₂_eq_eq_eq]

theorem forall₂_trimsTo_iff {pieces contents : List (List Char)} :
    List.Forall₂ TrimsTo pieces contents ↔ pieces.map Text.trim = contents := by
  rw [← forall₂_eq_map_iff]
  simp only [Text.trim_eq_iff]

/-- The alternatives of a body are those whose texts its pieces are. -/
theorem mapM_read_eq_ok_iff {rule : String} {body : List Char} {alternatives : List Alternative} :
    (alternativePieces body).mapM (Alternative.read rule) = .ok alternatives ↔
      (∀ alt ∈ alternatives, alt.WellFormed) ∧ ∃ contents,
        List.Forall₂ TrimsTo (body.splitOn '|') contents ∧
          contents.filter (· ≠ []) = alternatives.map Alternative.text := by
  have htight : ∀ piece ∈ alternativePieces body, Tight piece := by
    intro piece hp
    obtain ⟨part, -, rfl⟩ := List.mem_map.1 (List.mem_filter.1 hp).1
    exact (Text.trimsTo_trim part).1
  have hpieces : alternativePieces body = ((body.splitOn '|').map Text.trim).filter (· ≠ []) := by
    rw [alternativePieces, Text.split_eq_splitOn]
  rw [mapM_eq_ok_iff]
  constructor
  · intro h
    have hread := ((List.forall₂_and_left _ _).2 ⟨htight, h⟩).imp fun piece alt hp =>
      (Alternative.read_eq_ok_iff hp.1).1 hp.2
    obtain ⟨hwf, htexts⟩ := (List.forall₂_and_left _ _).1 hread.flip
    refine ⟨hwf, (body.splitOn '|').map Text.trim, forall₂_trimsTo_iff.2 rfl, ?_⟩
    rw [← hpieces]
    exact (forall₂_eq_map_iff.1 htexts).symm
  · rintro ⟨hwf, contents, hcontents, htexts⟩
    rw [hpieces, forall₂_trimsTo_iff.1 hcontents, htexts, List.forall₂_map_left_iff, List.forall₂_same]
    exact fun alt halt => (hwf alt halt).read_text rule

/-- Just what a rule is written in is read as that rule. -/
theorem Rule.read_eq_ok_iff {line : List Char} {r : Rule} :
    Rule.read line = .ok r ↔ r.WellFormed ∧ r.WrittenIn line := by
  constructor
  · intro h
    refine ⟨Rule.read_wellFormed h, ?_⟩
    unfold Rule.read at h
    cases hhead : splitHead line with
    | none =>
      rw [hhead] at h
      cases h
    | some parts =>
      obtain ⟨name, body⟩ := parts
      rw [hhead] at h
      obtain ⟨-, hbody⟩ := check_eq_ok.1 h
      obtain ⟨alternatives, hread, hcheck⟩ := except_bind_eq_ok.1 hbody
      obtain ⟨-, hlast⟩ := check_eq_ok.1 hcheck
      cases hlast
      obtain ⟨-, blanks, hblanks, htrim⟩ := splitHead_eq_some_iff.1 hhead
      obtain ⟨-, contents, hcontents, htexts⟩ := mapM_read_eq_ok_iff.1 hread
      refine ⟨blanks, body, contents, hblanks, Text.trim_eq_iff.1 ?_, hcontents, htexts⟩
      rw [htrim]
      simp [referenceText]
  · rintro ⟨⟨hname, hne, hwf⟩, blanks, body, contents, hblanks, hline, hcontents, htexts⟩
    have hclose : '>' ∉ r.name.toList := fun hm => (solid_of_mem_name hname hm).2.2 rfl
    have hhead : splitHead line = some (r.name.toList, body) := by
      refine splitHead_eq_some_iff.2 ⟨hclose, blanks, hblanks, ?_⟩
      rw [Text.trim_eq_iff.2 hline]
      simp [referenceText]
    have hread : (alternativePieces body).mapM (Alternative.read r.name) = .ok r.alternatives :=
      mapM_read_eq_ok_iff.2 ⟨hwf, contents, hcontents, htexts⟩
    unfold Rule.read
    rw [hhead]
    dsimp only
    rw [String.ofList_toList]
    refine check_eq_ok.2 ⟨by simp [hname], ?_⟩
    exact except_bind_eq_ok.2 ⟨r.alternatives, hread, check_eq_ok.2 ⟨hne, rfl⟩⟩

/-! ### The plain text of a rule -/

/-- Texts set apart by `|` with a blank on both sides are the pieces. -/
theorem forall₂_trimsTo_intercalate : ∀ {texts : List (List Char)}, texts ≠ [] →
    (∀ t ∈ texts, Tight t ∧ '|' ∉ t) →
      List.Forall₂ TrimsTo ((' ' :: [' ', '|', ' '].intercalate texts).splitOn '|') texts
  | [t], _, h => by
    obtain ⟨htight, hmark⟩ := h t List.mem_cons_self
    have hno : '|' ∉ ' ' :: t := by simp [hmark]
    rw [List.intercalate_singleton, Text.splitOn_of_not_mem hno]
    exact .cons ⟨htight, [' '], [], Text.blank_space, Text.blank_nil, by simp⟩ .nil
  | t :: t' :: texts, _, h => by
    obtain ⟨htight, hmark⟩ := h t List.mem_cons_self
    have hno : '|' ∉ ' ' :: t ++ [' '] := by simp [hmark]
    have hbody : ' ' :: [' ', '|', ' '].intercalate (t :: t' :: texts) =
        (' ' :: t ++ [' ']) ++ '|' :: (' ' :: [' ', '|', ' '].intercalate (t' :: texts)) := by
      rw [List.intercalate_cons_cons]
      simp
    rw [hbody, Text.splitOn_append_cons hno]
    exact .cons ⟨htight, [' '], [' '], Text.blank_space, Text.blank_space, by simp⟩
      (forall₂_trimsTo_intercalate (List.cons_ne_nil _ _) fun t ht => h t (List.mem_cons_of_mem _ ht))

theorem tight_intercalate (sep : List Char) : ∀ {texts : List (List Char)}, texts ≠ [] →
    (∀ t ∈ texts, Tight t ∧ t ≠ []) → Tight (sep.intercalate texts) ∧ sep.intercalate texts ≠ []
  | [t], _, h => by
    rw [List.intercalate_singleton]
    exact h t List.mem_cons_self
  | t :: t' :: texts, _, h => by
    obtain ⟨htight, hne⟩ := h t List.mem_cons_self
    have ih := tight_intercalate sep (List.cons_ne_nil t' texts) fun t ht => h t (List.mem_cons_of_mem _ ht)
    rw [List.intercalate_cons_cons]
    exact ⟨htight.append ih.1 hne ih.2, List.append_ne_nil_of_right_ne_nil _ ih.2⟩

/-- The text of a rule has the rule written in it. -/
theorem Rule.writtenIn_text {r : Rule} (hr : r.WellFormed) : r.WrittenIn r.text := by
  have hne : r.alternatives.map Alternative.text ≠ [] := mt List.map_eq_nil_iff.1 hr.nonempty
  have htexts : ∀ t ∈ r.alternatives.map Alternative.text, Tight t ∧ t ≠ [] ∧ '|' ∉ t := by
    intro t ht
    obtain ⟨alt, halt, rfl⟩ := List.mem_map.1 ht
    have hwf := hr.alternatives alt halt
    exact ⟨hwf.tight, hwf.text_ne_nil, fun hm => (hwf.solid hm).2 rfl⟩
  have hbody := tight_intercalate [' ', '|', ' '] hne fun t ht => ⟨(htexts t ht).1, (htexts t ht).2.1⟩
  have hname : Tight (referenceText r.name) := Text.tight_of_solid fun c hc => by
    rw [referenceText, List.mem_append, List.mem_cons, List.mem_singleton] at hc
    rcases hc with (rfl | hc) | rfl
    · decide
    · exact (solid_of_mem_name hr.name hc).1
    · decide
  have htext : Tight r.text := hname.append hbody.1 (List.cons_ne_nil _ _) hbody.2
  refine ⟨[' '], ' ' :: [' ', '|', ' '].intercalate (r.alternatives.map Alternative.text), _,
    Text.blank_space, ?_,
    forall₂_trimsTo_intercalate hne fun t ht => ⟨(htexts t ht).1, (htexts t ht).2.2⟩, ?_⟩
  · have hparts : referenceText r.name ++ [' '] ++ "::=".toList ++
        (' ' :: [' ', '|', ' '].intercalate (r.alternatives.map Alternative.text)) = r.text := by
      simp [Rule.text]
    rw [hparts]
    exact ⟨htext, [], [], Text.blank_nil, Text.blank_nil, by simp⟩
  · exact List.filter_eq_self.2 fun t ht => decide_eq_true (htexts t ht).2.1

/-- A line is read as a rule just if the rule is well-formed and the line has
it written in it, and is a syntax error if it has no rule written in it. So a
rule that is written down is read back. -/
theorem Rule.read_exactly_written :
    (∀ line r, Rule.read line = .ok r ↔ r.WellFormed ∧ r.WrittenIn line) ∧
    (∀ line, (∃ e, Rule.read line = .error e) ↔ ¬ ∃ r : Rule, r.WellFormed ∧ r.WrittenIn line) ∧
    ∀ r : Rule, r.WellFormed → Rule.read r.text = .ok r := by
  refine ⟨fun line r => Rule.read_eq_ok_iff, fun line => ?_, fun r hr => ?_⟩
  · simp only [← Rule.read_eq_ok_iff]
    cases Rule.read line with
    | ok r => simp
    | error e => simp
  · exact Rule.read_eq_ok_iff.2 ⟨hr, Rule.writtenIn_text hr⟩

/-- Signs that mean something elsewhere may be terminals. -/
def ruleOfSigns : Rule where
  name := "S_A"
  alternatives := [.production "a::=-#".toList (some "B"), .epsilon, .production ['c'] none]

theorem ruleOfSigns_read : ruleOfSigns.WrittenIn " <S_A>\t::=a::=-#<B>||  ε|c |".toList ∧
    Rule.read ruleOfSigns.text = .ok ruleOfSigns := by
  have hread : Rule.read " <S_A>\t::=a::=-#<B>||  ε|c |".toList = .ok ruleOfSigns := by rfl
  obtain ⟨hwf, hwritten⟩ := (Rule.read_exactly_written.1 _ _).1 hread
  exact ⟨hwritten, Rule.read_exactly_written.2.2 ruleOfSigns hwf⟩

end TokenAutomata
