/-
# The earliest definition of a word gives its marker

A word may be matched by several definitions of a file. Determinization then
takes the marker of the lowest state, and ids are handed out definition by
definition, so the marker is that of the first definition that matches the
word (`Automaton.ofLines_earliest`). This holds where no rule refers to the
first nonterminal of its block: otherwise words of one definition go on with
words of another.

In a joined automaton whose initial states nothing leads back to, a word that
the left one accepts has its marker from there, and only a word that it does
not accept has it from the right one (`Automaton.Joined.marks_iff`).

Key definitions: `Automaton.Marks`, `Automaton.Returnless`, `Definition.Marks`,
`FirstMarks`, `Automaton.Merges`.
Key theorems: `Automaton.Joined.marks_iff`, `Automaton.automaton_marks_iff`,
`Automaton.ofLines_merges`, `Automaton.ofLines_earliest`.
-/
import TokenAutomata.Proofs.AscendingIds
import TokenAutomata.Proofs.FileLanguage
import TokenAutomata.Proofs.SubsetConstruction

namespace TokenAutomata

open scoped Computability

namespace Automaton

/-- The lowest of the states with a marker that `w` leads to is marked `t`. -/
def Marks (a : Automaton) (w : List Symbol) (t : String) : Prop :=
  ∃ p, a.LowestFinal w p ∧ a.markerOf? p = some t

/-- Nothing but the empty word leads back to the initial state. -/
def Returnless (a : Automaton) : Prop := ∀ u, a.Reaches u a.initial.id → u = []

variable {a b c : Automaton} {f : Nat → Nat} {p q : Nat} {t t' : String} {w : List Symbol}

/-! ### Lowest markers -/

theorem LowestFinal.unique (hp : a.LowestFinal w p) (hq : a.LowestFinal w q) : p = q := by
  have hpq := hp.2.2 q hq.1 hq.2.1
  have hqp := hq.2.2 p hp.1 hp.2.1
  omega

theorem Marks.unique (h : a.Marks w t) (h' : a.Marks w t') : t = t' := by
  obtain ⟨p, hp, ht⟩ := h
  obtain ⟨q, hq, ht'⟩ := h'
  obtain rfl := hp.unique hq
  exact Option.some.inj (ht.symm.trans ht')

theorem exists_lowestFinal (h : a.accepts w = true) : ∃ p, a.LowestFinal w p := by
  classical
  have hfinal := accepts_iff.1 h
  obtain ⟨hreach, hf⟩ := Nat.find_spec hfinal
  exact ⟨Nat.find hfinal, hreach, hf, fun q hq hf => Nat.find_min' hfinal ⟨hq, hf⟩⟩

/-- Just the words that are accepted have a marker. -/
theorem accepts_iff_marks : a.accepts w = true ↔ ∃ t, a.Marks w t := by
  constructor
  · intro h
    obtain ⟨p, hp⟩ := exists_lowestFinal h
    obtain ⟨t, ht⟩ := Option.isSome_iff_exists.1 hp.2.1
    exact ⟨t, p, hp, ht⟩
  · rintro ⟨t, p, hp, -⟩
    exact accepts_iff.2 ⟨p, hp.1, hp.2.1⟩

theorem marks_nil_iff : a.Marks [] t ↔ a.markerOf? a.initial.id = some t := by
  constructor
  · rintro ⟨p, ⟨hp, -⟩, ht⟩
    rw [reaches_nil_iff.1 hp] at ht
    exact ht
  · intro ht
    refine ⟨a.initial.id, ⟨reaches_nil_iff.2 rfl, by rw [ht]; rfl, fun q hq _ => ?_⟩, ht⟩
    rw [reaches_nil_iff.1 hq]

/-! ### Joining automata without ways back -/

theorem Returnless.ne_initial (ha : a.Returnless) (hw : w ≠ []) (hq : a.Reaches w q) :
    q ≠ a.initial.id := by
  rintro rfl
  exact hw (ha w hq)

namespace Joined

variable (h : Joined a b f c) (ha : a.Closed) (hb : b.Closed) (hra : a.Returnless)
  (hrb : b.Returnless)

omit h ha hb in
include hra hrb in
theorem kstar_returns_eq_one : (a.returns + b.returns)∗ = 1 :=
  kstar_eq_one_of_nil fun u hu => hu.elim (hra u) (hrb u)

include h ha hb hra hrb

theorem reaches_iff_of_returnless :
    c.Reaches w q ↔ a.Reaches w q ∨ ∃ q', b.Reaches w q' ∧ f q' = q := by
  rw [h.reaches_iff ha hb, kstar_returns_eq_one hra hrb]
  constructor
  · rintro ⟨u, rfl, v, rfl, hv⟩
    exact hv
  · intro hw
    exact ⟨[], rfl, w, rfl, hw⟩

theorem returnless : c.Returnless := by
  intro u hu
  rw [h.initial_id] at hu
  rcases (h.reaches_iff_of_returnless ha hb hra hrb).1 hu with hu | ⟨q, hu, hq⟩
  · exact hra u hu
  · have hinitial : f q ∈ a.ids := hq ▸ initial_mem_ids a
    obtain rfl := h.shared q (hu.mem_ids hb) hinitial
    exact hrb u hu

theorem accepts_iff_of_returnless :
    c.accepts w = true ↔ a.accepts w = true ∨ b.accepts w = true := by
  rw [← mem_language, h.language_eq ha hb, kstar_returns_eq_one hra hrb, one_mul]
  rfl

variable (hlow : ∀ p ∈ a.ids, ∀ q ∈ b.ids, q ≠ b.initial.id → p < f q)
  (hmono : ∀ p ∈ b.ids, ∀ q ∈ b.ids, p < q → f p < f q)

include hlow in
/-- A word that `a` accepts has its marker from there … -/
theorem marks_left (hm : a.Marks w t) : c.Marks w t := by
  by_cases hnil : w = []
  · subst hnil
    rw [marks_nil_iff] at hm ⊢
    rw [h.initial_id, h.marker_initial, hm]
    rfl
  obtain ⟨p, ⟨hp, hf, hlowest⟩, ht⟩ := hm
  have hmarker : ∀ q, a.Reaches w q → c.markerOf? q = a.markerOf? q := fun q hq =>
    h.marker_left q (hq.mem_ids ha) (hra.ne_initial hnil hq)
  refine ⟨p, ⟨h.reaches_left hp, by rw [hmarker p hp]; exact hf, fun q hq hfq => ?_⟩, ?_⟩
  · rcases (h.reaches_iff_of_returnless ha hb hra hrb).1 hq with hq | ⟨q', hq', rfl⟩
    · rw [hmarker q hq] at hfq
      exact hlowest q hq hfq
    · exact Nat.le_of_lt (hlow p (hp.mem_ids ha) q' (hq'.mem_ids hb) (hrb.ne_initial hnil hq'))
  · rw [hmarker p hp]
    exact ht

include hmono in
/-- … and one that it does not accept has it from `b`. -/
theorem marks_right (hno : ¬ a.accepts w = true) (hm : b.Marks w t) : c.Marks w t := by
  by_cases hnil : w = []
  · subst hnil
    rw [marks_nil_iff] at hm ⊢
    have hnone : a.markerOf? a.initial.id = none := by
      rw [← Option.not_isSome_iff_eq_none]
      exact fun hf => hno (accepts_iff.2 ⟨_, reaches_nil_iff.2 rfl, hf⟩)
    rw [h.initial_id, h.marker_initial, hnone, hm]
    rfl
  obtain ⟨p, ⟨hp, hf, hlowest⟩, ht⟩ := hm
  have hmarker : ∀ q, b.Reaches w q → c.markerOf? (f q) = b.markerOf? q := fun q hq =>
    h.marker_right q (hq.mem_ids hb) (hrb.ne_initial hnil hq)
  refine ⟨f p, ⟨h.reaches_right hp, by rw [hmarker p hp]; exact hf, fun q hq hfq => ?_⟩, ?_⟩
  · rcases (h.reaches_iff_of_returnless ha hb hra hrb).1 hq with hq | ⟨q', hq', rfl⟩
    · rw [h.marker_left q (hq.mem_ids ha) (hra.ne_initial hnil hq)] at hfq
      exact absurd (accepts_iff.2 ⟨q, hq, hfq⟩) hno
    · rw [hmarker q' hq'] at hfq
      have hle := hlowest q' hq' hfq
      by_cases he : p = q'
      · rw [he]
      · exact Nat.le_of_lt (hmono p (hp.mem_ids hb) q' (hq'.mem_ids hb) (by omega))
  · rw [hmarker p hp]
    exact ht

include hlow hmono in
theorem marks_iff : c.Marks w t ↔ a.Marks w t ∨ ¬ a.accepts w = true ∧ b.Marks w t := by
  constructor
  · intro hm
    have haccepts : a.accepts w = true ∨ b.accepts w = true :=
      (h.accepts_iff_of_returnless ha hb hra hrb).1 (accepts_iff_marks.2 ⟨t, hm⟩)
    by_cases hleft : a.accepts w = true
    · obtain ⟨t', ht'⟩ := accepts_iff_marks.1 hleft
      rw [hm.unique (h.marks_left ha hb hra hrb hlow ht')]
      exact Or.inl ht'
    · obtain ⟨t', ht'⟩ := accepts_iff_marks.1 (haccepts.resolve_left hleft)
      rw [hm.unique (h.marks_right ha hb hra hrb hmono hleft ht')]
      exact Or.inr ⟨hleft, ht'⟩
  · rintro (hm | ⟨hno, hm⟩)
    · exact h.marks_left ha hb hra hrb hlow hm
    · exact h.marks_right ha hb hra hrb hmono hno hm

end Joined
end Automaton

/-! ### Definitions -/

/-- The marker that the definition gives to a word it matches: a token rule
its token, a word itself in upper case, and a block the marker of the lowest
state that the word leads to in the automaton of the block. -/
def Definition.Marks : Definition → List Symbol → String → Prop
  | .block rules, w, t => ∃ a : Automaton, Automaton.ofRules rules = .ok a ∧ a.Marks w t
  | .tokenRule token _, _, t => t = token
  | .sentence word, _, t => t = Text.uppercase (String.ofList word)

/-- The first definition that matches the word gives it the marker. -/
def FirstMarks (definitions : List Definition) (w : List Symbol) (t : String) : Prop :=
  ∃ before d after, definitions = before ++ d :: after ∧ (∀ e ∈ before, ¬ e.Matches w) ∧
    d.Matches w ∧ d.Marks w t

variable {d : Definition} {definitions : List Definition} {t : String} {w : List Symbol}

/-- A definition put behind others gives its marker where none of them matches. -/
theorem firstMarks_concat_iff : FirstMarks (definitions ++ [d]) w t ↔
    FirstMarks definitions w t ∨ (∀ e ∈ definitions, ¬ e.Matches w) ∧ d.Matches w ∧ d.Marks w t := by
  constructor
  · rintro ⟨before, e, after, hsplit, hbefore, he⟩
    rcases List.eq_nil_or_concat after with rfl | ⟨after', e', rfl⟩
    · obtain ⟨rfl, hlast⟩ := List.append_inj' hsplit rfl
      obtain rfl : d = e := List.singleton_inj.1 hlast
      exact Or.inr ⟨hbefore, he⟩
    · rw [List.concat_eq_append, ← List.cons_append, ← List.append_assoc] at hsplit
      obtain ⟨rfl, -⟩ := List.append_inj' hsplit rfl
      exact Or.inl ⟨before, e, after', rfl, hbefore, he⟩
  · rintro (⟨before, e, after, rfl, he⟩ | he)
    · exact ⟨before, e, after ++ [d], by simp, he⟩
    · exact ⟨definitions, d, [], rfl, he⟩

namespace Automaton

variable {a b c : Automaton}

theorem ofLiteral_marks_iff {token : String} {literal : List Symbol} (htoken : token ≠ "")
    (hne : literal ≠ []) (h : ofLiteral token literal = .ok b) :
    b.Marks w t ↔ w = literal ∧ t = token := by
  obtain ⟨declared, role, hb, hroot⟩ := ofLiteral_compiled htoken hne h
  have haccepts : b.accepts w = true ↔ w = literal := by
    rw [← mem_language, (ofLiteral_denotes htoken hne h).language, kstar_zero, one_mul]
    rfl
  have hmarker : ∀ {t}, b.Marks w t → t = token := by
    rintro t ⟨p, ⟨hp, -⟩, ht⟩
    obtain ⟨u, v, -, hu, -⟩ := (hb.word_iff hroot).1 ⟨p, hp, ht⟩
    exact (derives_literalRule hu).1.symm
  constructor
  · intro hm
    exact ⟨haccepts.1 (accepts_iff_marks.2 ⟨t, hm⟩), hmarker hm⟩
  · rintro ⟨hw, rfl⟩
    obtain ⟨t', ht'⟩ := accepts_iff_marks.1 (haccepts.2 hw)
    rw [hmarker ht'] at ht'
    exact ht'

section Definition

variable (hd : d.WellFormed) (hno : ¬ d.Reenters) (h : d.automaton = .ok b)

include hno in
theorem kstar_returns_of_not_reenters : d.keptReturns∗ = 1 :=
  kstar_eq_one_of_nil fun _ hu => eq_nil_of_returns hno hu.1

include hd hno h

theorem automaton_returnless : b.Returnless := by
  intro u hu
  have hstar : u ∈ b.returns∗ := mem_kstar_of_mem hu
  rw [(d.automaton_denotes hd h).returns, kstar_returns_of_not_reenters hno] at hstar
  exact hstar

theorem automaton_accepts_iff : b.accepts w = true ↔ d.Matches w := by
  rw [← mem_language, (d.automaton_denotes hd h).language, kstar_returns_of_not_reenters hno, one_mul]
  rfl

/-- The automaton of a definition gives a word the marker that the definition
gives it. -/
theorem automaton_marks_iff : b.Marks w t ↔ d.Matches w ∧ d.Marks w t := by
  cases d with
  | block rules =>
    constructor
    · intro hm
      exact ⟨(automaton_accepts_iff hd hno h).1 (accepts_iff_marks.2 ⟨t, hm⟩), b, h, hm⟩
    · rintro ⟨-, b', hb', hm⟩
      obtain rfl : b = b' := Except.ok.inj (h.symm.trans hb')
      exact hm
  | tokenRule token literal =>
    exact ofLiteral_marks_iff (ne_empty_of_isTokenName hd.1) hd.2 (mapError_eq_ok.1 h)
  | sentence word => exact ofLiteral_marks_iff (Text.uppercase_ne_empty hd) hd (mapError_eq_ok.1 h)

end Definition

/-! ### Files -/

/-- `a` accepts what the definitions match, with the marker of the first that
does, and nothing leads back to its initial state. -/
structure Merges (definitions : List Definition) (a : Automaton) : Prop where
  closed : a.Closed
  returnless : a.Returnless
  accepts : ∀ w, a.accepts w = true ↔ ∃ d ∈ definitions, d.Matches w
  marks : ∀ w t, a.Marks w t ↔ FirstMarks definitions w t

theorem merges_new : new.Merges [] := by
  have hmarker : ∀ w t, ¬ new.Marks w t := fun w t hm => by
    obtain ⟨p, -, ht⟩ := hm
    rw [markerOf?_new] at ht
    cases ht
  refine ⟨withInitial_closed rootLabel, fun _ hu => eq_nil_of_reaches_new hu, fun w => ?_, fun w t => ?_⟩
  · rw [accepts_iff_marks]
    simp [hmarker]
  · simp [hmarker, FirstMarks]

/-- One more definition. -/
theorem Merges.joined (ha : a.Merges definitions) (hwf : a.WellFormed) (hd : d.WellFormed)
    (hno : ¬ d.Reenters) (hb : d.automaton = .ok b) (h : Joined a b (a.joinedId b) c) :
    c.Merges (definitions ++ [d]) := by
  have hnew : new.WellFormed ∧ new.Ascending := ⟨withInitial_wellFormed _, List.pairwise_singleton _ _⟩
  obtain ⟨hbwf, hascending⟩ := ascending_kept.compiling.definition hnew hb
  have hbc : b.Closed := (d.automaton_denotes hd hb).closed
  have hrb := automaton_returnless hd hno hb
  refine ⟨h.closed ha.closed hbc, h.returnless ha.closed hbc ha.returnless hrb, fun w => ?_, fun w t => ?_⟩
  · rw [h.accepts_iff_of_returnless ha.closed hbc ha.returnless hrb, ha.accepts,
      automaton_accepts_iff hd hno hb]
    simp only [List.mem_append, List.mem_singleton, or_and_right, exists_or, exists_eq_left]
  · have hlow : ∀ p ∈ a.ids, ∀ q ∈ b.ids, q ≠ b.initial.id → p < a.joinedId b q :=
      fun p hp q hq hne => lt_joinedId hwf hbwf hp hq hne
    have hmono : ∀ p ∈ b.ids, ∀ q ∈ b.ids, p < q → a.joinedId b p < a.joinedId b q :=
      fun p hp q hq hlt => joinedId_lt hwf hbwf hascending hp hq hlt
    have hnone : ¬ a.accepts w = true ↔ ∀ e ∈ definitions, ¬ e.Matches w := by
      rw [ha.accepts]
      simp
    rw [h.marks_iff ha.closed hbc ha.returnless hrb hlow hmono, ha.marks,
      automaton_marks_iff hd hno hb, hnone, firstMarks_concat_iff]

theorem ofLines_merges {lines : List (List Char)} {n : Automaton} (h : ofLines lines = .ok n) :
    ∃ kinds, lines.map Line.classify = kinds.map .ok ∧
      ((∀ d ∈ definitionsIn kinds, ¬ d.Reenters) → n.Merges (definitionsIn kinds)) := by
  let P (definitions : List Definition) (a : Automaton) : Prop :=
    (∀ d ∈ definitions, ¬ d.Reenters) → a.Merges definitions
  have hstep : ∀ (definitions : List Definition) (a b c : Automaton) (d : Definition), P definitions a →
      d.WellFormed → d.automaton = .ok b → a.WellFormed → Joined a b (a.joinedId b) c →
      P (definitions ++ [d]) c := by
    intro definitions a b c d ha hd hb hwf hjoined hno
    rw [List.forall_mem_append, List.forall_mem_singleton] at hno
    exact (ha hno.1).joined hwf hd hno.2 hb hjoined
  exact ofLines_induction hstep (fun _ => merges_new) h

/-- The automaton of a file can be determinized. The result accepts what some
definition of the file matches, and marks it as the first definition that
matches it does, if no rule refers to the first nonterminal of its block. -/
theorem ofLines_earliest {lines : List (List Char)} {n : Automaton} (h : ofLines lines = .ok n) :
    ∃ kinds d, lines.map Line.classify = kinds.map .ok ∧ n.determinize = .ok d ∧
      ((∀ e ∈ definitionsIn kinds, ¬ e.Reenters) → ∀ w,
        (d.accepts w = true ↔ ∃ e ∈ definitionsIn kinds, e.Matches w) ∧
        ∀ q, d.Reaches w q → ∀ t, d.markerOf? q = some t ↔ FirstMarks (definitionsIn kinds) w t) := by
  have hwf := ofLines_wellFormed h
  obtain ⟨_, -, hdenotes⟩ := ofLines_denotes h
  obtain ⟨d, hrun, hd⟩ := determinize_states (validate_eq_ok_iff.2 hdenotes.closed)
  obtain ⟨kinds, hkinds, hmerges⟩ := ofLines_merges h
  refine ⟨kinds, d, hkinds, hrun, fun hno w => ⟨?_, fun q hq t => ?_⟩⟩
  · rw [hd.accepts_eq hwf]
    exact (hmerges hno).accepts w
  · exact (hd.marker_iff hwf hq).trans ((hmerges hno).marks w t)

/-- A token rule, a block and a word, all of which match `if`. -/
def threeTimesIf : List (List Char) :=
  ["KEY -> if".toList, "<S> ::= i<F>".toList, "<F> ::= f | g".toList, "if".toList]

def enterRule : Rule := { name := "S", alternatives := [.production ['i'] (some "F")] }

def leaveRule : Rule :=
  { name := "F", alternatives := [.production ['f'] none, .production ['g'] none] }

def threeTimesIfKinds : List Line :=
  [.tokenRule "KEY" ['i', 'f'], .expression enterRule, .expression leaveRule, .sentence ['i', 'f']]

theorem definitionsIn_threeTimesIf : definitionsIn threeTimesIfKinds =
    [.tokenRule "KEY" ['i', 'f'], .block [enterRule, leaveRule], .sentence ['i', 'f']] := by
  decide +kernel

theorem threeTimesIf_earliest : ∃ n d, ofLines threeTimesIf = .ok n ∧ n.determinize = .ok d ∧
    d.accepts ['i', 'f'] = true ∧ ∀ q, d.Reaches ['i', 'f'] q → d.markerOf? q = some "KEY" := by
  have hread : (DefinitionFile.read threeTimesIf).definitions.map Located.value =
      [.tokenRule "KEY" ['i', 'f'], .block [enterRule, leaveRule], .sentence ['i', 'f']] := by
    decide +kernel
  obtain ⟨n, hn⟩ := exists_ofLines (by decide +kernel) hread <| by
    simp only [List.forall_mem_cons]
    exact ⟨⟨_, rfl⟩, ⟨_, rfl⟩, ⟨_, rfl⟩, fun d hd => absurd hd List.not_mem_nil⟩
  obtain ⟨kinds, d, hkinds, hd, hearliest⟩ := ofLines_earliest hn
  obtain rfl : kinds = threeTimesIfKinds := kinds_unique hkinds (by decide +kernel)
  rw [definitionsIn_threeTimesIf] at hearliest
  have hno : ¬ (Definition.block [enterRule, leaveRule]).Reenters := by
    rintro ⟨first, hfirst, rule, hrule, u, halt⟩
    cases hfirst
    simp only [List.mem_cons, List.not_mem_nil, or_false] at hrule
    rcases hrule with rfl | rfl
    · simp [enterRule] at halt
    · simp [leaveRule] at halt
  have hnone : ∀ e ∈ [Definition.tokenRule "KEY" ['i', 'f'], .block [enterRule, leaveRule],
      .sentence ['i', 'f']], ¬ e.Reenters := by
    simp only [List.forall_mem_cons]
    exact ⟨id, hno, id, fun d hd => absurd hd List.not_mem_nil⟩
  obtain ⟨haccepts, hmarkers⟩ := hearliest hnone ['i', 'f']
  refine ⟨n, d, hn, hd, haccepts.2 ⟨_, List.mem_cons_self, rfl⟩, fun q hq => ?_⟩
  exact (hmarkers q hq "KEY").2 ⟨[], _, _, rfl, fun e he => absurd he List.not_mem_nil, rfl, rfl⟩

end Automaton
end TokenAutomata
