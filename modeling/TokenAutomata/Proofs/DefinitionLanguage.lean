/-
# What a definition matches

A definition matches words (`Definition.Matches`): a token rule its text, a
word itself, a block what its rules derive from the first nonterminal. A block
may also derive, from its first nonterminal, a text with that nonterminal
behind (`Definition.Returns`). Its automaton reads such a text back into the
initial state, unless pruning has cut the way: all ways back are kept if the
block derives a word (`Definition.keptReturns`).

The automaton of a definition has just these words as its language, and what
leads it back to its initial state are repetitions of such texts
(`Definition.automaton_denotes`).

Key definitions: `Definition.Matches`, `Definition.Returns`,
`Definition.keptReturns`, `Automaton.keptReturns`, `Automaton.Denotes`.
Key theorems: `Automaton.Compiled.mem_language_iff`, `Automaton.pruned_language`,
`Automaton.kstar_returns_pruned`, `Automaton.ofLiteral_denotes`,
`Automaton.ofRules_denotes`, `Definition.automaton_denotes`.
-/
import TokenAutomata.Proofs.FileDefinitions
import TokenAutomata.Proofs.JoinedLanguage
import TokenAutomata.Proofs.Pruning
import TokenAutomata.Proofs.RuleAutomaton

namespace TokenAutomata

open scoped Computability

/-- The definition matches the word. -/
def Definition.Matches : Definition → List Symbol → Prop
  | .block rules, w => ∃ first ∈ rules.head?, ∃ m, DerivesWord rules first.name w m
  | .tokenRule _ literal, w => w = literal
  | .sentence word, w => w = word

/-- The first nonterminal of the definition derives `u` with itself behind. -/
def Definition.Returns : Definition → List Symbol → Prop
  | .block rules, u => ∃ first ∈ rules.head?, Derives rules first.name u first.name
  | _, _ => False

/-- The words that the definition matches. -/
def Definition.language (d : Definition) : Language Symbol := {w | d.Matches w}

/-- The texts that lead the definition back to its first nonterminal and are
not lost by pruning. Where no word is derived, single symbols are left. -/
def Definition.keptReturns (d : Definition) : Language Symbol :=
  {u | d.Returns u ∧ ((∃ w, d.Matches w) ∨ u.length ≤ 1)}

theorem Rule.WellFormed.proper {r : Rule} (h : r.WellFormed) : r.Proper where
  name he := by
    have hname := h.name
    rw [he] at hname
    cases hname
  terminals _ _ halt := (h.alternatives _ halt).1

namespace Automaton

/-- What leads back to the initial state and is not lost by pruning. -/
def keptReturns (a : Automaton) : Language Symbol :=
  {u | u ∈ a.returns ∧ ((∃ w, w ∈ a.language) ∨ u.length ≤ 1)}

/-- The automaton reads repetitions of `back` before a word of `words`. -/
structure Denotes (a : Automaton) (back words : Language Symbol) : Prop where
  closed : a.Closed
  returns : a.returns∗ = back∗
  language : a.language = back∗ * words

variable {rules : List Rule} {role : Nat → Role} {a : Automaton} {declared : List (Rule × Nat)}
  {n : String} {u w : List Symbol}

/-! ### Compiled rules -/

namespace Compiled

variable (h : Compiled rules declared role a) (hroot : stateOf? declared n = some a.initial.id)

include h

theorem closed : a.Closed := closed_of_dests h.spells.wellFormed h.spells.closed

include hroot

theorem mem_language_iff : w ∈ a.language ↔ ∃ m, DerivesWord rules n w m := by
  rw [mem_language, accepts_iff]
  constructor
  · rintro ⟨q, hq, hf⟩
    obtain ⟨m, hm⟩ := Option.isSome_iff_exists.1 hf
    exact ⟨m, (h.word_iff hroot).1 ⟨q, hq, hm⟩⟩
  · rintro ⟨m, hm⟩
    obtain ⟨q, hq, ht⟩ := (h.word_iff hroot).2 hm
    exact ⟨q, hq, by rw [ht]; rfl⟩

theorem mem_returns_iff : u ∈ a.returns ↔ Derives rules n u n := h.path_iff hroot hroot

end Compiled

/-! ### Pruning -/

section Pruning

variable (ha : a.WellFormed)

include ha

theorem pruned_language : a.pruned.language = a.language := by
  ext w
  rw [mem_language, mem_language, accepts_iff, accepts_iff]
  simp only [Option.isSome_iff_exists]
  constructor
  · rintro ⟨q, hq, t, ht⟩
    obtain ⟨q', hq', ht'⟩ := (pruned_word_iff ha).1 ⟨q, hq, ht⟩
    exact ⟨q', hq', t, ht'⟩
  · rintro ⟨q, hq, t, ht⟩
    obtain ⟨q', hq', ht'⟩ := (pruned_word_iff ha).2 ⟨q, hq, ht⟩
    exact ⟨q', hq', t, ht'⟩

theorem initial_mem_live_iff : a.initial.id ∈ a.live ↔ ∃ w, w ∈ a.language := by
  rw [mem_live_iff ha]
  constructor
  · rintro ⟨w, q, hq, hf⟩
    exact ⟨w, accepts_iff.2 ⟨q, hq, hf⟩⟩
  · rintro ⟨w, hw⟩
    obtain ⟨q, hq, hf⟩ := accepts_iff.1 hw
    exact ⟨w, q, hq, hf⟩

theorem mem_kept_returns_iff_of_live (hlive : a.initial.id ∈ a.live) :
    u ∈ a.keptReturns ↔ u ∈ a.pruned.returns := by
  have hword := (initial_mem_live_iff ha).1 hlive
  have hsame : u ∈ a.pruned.returns ↔ u ∈ a.returns := pruned_returns_iff ha hlive
  rw [hsame]
  exact ⟨fun hu => hu.1, fun hu => ⟨hu, Or.inl hword⟩⟩

/-- Without a word, what leads back is made of moves from the initial state to
itself. -/
theorem mem_kstar_kept_of_not_live (hc : a.Closed) (hlive : a.initial.id ∉ a.live)
    (hu : u ∈ a.pruned.returns) : u ∈ a.keptReturns∗ := by
  have hmoves := (pruned_reaches_of_not_live ha hc hlive hu).2
  have hflatten : (u.map fun x => [x]).flatten = u := by
    rw [← List.flatMap_def, List.flatMap_singleton']
  rw [← hflatten]
  refine Language.join_mem_kstar fun y hy => ?_
  obtain ⟨x, hx, rfl⟩ := List.mem_map.1 hy
  exact ⟨hmoves x hx, Or.inr (Nat.le_refl 1)⟩

theorem mem_returns_of_length_le (hu : u ∈ a.returns) (hlength : u.length ≤ 1) :
    u ∈ a.pruned.returns := by
  rw [mem_returns, Reaches, initial_id_pruned]
  cases u with
  | nil => exact .nil _
  | cons x u =>
    have hnil : u = [] := List.eq_nil_of_length_eq_zero (by simpa using hlength)
    subst hnil
    have hmove : a.initial.id ∈ a.dests a.initial.id x := path_singleton_iff.1 hu
    exact path_singleton_iff.2 (pruned_loop ha hmove)

/-- Repetitions of what leads back to the initial state are left. -/
theorem kstar_returns_pruned (hc : a.Closed) : a.pruned.returns∗ = a.keptReturns∗ := by
  by_cases hlive : a.initial.id ∈ a.live
  · have hsame : a.keptReturns = a.pruned.returns :=
      Language.ext fun u => mem_kept_returns_iff_of_live ha hlive
    rw [hsame]
  · ext w
    constructor
    · exact mem_kstar_of_forall fun u hu => mem_kstar_kept_of_not_live ha hc hlive hu
    · refine mem_kstar_of_forall fun u hu => ?_
      have hnone : ¬ ∃ w, w ∈ a.language := fun hw => hlive ((initial_mem_live_iff ha).2 hw)
      have hlength : u.length ≤ 1 := hu.2.resolve_left hnone
      exact mem_kstar_of_mem (mem_returns_of_length_le ha hu.1 hlength)

end Pruning

/-! ### Texts -/

/-- What leads back can be left out in front of an accepted word. -/
theorem kstar_returns_mul_language : a.returns∗ * a.language = a.language := by
  ext w
  rw [Language.mem_mul]
  constructor
  · rintro ⟨u, hu, v, hv, rfl⟩
    obtain ⟨q, hq, hf⟩ := accepts_iff.1 hv
    exact accepts_iff.2 ⟨q, Reaches.append_kstar hu hq, hf⟩
  · intro hw
    exact ⟨[], Language.nil_mem_kstar a.returns, w, hw, rfl⟩

theorem denotes_of_eq {back : Language Symbol} (hc : a.Closed) (hreturns : a.returns∗ = back∗) :
    a.Denotes back a.language :=
  ⟨hc, hreturns, by rw [← hreturns, kstar_returns_mul_language]⟩

theorem derives_literalRule {token : String} {literal : List Symbol} {m : String}
    (h : Derives [literalRule token literal] n u m) : n = m ∧ u = [] := by
  refine h.of_not_referred fun rule hrule v halt => ?_
  rw [List.mem_singleton.1 hrule] at halt
  have hv := List.mem_singleton.1 halt
  cases hv

theorem derivesWord_literalRule {token : String} {literal : List Symbol} :
    (∃ m, DerivesWord [literalRule token literal] token w m) ↔ w = literal := by
  constructor
  · rintro ⟨m, u, v, rfl, hu, hv⟩
    obtain ⟨rfl, rfl⟩ := derives_literalRule hu
    generalize hn : token = m at hv
    cases hv with
    | epsilon hrule halt =>
      rw [List.mem_singleton.1 hrule] at halt
      have he := List.mem_singleton.1 halt
      cases he
    | terminals hrule halt =>
      rw [List.mem_singleton.1 hrule] at halt
      have he := List.mem_singleton.1 halt
      cases he
      rfl
  · rintro rfl
    have hends : Ends [literalRule token w] token w :=
      @Ends.terminals _ (literalRule token w) w List.mem_cons_self List.mem_cons_self
    exact ⟨token, [], w, rfl, .refl token, hends⟩

/-- The automaton of a text denotes the text. -/
theorem ofLiteral_denotes {token : String} {literal : List Symbol} {b : Automaton} (htoken : token ≠ "")
    (hne : literal ≠ []) (h : ofLiteral token literal = .ok b) : b.Denotes 0 {literal} := by
  obtain ⟨declared, role, hb, hroot⟩ := ofLiteral_compiled htoken hne h
  have hlanguage : b.language = {literal} := by
    ext w
    rw [hb.mem_language_iff hroot, derivesWord_literalRule]
    rfl
  have hreturns : b.returns∗ = (0 : Language Symbol)∗ := by
    ext w
    constructor
    · refine mem_kstar_of_forall fun u hu => ?_
      have hnil : u = [] := (derives_literalRule ((hb.mem_returns_iff hroot).1 hu)).2
      rw [hnil]
      exact Language.nil_mem_kstar 0
    · exact mem_kstar_of_forall fun u hu => absurd hu (Language.notMem_zero u)
  rw [← hlanguage]
  exact denotes_of_eq hb.closed hreturns

/-! ### Blocks -/

/-- The automaton of a block denotes what is derived from the first rule. -/
theorem ofRules_denotes {first : Rule} {rest : List Rule} {b : Automaton}
    (hrules : ∀ rule ∈ first :: rest, rule.WellFormed) (h : ofRules (first :: rest) = .ok b) :
    b.Denotes (Definition.block (first :: rest)).keptReturns
      (Definition.block (first :: rest)).language := by
  obtain ⟨declared, role, a, ha, hroot, rfl⟩ :=
    ofRules_compiled (fun rule hrule => (hrules rule hrule).proper) h
  have hwf := ha.spells.wellFormed
  have hmatches : ∀ w, (Definition.block (first :: rest)).Matches w ↔
      ∃ m, DerivesWord (first :: rest) first.name w m := fun w => by simp [Definition.Matches]
  have hback : ∀ u, (Definition.block (first :: rest)).Returns u ↔
      Derives (first :: rest) first.name u first.name := fun u => by simp [Definition.Returns]
  have hlanguage : a.pruned.language = (Definition.block (first :: rest)).language := by
    ext w
    rw [pruned_language hwf, ha.mem_language_iff hroot]
    exact (hmatches w).symm
  have hkept : a.keptReturns = (Definition.block (first :: rest)).keptReturns := by
    ext u
    have hword : (∃ w, w ∈ a.language) ↔ ∃ w, (Definition.block (first :: rest)).Matches w :=
      exists_congr fun w => (ha.mem_language_iff hroot).trans (hmatches w).symm
    have hreturns : u ∈ a.returns ↔ (Definition.block (first :: rest)).Returns u :=
      (ha.mem_returns_iff hroot).trans (hback u).symm
    exact and_congr hreturns (or_congr_left hword)
  rw [← hlanguage, ← hkept]
  exact denotes_of_eq (pruned_closed hwf ha.closed) (kstar_returns_pruned hwf ha.closed)

end Automaton

/-! ### Definitions -/

theorem Text.uppercaseChar_ne_nil (c : Char) : Text.uppercaseChar c ≠ [] := by
  have hexpansions : ∀ e ∈ Text.caseExpansions, e.2 ≠ [] := by decide
  unfold Text.uppercaseChar
  cases hlookup : Text.caseExpansions.lookup c.toNat with
  | some expansion =>
    obtain ⟨before, after, htable, -⟩ := List.lookup_eq_some_iff.1 hlookup
    have hmem : (c.toNat, expansion) ∈ Text.caseExpansions := by
      rw [htable]
      exact List.mem_append_right before List.mem_cons_self
    have hne : expansion ≠ [] := hexpansions _ hmem
    simpa using hne
  | none => cases Text.caseRuns.findSome? (·.map? c.toNat) <;> simp

/-- A word has a token's name. -/
theorem Text.uppercase_ne_empty {word : List Symbol} (hne : word ≠ []) :
    Text.uppercase (String.ofList word) ≠ "" := by
  obtain ⟨c, rest, rfl⟩ := List.exists_cons_of_ne_nil hne
  unfold Text.uppercase
  rw [String.toList_ofList, List.flatMap_cons]
  intro he
  have hnil : Text.uppercaseChar c ++ rest.flatMap Text.uppercaseChar = [] := by
    rw [← String.toList_ofList (l := Text.uppercaseChar c ++ rest.flatMap Text.uppercaseChar), he]
    rfl
  exact Text.uppercaseChar_ne_nil c (List.append_eq_nil_iff.1 hnil).1

theorem ne_empty_of_isTokenName {token : String} (h : isTokenName token.toList = true) : token ≠ "" := by
  rintro rfl
  cases h

/-- The automaton of a definition denotes what the definition matches. -/
theorem Definition.automaton_denotes {d : Definition} {b : Automaton} (hd : d.WellFormed)
    (h : d.automaton = .ok b) : b.Denotes d.keptReturns d.language := by
  have hnone : ∀ {d : Definition}, (∀ u, ¬ d.Returns u) → d.keptReturns = 0 := fun hno =>
    Language.ext fun u => ⟨fun hu => absurd hu.1 (hno u), fun hu => absurd hu (Language.notMem_zero u)⟩
  cases d with
  | block rules =>
    cases rules with
    | nil => exact absurd rfl hd.1
    | cons first rest => exact Automaton.ofRules_denotes hd.2 h
  | tokenRule token literal =>
    rw [hnone (d := .tokenRule token literal) fun _ hu => hu]
    exact Automaton.ofLiteral_denotes (ne_empty_of_isTokenName hd.1) hd.2 (mapError_eq_ok.1 h)
  | sentence word =>
    rw [hnone (d := .sentence word) fun _ hu => hu]
    exact Automaton.ofLiteral_denotes (Text.uppercase_ne_empty hd) hd (mapError_eq_ok.1 h)

end TokenAutomata
