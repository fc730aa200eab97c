/-
# The language of a definition file

The automata of all definitions of a file share their initial state. So a word
is accepted if some definition matches it, and also if texts that lead some
definitions back to their first nonterminals stand in front of such a word
(`Automaton.ofLines_accepts`). In a file where no rule refers to the first
nonterminal of its block there are no such texts, and the language is the
union of what the definitions match.

Joining adds up what automata denote (`Automaton.Joined.denotes`), and so does
the joining of all definitions in order (`Automaton.ofLines_denotes`).

Key definitions: `definedLanguage`, `definedReturns`, `Definition.Reenters`.
Key theorems: `Automaton.Joined.denotes`, `Automaton.ofLines_denotes`,
`Automaton.ofLines_accepts`.
-/
import TokenAutomata.Proofs.DefinitionLanguage
import TokenAutomata.Proofs.FileBuilding

namespace TokenAutomata

open scoped Computability

/-! ### Stars of sums -/

section Kleene

variable {K : Type} [KleeneAlgebra K] {x y : K}

theorem kstar_add_kstar (x y : K) : (x∗ + y∗)∗ = (x + y)∗ := by
  have hx : x∗ ≤ (x + y)∗ := kstar_mono le_self_add
  have hy : y∗ ≤ (x + y)∗ := kstar_mono le_add_self
  apply le_antisymm
  · calc (x∗ + y∗)∗ ≤ ((x + y)∗)∗ := kstar_mono (add_le hx hy)
      _ = (x + y)∗ := kstar_idem (x + y)
  · exact kstar_mono (add_le_add le_kstar le_kstar)

theorem kstar_mul_kstar_of_le (h : x ≤ y) : y∗ * x∗ = y∗ := by
  apply le_antisymm
  · calc y∗ * x∗ ≤ y∗ * y∗ := by gcongr
      _ = y∗ := kstar_mul_kstar y
  · calc y∗ = y∗ * 1 := (mul_one _).symm
      _ ≤ y∗ * x∗ := by gcongr; exact one_le_kstar

/-- Stars of parts disappear behind the star of the sum. -/
theorem kstar_add_mul (x y z z' : K) : (x + y)∗ * (x∗ * z + y∗ * z') = (x + y)∗ * (z + z') := by
  have hx : (x + y)∗ * x∗ = (x + y)∗ := kstar_mul_kstar_of_le le_self_add
  have hy : (x + y)∗ * y∗ = (x + y)∗ := kstar_mul_kstar_of_le le_add_self
  rw [mul_add, mul_add, ← mul_assoc, ← mul_assoc, hx, hy]

end Kleene

/-- The words that some definition of the lines matches. -/
def definedLanguage (kinds : List Line) : Language Symbol := {w | ∃ d, Defines kinds d ∧ d.Matches w}

/-- The texts that lead some definition of the lines back and are kept. -/
def definedReturns (kinds : List Line) : Language Symbol :=
  {u | ∃ d, Defines kinds d ∧ u ∈ d.keptReturns}

/-- A rule refers to the first nonterminal of its block. -/
def Definition.Reenters : Definition → Prop
  | .block rules => ∃ first ∈ rules.head?, ∃ rule ∈ rules,
      ∃ u, .production u (some first.name) ∈ rule.alternatives
  | _ => False

namespace Automaton

variable {a b c : Automaton} {back back' words words' : Language Symbol}

/-! ### Joining -/

/-- Joining adds up what is denoted. -/
theorem Joined.denotes {f : Nat → Nat} (h : Joined a b f c) (ha : a.Denotes back words)
    (hb : b.Denotes back' words') : c.Denotes (back + back') (words + words') := by
  have hstar : (a.returns + b.returns)∗ = (back + back')∗ := by
    rw [← kstar_add_kstar, ha.returns, hb.returns, kstar_add_kstar]
  refine ⟨h.closed ha.closed hb.closed, ?_, ?_⟩
  · rw [h.returns_eq ha.closed hb.closed, kstar_idem, hstar]
  · rw [h.language_eq ha.closed hb.closed, hstar, ha.language, hb.language, kstar_add_mul]

/-! ### Files -/

theorem mem_sum_map {α : Type} {f : α → Language Symbol} {w : List Symbol} : ∀ {xs : List α},
    w ∈ (xs.map f).sum ↔ ∃ x ∈ xs, w ∈ f x
  | [] => by simp
  | x :: xs => by
    rw [List.map_cons, List.sum_cons, Language.mem_add, mem_sum_map]
    simp

/-- The automaton to start with accepts nothing and has no moves. -/
theorem new_denotes : new.Denotes 0 0 := by
  have hclosed : new.Closed := withInitial_closed rootLabel
  have hlanguage : new.language = 0 := by
    ext w
    rw [mem_language, accepts_iff]
    simp [markerOf?_new]
  have hreturns : new.returns∗ = (0 : Language Symbol)∗ := by
    rw [kstar_zero]
    exact kstar_eq_one_of_nil fun _ hu => eq_nil_of_reaches_new hu
  have hdenotes := denotes_of_eq hclosed hreturns
  rw [hlanguage] at hdenotes
  exact hdenotes

/-- The automaton of a file denotes what its lines define. -/
theorem ofLines_denotes {lines : List (List Char)} {n : Automaton} (h : ofLines lines = .ok n) :
    ∃ kinds, lines.map Line.classify = kinds.map .ok ∧
      n.Denotes (definedReturns kinds) (definedLanguage kinds) := by
  have hstep : ∀ (definitions : List Definition) (a b c : Automaton) (d : Definition),
      a.Denotes (definitions.map Definition.keptReturns).sum (definitions.map Definition.language).sum →
      d.WellFormed → d.automaton = .ok b → a.WellFormed → Joined a b (a.joinedId b) c →
      c.Denotes ((definitions ++ [d]).map Definition.keptReturns).sum
        ((definitions ++ [d]).map Definition.language).sum := by
    intro definitions a b c d ha hd hb _ hjoined
    have hdenotes := hjoined.denotes ha (Definition.automaton_denotes hd hb)
    simpa using hdenotes
  obtain ⟨kinds, hkinds, hdenotes⟩ := ofLines_induction hstep new_denotes h
  have hreturns : ((definitionsIn kinds).map Definition.keptReturns).sum = definedReturns kinds := by
    ext u
    rw [mem_sum_map]
    exact exists_congr fun d => and_congr_left' mem_definitionsIn_iff
  have hlanguage : ((definitionsIn kinds).map Definition.language).sum = definedLanguage kinds := by
    ext w
    rw [mem_sum_map]
    exact exists_congr fun d => and_congr_left' mem_definitionsIn_iff
  rw [hreturns, hlanguage] at hdenotes
  exact ⟨kinds, hkinds, hdenotes⟩

/-- Where no rule refers to the first nonterminal of its block, nothing leads
back to it. -/
theorem eq_nil_of_returns {d : Definition} {u : List Symbol} (hd : ¬ d.Reenters) (hu : d.Returns u) :
    u = [] := by
  cases d with
  | block rules =>
    obtain ⟨first, hfirst, hderives⟩ := hu
    refine (hderives.of_not_referred fun rule hrule v halt => hd ?_).2
    exact ⟨first, hfirst, rule, hrule, v, halt⟩
  | tokenRule token literal => exact hu.elim
  | sentence word => exact hu.elim

/-- Where every block whose rules refer to its first nonterminal derives a
word, no way back is lost. -/
theorem mem_definedReturns_iff {kinds : List Line} {u : List Symbol}
    (hword : ∀ d, Defines kinds d → d.Reenters → ∃ w, d.Matches w) :
    u ∈ definedReturns kinds ↔ ∃ d, Defines kinds d ∧ d.Returns u := by
  refine exists_congr fun d => and_congr_right fun hd => ⟨fun hu => hu.1, fun hu => ⟨hu, ?_⟩⟩
  by_cases hreenters : d.Reenters
  · exact Or.inl (hword d hd hreenters)
  · rw [eq_nil_of_returns hreenters hu]
    exact Or.inr (Nat.zero_le 1)

/-- A file denotes texts that lead back, one after the other, and then a word
of a definition. -/
theorem Denotes.accepts_iff {kinds : List Line} {n : Automaton} {w : List Symbol}
    (h : n.Denotes (definedReturns kinds) (definedLanguage kinds)) :
    n.accepts w = true ↔ ∃ (us : List (List Symbol)) (v : List Symbol), w = us.flatten ++ v ∧
      (∀ u ∈ us, u ∈ definedReturns kinds) ∧ ∃ d, Defines kinds d ∧ d.Matches v := by
  rw [← mem_language, h.language, Language.mem_mul]
  constructor
  · rintro ⟨u, hu, v, hv, rfl⟩
    obtain ⟨us, rfl, hus⟩ := Language.mem_kstar.1 hu
    exact ⟨us, v, rfl, hus, hv⟩
  · rintro ⟨us, v, rfl, hus, hv⟩
    exact ⟨us.flatten, Language.join_mem_kstar hus, v, hv, rfl⟩

/-- The automaton of a file accepts what a definition matches, also after
texts that lead blocks which derive a word from their first nonterminals back
to them. It accepts nothing else if each block whose rules refer to its first
nonterminal is such a block, and no such text is there if no rule does so. -/
theorem ofLines_accepts {lines : List (List Char)} {n : Automaton} (h : ofLines lines = .ok n) :
    ∃ kinds, lines.map Line.classify = kinds.map .ok ∧
      (∀ (us : List (List Symbol)) (v : List Symbol),
        (∀ u ∈ us, ∃ d, Defines kinds d ∧ d.Returns u ∧ ∃ w, d.Matches w) →
        (∃ d, Defines kinds d ∧ d.Matches v) → n.accepts (us.flatten ++ v) = true) ∧
      ((∀ d, Defines kinds d → d.Reenters → ∃ w, d.Matches w) →
        ∀ w, n.accepts w = true ↔ ∃ (us : List (List Symbol)) (v : List Symbol), w = us.flatten ++ v ∧
          (∀ u ∈ us, ∃ d, Defines kinds d ∧ d.Returns u) ∧ ∃ d, Defines kinds d ∧ d.Matches v) ∧
      ((∀ d, Defines kinds d → ¬ d.Reenters) →
        ∀ w, n.accepts w = true ↔ ∃ d, Defines kinds d ∧ d.Matches w) := by
  obtain ⟨kinds, hkinds, hdenotes⟩ := ofLines_denotes h
  have haccepts : (∀ d, Defines kinds d → d.Reenters → ∃ w, d.Matches w) →
      ∀ w, n.accepts w = true ↔ ∃ (us : List (List Symbol)) (v : List Symbol), w = us.flatten ++ v ∧
        (∀ u ∈ us, ∃ d, Defines kinds d ∧ d.Returns u) ∧ ∃ d, Defines kinds d ∧ d.Matches v := by
    intro hword w
    simp only [hdenotes.accepts_iff, mem_definedReturns_iff hword]
  refine ⟨kinds, hkinds, fun us v hus hv => ?_, haccepts, fun hnone w => ?_⟩
  · refine hdenotes.accepts_iff.2 ⟨us, v, rfl, fun u hu => ?_, hv⟩
    obtain ⟨d, hd, hreturns, hword⟩ := hus u hu
    exact ⟨d, hd, hreturns, Or.inl hword⟩
  · rw [haccepts fun d hd hreenters => absurd hreenters (hnone d hd)]
    constructor
    · rintro ⟨us, v, rfl, hus, hv⟩
      have hempty : us.flatten = [] := List.flatten_eq_nil_iff.2 fun u hu => by
        obtain ⟨d, hd, hreturns⟩ := hus u hu
        exact eq_nil_of_returns (hnone d hd) hreturns
      rw [hempty]
      exact hv
    · intro hv
      exact ⟨[], w, rfl, fun _ hu => absurd hu List.not_mem_nil, hv⟩

theorem kinds_unique {lines : List (List Char)} {kinds kinds' : List Line}
    (h : lines.map Line.classify = kinds.map .ok) (h' : lines.map Line.classify = kinds'.map .ok) :
    kinds = kinds' :=
  (List.map_inj_right fun _ _ he => Except.ok.inj he).1 (h.symm.trans h')

/-- A block with a loop that is not at its first nonterminal, a token rule and
a word. -/
def blockAndTexts : List (List Char) :=
  ["<S> ::= a<A>".toList, "# goes on with b".toList, "<A> ::= b<A> | c".toList, "IF -> if".toList,
    "while".toList]

def entryRule : Rule := { name := "S", alternatives := [.production ['a'] (some "A")] }

def innerLoop : Rule :=
  { name := "A", alternatives := [.production ['b'] (some "A"), .production ['c'] none] }

def blockAndTextsKinds : List Line :=
  [.expression entryRule, .comment, .expression innerLoop, .tokenRule "IF" ['i', 'f'],
    .sentence ['w', 'h', 'i', 'l', 'e']]

theorem exists_ofLines_blockAndTexts : ∃ n : Automaton, ofLines blockAndTexts = .ok n := by
  have hread : (DefinitionFile.read blockAndTexts).definitions.map Located.value =
      [.block [entryRule, innerLoop], .tokenRule "IF" ['i', 'f'], .sentence ['w', 'h', 'i', 'l', 'e']] := by
    decide +kernel
  refine exists_ofLines (by decide +kernel) hread ?_
  simp only [List.forall_mem_cons]
  exact ⟨⟨_, rfl⟩, ⟨_, rfl⟩, ⟨_, rfl⟩, fun d hd => absurd hd List.not_mem_nil⟩

theorem not_reenters_of_defines_blockAndTexts {d : Definition} (hd : Defines blockAndTextsKinds d) :
    ¬ d.Reenters := by
  intro hreenters
  cases hd with
  | tokenRule hl => exact hreenters
  | sentence hl => exact hreenters
  | @block rules hne hgroup =>
    have hgroups : ruleGroups blockAndTextsKinds =
        [[entryRule, innerLoop].map .expression, [], []] := by decide +kernel
    rw [hgroups] at hgroup
    simp only [List.mem_cons, List.map_eq_nil_iff, hne, List.not_mem_nil, or_false] at hgroup
    obtain rfl := map_expression_inj hgroup
    obtain ⟨first, hfirst, rule, hrule, u, halt⟩ := hreenters
    cases hfirst
    simp only [List.mem_cons, List.not_mem_nil, or_false] at hrule
    rcases hrule with rfl | rfl
    · simp [entryRule] at halt
    · simp [innerLoop, entryRule] at halt

/-- A block with a loop at its first nonterminal, and a word. -/
def loopAndWord : List (List Char) := ["<S> ::= a<S> | b".toList, "c".toList]

def loopRule : Rule :=
  { name := "S", alternatives := [.production ['a'] (some "S"), .production ['b'] none] }

theorem ends_loopRule_iff {m : String} {v : List Symbol} :
    Ends [loopRule] m v ↔ m = "S" ∧ v = ['b'] := by
  constructor
  · intro h
    cases h with
    | epsilon hrule halt =>
      rw [List.mem_singleton.1 hrule] at halt
      simp [loopRule] at halt
    | terminals hrule halt =>
      rw [List.mem_singleton.1 hrule] at halt ⊢
      exact ⟨rfl, by simpa [loopRule] using halt⟩
  · rintro ⟨rfl, rfl⟩
    exact @Ends.terminals _ loopRule ['b'] List.mem_cons_self (List.mem_cons_of_mem _ List.mem_cons_self)

theorem defines_loopAndWord {d : Definition} :
    Defines [.expression loopRule, .sentence ['c']] d ↔ d = .block [loopRule] ∨ d = .sentence ['c'] := by
  have hcut := @defines_append_cons_iff (.sentence ['c']) d rfl Line.noConfusion
    ([loopRule].map .expression) ([].map .expression)
  rw [defines_rules_iff, defines_rules_iff] at hcut
  simpa [Line.definition?, eq_comm] using hcut

theorem loopAndWord_kinds : loopAndWord.map Line.classify =
    [.expression loopRule, .sentence ['c']].map .ok := by decide +kernel

theorem matches_loopRule : (Definition.block [loopRule]).Matches ['b'] :=
  ⟨loopRule, rfl, "S", [], ['b'], rfl, .refl "S", ends_loopRule_iff.2 ⟨rfl, rfl⟩⟩

theorem returns_loopRule : (Definition.block [loopRule]).Returns ['a'] :=
  ⟨loopRule, rfl, @Derives.step _ loopRule ['a'] [] "S" "S" List.mem_cons_self List.mem_cons_self (.refl "S")⟩

theorem matches_loopAndWord {d : Definition} {v : List Symbol}
    (hd : Defines [.expression loopRule, .sentence ['c']] d) (h : d.Matches v) :
    v.getLast? = some 'b' ∨ v = ['c'] := by
  rcases defines_loopAndWord.1 hd with rfl | rfl
  · obtain ⟨first, hfirst, m, u, v, rfl, -, hends⟩ := h
    obtain ⟨-, rfl⟩ := ends_loopRule_iff.1 hends
    exact Or.inl (by simp)
  · exact Or.inr h

theorem exists_ofLines_loopAndWord : ∃ n : Automaton, ofLines loopAndWord = .ok n := by
  have hread : (DefinitionFile.read loopAndWord).definitions.map Located.value =
      [.block [loopRule], .sentence ['c']] := by decide +kernel
  refine exists_ofLines (by decide +kernel) hread ?_
  simp only [List.forall_mem_cons]
  exact ⟨⟨_, rfl⟩, ⟨_, rfl⟩, fun d hd => absurd hd List.not_mem_nil⟩

/-- In one file no loop leads back to `S`, so the file means a union. In the
other the loop is at `S`, and the word may come after any number of rounds. -/
theorem innerAndOuterLoop_accepts :
    (∃ n : Automaton, ofLines blockAndTexts = .ok n ∧
      ∀ w, n.accepts w = true ↔ ∃ d, Defines blockAndTextsKinds d ∧ d.Matches w) ∧
    ∃ n : Automaton, ofLines loopAndWord = .ok n ∧
      (∀ k, n.accepts (List.replicate k 'a' ++ ['c']) = true) ∧ n.accepts ['b', 'a'] = false := by
  constructor
  · obtain ⟨n, hn⟩ := exists_ofLines_blockAndTexts
    obtain ⟨kinds, hkinds, -, -, hunion⟩ := ofLines_accepts hn
    obtain rfl : kinds = blockAndTextsKinds := kinds_unique hkinds (by decide +kernel)
    exact ⟨n, hn, hunion fun d hd => not_reenters_of_defines_blockAndTexts hd⟩
  · obtain ⟨n, hn⟩ := exists_ofLines_loopAndWord
    obtain ⟨kinds, hkinds, hcontains, hiff, -⟩ := ofLines_accepts hn
    obtain rfl := kinds_unique hkinds loopAndWord_kinds
    refine ⟨n, hn, fun k => ?_, ?_⟩
    · have hsum : (List.replicate k ['a']).flatten = List.replicate k 'a' := by simp
      rw [← hsum]
      refine hcontains _ _ (fun u hu => ?_) ⟨_, defines_loopAndWord.2 (Or.inr rfl), rfl⟩
      rw [List.eq_of_mem_replicate hu]
      exact ⟨_, defines_loopAndWord.2 (Or.inl rfl), returns_loopRule, ['b'], matches_loopRule⟩
    · have hword : ∀ d, Defines [.expression loopRule, .sentence ['c']] d → d.Reenters →
          ∃ w, d.Matches w := by
        intro d hd hreenters
        rcases defines_loopAndWord.1 hd with rfl | rfl
        · exact ⟨['b'], matches_loopRule⟩
        · exact hreenters.elim
      rw [← Bool.not_eq_true, hiff hword]
      rintro ⟨us, v, hw, -, d, hd, hv⟩
      have hlast : (us.flatten ++ v).getLast? = some 'a' := by rw [← hw]; rfl
      rcases matches_loopAndWord hd hv with hb | rfl
      · simp [List.getLast?_append, hb] at hlast
      · simp at hlast

/-- Around the loop, and then the word of the other definition. -/
theorem loopAndWord_accepts : ∃ n : Automaton, ofLines loopAndWord = .ok n ∧ n.accepts ['a', 'c'] = true ∧
    ∀ kinds, loopAndWord.map Line.classify = kinds.map .ok →
      ∀ d, Defines kinds d → ¬ d.Matches ['a', 'c'] := by
  have hkinds := loopAndWord_kinds
  obtain ⟨n, hn⟩ := exists_ofLines_loopAndWord
  refine ⟨n, hn, ?_, fun kinds hk d hd hmatches => ?_⟩
  · obtain ⟨kinds, hk, hdenotes⟩ := ofLines_denotes hn
    obtain rfl := kinds_unique hk hkinds
    have hback : ['a'] ∈ definedReturns [.expression loopRule, .sentence ['c']] :=
      ⟨_, defines_loopAndWord.2 (Or.inl rfl), returns_loopRule, Or.inl ⟨['b'], matches_loopRule⟩⟩
    have hlast : ['c'] ∈ definedLanguage [.expression loopRule, .sentence ['c']] :=
      ⟨_, defines_loopAndWord.2 (Or.inr rfl), rfl⟩
    rw [← mem_language, hdenotes.language]
    exact Language.append_mem_mul (mem_kstar_of_mem hback) hlast
  · obtain rfl := kinds_unique hk hkinds
    simpa using matches_loopAndWord hd hmatches

end Automaton
end TokenAutomata
