/-
# The definitions of a file

Reading a file goes line by line, with the block that is still open. What it
finds can also be said of the kinds of all lines at once: each token rule and
each word is a definition, and so is each group of rules that is left when the
comments are dropped and the rest is split at the lines that are no rules
(`Defines`). Their order is that of the lines: without the comments, rules that
follow each other are one group and any other line is a group of its own
(`definitionsIn`). The two agree (`mem_definitionsIn_iff`), and reading finds the
list (`DefinitionFile.map_value_read`).

Key definitions: `ruleGroups`, `Defines`, `lineGroups`, `definitionsIn`,
`Definition.WellFormed`.
Key theorems: `definitionsIn_append_cons`, `mem_definitionsIn_iff`,
`Defines.wellFormed`, `DefinitionFile.map_value_read`.
-/
import Mathlib.Data.List.SplitBy
import TokenAutomata.Grammar.Definition
import TokenAutomata.Proofs.ReadLines

namespace TokenAutomata

/-- The line is a rule. -/
def Line.isRule : Line → Bool
  | .expression _ => true
  | _ => false

/-- What the line defines on its own. -/
def Line.definition? : Line → Option Definition
  | .tokenRule token literal => some (.tokenRule token literal)
  | .sentence word => some (.sentence word)
  | _ => none

/-- The lines between two that are neither rules nor comments, without the
comments. -/
def ruleGroups (kinds : List Line) : List (List Line) :=
  (kinds.filter (· ≠ .comment)).splitOnP (!·.isRule)

/-- What lines of these kinds define. -/
inductive Defines (kinds : List Line) : Definition → Prop
  | tokenRule {token : String} {literal : List Symbol} :
      .tokenRule token literal ∈ kinds → Defines kinds (.tokenRule token literal)
  | sentence {word : List Symbol} : .sentence word ∈ kinds → Defines kinds (.sentence word)
  | block {rules : List Rule} : rules ≠ [] → rules.map .expression ∈ ruleGroups kinds →
      Defines kinds (.block rules)

variable {rules : List Rule} {kinds : List Line} {l : Line} {d : Definition}

/-! ### Groups of rules -/

/-- Rules are no comments. -/
theorem filter_expressions (rules : List Rule) :
    (rules.map Line.expression).filter (· ≠ .comment) = rules.map .expression := by
  rw [List.filter_eq_self]
  intro l hl
  obtain ⟨rule, -, rfl⟩ := List.mem_map.1 hl
  rfl

theorem filter_append_comment (before after : List Line) :
    (before ++ .comment :: after).filter (· ≠ .comment) = (before ++ after).filter (· ≠ .comment) := by
  rw [List.filter_append, List.filter_append, List.filter_cons_of_neg (by simp)]

theorem ruleGroups_rules (rules : List Rule) :
    ruleGroups (rules.map .expression) = [rules.map .expression] := by
  unfold ruleGroups
  rw [filter_expressions]
  refine List.splitOnP_eq_singleton fun l hl => ?_
  obtain ⟨rule, -, rfl⟩ := List.mem_map.1 hl
  rfl

theorem ruleGroups_append_comment (before after : List Line) :
    ruleGroups (before ++ .comment :: after) = ruleGroups (before ++ after) := by
  unfold ruleGroups
  rw [filter_append_comment]

/-- A line that is neither a rule nor a comment ends a group. -/
theorem ruleGroups_append_cons (hrule : l.isRule = false) (hcomment : l ≠ .comment)
    (before after : List Line) :
    ruleGroups (before ++ l :: after) = ruleGroups before ++ ruleGroups after := by
  unfold ruleGroups
  rw [List.filter_append, List.filter_cons_of_pos (by simpa using hcomment)]
  exact List.splitOnP_append_cons _ _ (by rw [hrule]; rfl)

theorem map_expression_inj {rules rules' : List Rule}
    (h : rules.map Line.expression = rules'.map .expression) : rules = rules' :=
  (List.map_inj_right fun _ _ he => Line.expression.inj he).1 h

/-! ### One more line -/

theorem defines_tokenRule_iff {token : String} {literal : List Symbol} :
    Defines kinds (.tokenRule token literal) ↔ .tokenRule token literal ∈ kinds :=
  ⟨fun h => by cases h; assumption, .tokenRule⟩

theorem defines_sentence_iff {word : List Symbol} :
    Defines kinds (.sentence word) ↔ .sentence word ∈ kinds :=
  ⟨fun h => by cases h; assumption, .sentence⟩

theorem defines_block_iff :
    Defines kinds (.block rules) ↔ rules ≠ [] ∧ rules.map .expression ∈ ruleGroups kinds :=
  ⟨fun h => by cases h; exact ⟨‹_›, ‹_›⟩, fun h => .block h.1 h.2⟩

/-- Rules alone define their block. -/
theorem defines_rules_iff : Defines (rules.map .expression) d ↔ rules ≠ [] ∧ d = .block rules := by
  cases d with
  | tokenRule token literal => simp [defines_tokenRule_iff]
  | sentence word => simp [defines_sentence_iff]
  | block rules' =>
    rw [defines_block_iff, ruleGroups_rules, List.mem_singleton, Definition.block.injEq]
    constructor
    · rintro ⟨hne, he⟩
      obtain rfl := map_expression_inj he
      exact ⟨hne, rfl⟩
    · rintro ⟨hne, rfl⟩
      exact ⟨hne, rfl⟩

theorem defines_append_comment {before after : List Line} :
    Defines (before ++ .comment :: after) d ↔ Defines (before ++ after) d := by
  cases d with
  | tokenRule token literal => simp [defines_tokenRule_iff]
  | sentence word => simp [defines_sentence_iff]
  | block rules' => rw [defines_block_iff, defines_block_iff, ruleGroups_append_comment]

/-- A line that is neither a rule nor a comment separates what stands before it
from what stands after it. -/
theorem defines_append_cons_iff (hrule : l.isRule = false) (hcomment : l ≠ .comment)
    {before after : List Line} : Defines (before ++ l :: after) d ↔
      Defines before d ∨ l.definition? = some d ∨ Defines after d := by
  cases d with
  | tokenRule token literal =>
    have hown : .tokenRule token literal = l ↔ l.definition? = some (.tokenRule token literal) := by
      cases l <;> simp [Line.definition?, eq_comm]
    simp only [defines_tokenRule_iff, List.mem_append, List.mem_cons, hown]
  | sentence word =>
    have hown : .sentence word = l ↔ l.definition? = some (.sentence word) := by
      cases l <;> simp [Line.definition?, eq_comm]
    simp only [defines_sentence_iff, List.mem_append, List.mem_cons, hown]
  | block rules =>
    have hown : l.definition? ≠ some (.block rules) := by
      cases l <;> simp [Line.definition?]
    simp only [defines_block_iff, ruleGroups_append_cons hrule hcomment, List.mem_append]
    constructor
    · rintro ⟨hne, hmem | hmem⟩
      · exact Or.inl ⟨hne, hmem⟩
      · exact Or.inr (Or.inr ⟨hne, hmem⟩)
    · rintro (⟨hne, hmem⟩ | hl | ⟨hne, hmem⟩)
      · exact ⟨hne, Or.inl hmem⟩
      · exact absurd hl hown
      · exact ⟨hne, Or.inr hmem⟩

/-! ### In order -/

/-- The rule on the line. -/
def Line.rule? : Line → Option Rule
  | .expression rule => some rule
  | _ => none

/-- The lines but for the comments, rules that follow each other in one
group. -/
def lineGroups (kinds : List Line) : List (List Line) :=
  (kinds.filter (· ≠ .comment)).splitBy fun l l' => l.isRule && l'.isRule

/-- A group of rules defines their block, and any other line what it defines on
its own. -/
def groupDefinition? (group : List Line) : Option Definition :=
  match group.filterMap Line.rule? with
  | [] => group.head?.bind Line.definition?
  | rule :: rest => some (.block (rule :: rest))

/-- What lines of these kinds define, in their order. -/
def definitionsIn (kinds : List Line) : List Definition := (lineGroups kinds).filterMap groupDefinition?

theorem definitionsIn_rules : ∀ rules : List Rule,
    definitionsIn (rules.map .expression) = if rules = [] then [] else [.block rules]
  | [] => rfl
  | rule :: rest => by
    have hchain : ((rule :: rest).map Line.expression).IsChain
        fun l l' => (l.isRule && l'.isRule) = true := by
      rw [List.isChain_map]
      exact (List.pairwise_of_forall fun _ _ => rfl).isChain
    have hne : (rule :: rest).map Line.expression ≠ [] := List.cons_ne_nil _ _
    have hrules : ((rule :: rest).map Line.expression).filterMap Line.rule? = rule :: rest := by
      rw [List.filterMap_map]
      exact List.filterMap_some
    unfold definitionsIn lineGroups
    rw [filter_expressions, List.splitBy_of_isChain hne hchain, List.filterMap_cons, groupDefinition?,
      hrules]
    rfl

theorem definitionsIn_append_comment (before after : List Line) :
    definitionsIn (before ++ .comment :: after) = definitionsIn (before ++ after) := by
  unfold definitionsIn lineGroups
  rw [filter_append_comment]

/-- A line that is neither a rule nor a comment stands between what is defined
before it and what is defined after it. -/
theorem definitionsIn_append_cons (hrule : l.isRule = false) (hcomment : l ≠ .comment)
    (before after : List Line) : definitionsIn (before ++ l :: after) =
      definitionsIn before ++ l.definition?.toList ++ definitionsIn after := by
  have hgroups : lineGroups (before ++ l :: after) = lineGroups before ++ [l] :: lineGroups after := by
    unfold lineGroups
    rw [List.filter_append, List.filter_cons_of_pos (by simpa using hcomment),
      List.splitBy_append_cons _ (by simp [hrule]), ← List.singleton_append,
      List.splitBy_append (by simp [hrule])]
    rfl
  have hown : groupDefinition? [l] = l.definition? := by
    cases l with
    | expression rule => cases hrule
    | comment => rfl
    | blank => rfl
    | tokenRule token literal => rfl
    | sentence word => rfl
  unfold definitionsIn
  rw [hgroups, List.filterMap_append, List.append_assoc]
  cases hl : l.definition? with
  | none => simp [hown, hl]
  | some d => simp [hown, hl]

theorem mem_definitionsIn_rules :
    d ∈ definitionsIn (rules.map .expression) ↔ Defines (rules.map .expression) d := by
  rw [definitionsIn_rules, defines_rules_iff]
  by_cases hne : rules = []
  · simp [hne]
  · simp [hne]

theorem mem_definitionsIn_rules_append : ∀ {kinds : List Line} {rules : List Rule},
    d ∈ definitionsIn (rules.map .expression ++ kinds) ↔ Defines (rules.map .expression ++ kinds) d
  | [], rules => by
    rw [List.append_nil]
    exact mem_definitionsIn_rules
  | l :: kinds, rules => by
    by_cases hcomment : l = .comment
    · rw [hcomment, definitionsIn_append_comment, defines_append_comment]
      exact mem_definitionsIn_rules_append
    by_cases hrule : l.isRule = true
    · obtain ⟨rule, rfl⟩ : ∃ rule, l = .expression rule := by
        cases l <;> simp [Line.isRule] at hrule ⊢
      have hshift : rules.map Line.expression ++ .expression rule :: kinds =
          (rules ++ [rule]).map .expression ++ kinds := by simp
      rw [hshift]
      exact mem_definitionsIn_rules_append
    · have hrule : l.isRule = false := by simpa using hrule
      have hafter : d ∈ definitionsIn kinds ↔ Defines kinds d := @mem_definitionsIn_rules_append kinds []
      rw [definitionsIn_append_cons hrule hcomment, defines_append_cons_iff hrule hcomment,
        List.mem_append, List.mem_append, mem_definitionsIn_rules, hafter, Option.mem_toList, or_assoc]

/-- The list holds just what the lines define. -/
theorem mem_definitionsIn_iff : d ∈ definitionsIn kinds ↔ Defines kinds d :=
  @mem_definitionsIn_rules_append d kinds []

/-! ### Reading -/

namespace DefinitionFile

/-- The rules of the block that has not ended. -/
def openRules : OpenBlock → List Rule
  | none => []
  | some block => block.value

/-- A block that is open has a rule. -/
def NonemptyBlock (block : OpenBlock) : Prop := ∀ b ∈ block, b.value ≠ []

variable {block : OpenBlock}

theorem nonemptyBlock_none : NonemptyBlock none := fun b hb => by cases hb

theorem nonemptyBlock_extended (n : Nat) (rule : Rule) (block : OpenBlock) :
    NonemptyBlock (extended n rule block) := by
  intro b hb
  cases block with
  | none =>
    cases hb
    exact List.cons_ne_nil rule []
  | some first =>
    cases hb
    exact List.append_ne_nil_of_right_ne_nil _ (List.cons_ne_nil rule [])

theorem openRules_extended (n : Nat) (rule : Rule) (block : OpenBlock) :
    openRules (extended n rule block) = openRules block ++ [rule] := by
  cases block with
  | none => rfl
  | some first => rfl

theorem map_value_ended (hb : NonemptyBlock block) :
    (ended block).map Located.value = definitionsIn ((openRules block).map .expression) := by
  rw [definitionsIn_rules]
  cases block with
  | none => rfl
  | some first =>
    have hne : first.value ≠ [] := hb first rfl
    simp [ended, openRules, hne]

/-- A line that ends the open block puts the block in front of what follows,
and then itself if it is a definition. -/
theorem map_value_prepend (hb : NonemptyBlock block) (hrule : l.isRule = false) (hcomment : l ≠ .comment)
    {own : List (Located Definition)} (hown : own.map Located.value = l.definition?.toList)
    {file : DefinitionFile} (hfile : file.definitions.map Located.value = definitionsIn kinds) :
    (file.prepend (ended block ++ own)).definitions.map Located.value =
      definitionsIn ((openRules block).map .expression ++ l :: kinds) := by
  rw [definitionsIn_append_cons hrule hcomment, ← map_value_ended hb, ← hown, ← hfile,
    ← List.map_append, ← List.map_append]
  rfl

/-- The definitions are those of the kinds of the lines, with the rules of the
open block in front. -/
theorem map_value_readFrom : ∀ {lines : List (List Char)} {n : Nat} {block : OpenBlock},
    NonemptyBlock block → (readFrom n block lines).fault = none →
    ∃ kinds, lines.map Line.classify = kinds.map .ok ∧
      (readFrom n block lines).definitions.map Located.value =
        definitionsIn ((openRules block).map .expression ++ kinds)
  | [], n, block, hb, _ => by
    refine ⟨[], rfl, ?_⟩
    rw [List.append_nil]
    exact map_value_ended hb
  | raw :: rest, n, block, hb, h => by
    unfold readFrom at h ⊢
    cases hraw : Line.classify raw with
    | error e =>
      rw [hraw] at h
      cases h
    | ok l =>
      rw [hraw] at h
      have hmap : ∀ {kinds : List Line}, rest.map Line.classify = kinds.map .ok →
          (raw :: rest).map Line.classify = (l :: kinds).map .ok := fun hkinds => by
        rw [List.map_cons, List.map_cons, hkinds, hraw]
      cases l with
      | comment =>
        obtain ⟨kinds, hkinds, hread⟩ := map_value_readFrom hb h
        exact ⟨.comment :: kinds, hmap hkinds, hread.trans (definitionsIn_append_comment _ _).symm⟩
      | expression rule =>
        obtain ⟨kinds, hkinds, hread⟩ := map_value_readFrom (nonemptyBlock_extended n rule block) h
        refine ⟨.expression rule :: kinds, hmap hkinds, ?_⟩
        rw [openRules_extended, List.map_append, List.append_assoc] at hread
        exact hread
      | blank =>
        obtain ⟨kinds, hkinds, hread⟩ := map_value_readFrom nonemptyBlock_none h
        refine ⟨.blank :: kinds, hmap hkinds, ?_⟩
        rw [← List.append_nil (ended block)]
        exact map_value_prepend hb rfl Line.noConfusion rfl hread
      | tokenRule token literal =>
        obtain ⟨kinds, hkinds, hread⟩ := map_value_readFrom nonemptyBlock_none h
        refine ⟨.tokenRule token literal :: kinds, hmap hkinds, ?_⟩
        exact map_value_prepend hb rfl Line.noConfusion rfl hread
      | sentence word =>
        obtain ⟨kinds, hkinds, hread⟩ := map_value_readFrom nonemptyBlock_none h
        refine ⟨.sentence word :: kinds, hmap hkinds, ?_⟩
        exact map_value_prepend hb rfl Line.noConfusion rfl hread

end DefinitionFile

/-! ### What is defined is well-formed -/

/-- There are rules, names and symbols. -/
def Definition.WellFormed : Definition → Prop
  | .block rules => rules ≠ [] ∧ ∀ rule ∈ rules, rule.WellFormed
  | .tokenRule token literal => isTokenName token.toList = true ∧ literal ≠ []
  | .sentence word => word ≠ []

theorem mem_of_mem_splitOnP {α : Type} {p : α → Bool} : ∀ {xs g : List α} {x : α},
    g ∈ xs.splitOnP p → x ∈ g → x ∈ xs
  | [], g, x, hg, hx => by
    rw [List.mem_singleton.1 hg] at hx
    cases hx
  | y :: ys, g, x, hg, hx => by
    rw [List.splitOnP_cons_eq_if_modifyHead] at hg
    split at hg
    · rcases List.mem_cons.1 hg with rfl | hg
      · cases hx
      · exact List.mem_cons_of_mem y (mem_of_mem_splitOnP hg hx)
    · obtain ⟨piece, pieces, hsplit⟩ := List.exists_cons_of_ne_nil (List.splitOnP_ne_nil p ys)
      rw [hsplit, List.modifyHead_cons] at hg
      have hmem : ∀ g ∈ piece :: pieces, ∀ z ∈ g, z ∈ ys := fun g hg z hz =>
        mem_of_mem_splitOnP (hsplit ▸ hg) hz
      rcases List.mem_cons.1 hg with rfl | hg
      · rcases List.mem_cons.1 hx with rfl | hx
        · exact List.mem_cons_self
        · exact List.mem_cons_of_mem y (hmem piece List.mem_cons_self x hx)
      · exact List.mem_cons_of_mem y (hmem g (List.mem_cons_of_mem piece hg) x hx)

theorem mem_of_mem_ruleGroups {g : List Line} (hg : g ∈ ruleGroups kinds) (hl : l ∈ g) : l ∈ kinds :=
  (List.mem_filter.1 (mem_of_mem_splitOnP hg hl)).1

theorem Defines.wellFormed (hkinds : ∀ l ∈ kinds, l.WellFormed) (h : Defines kinds d) :
    d.WellFormed := by
  cases h with
  | tokenRule hl => exact hkinds _ hl
  | sentence hl => exact hkinds _ hl
  | block hne hgroup =>
    refine ⟨hne, fun rule hrule => ?_⟩
    exact hkinds _ (mem_of_mem_ruleGroups hgroup (List.mem_map_of_mem hrule))

namespace DefinitionFile

variable {lines : List (List Char)}

/-- The definitions of a file without a wrong line are those of its lines, in
their order, and they are well-formed. -/
theorem map_value_read (h : (read lines).fault = none) :
    ∃ kinds, lines.map Line.classify = kinds.map .ok ∧
      (read lines).definitions.map Located.value = definitionsIn kinds ∧
      ∀ d ∈ definitionsIn kinds, d.WellFormed := by
  obtain ⟨kinds, hkinds, hread⟩ := map_value_readFrom nonemptyBlock_none h
  refine ⟨kinds, hkinds, hread, fun d hd => ?_⟩
  have hdefines : Defines kinds d := mem_definitionsIn_iff.1 hd
  refine hdefines.wellFormed fun l hl => ?_
  have hok : Except.ok l ∈ lines.map Line.classify := hkinds ▸ List.mem_map_of_mem hl
  obtain ⟨raw, -, hraw⟩ := List.mem_map.1 hok
  exact Line.classify_wellFormed hraw

end DefinitionFile
end TokenAutomata
