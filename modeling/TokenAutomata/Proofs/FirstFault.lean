/-
# The fault that a file is refused for

Three things in a file are at fault: a line that cannot be read, a token that
is named like the initial state, and a block of rules in which a name is taken
(`Offends`). A file is read line by line, and a block is looked at when it is
closed, just before the line that closes it or at the end of the file. So each
fault is met at a moment of its own: moment `2 * n` comes just before line `n`
is looked at, and moment `2 * n + 1` is that line's. Reading reports the fault
that is met first, and the line it is found at.

What a reader knows before line `n` is which rules are open there, if any
(`OpenBefore`). One more line keeps that true (`OpenBefore.comment`, `OpenBefore.rule`,
`openBefore_none_of_closesAt`), and from it follows what is met at the next two
moments.

Key definitions: `IsBlock`, `Offends`, `FirstFrom`, `OpenBefore`,
`DefinitionFile.firstError?`.
Key theorems: `Automaton.ofLines_eq_error_iff`, `RulesRun.unique`,
`offends_even_iff`, `offends_odd_iff`, `readFrom_firstError?_iff`,
`ofLines_first_fault`.
-/
import Mathlib.Data.Nat.Find
import TokenAutomata.Proofs.NameClash

namespace TokenAutomata

open Automaton (rootLabel)

/-! ### Faults in the lines -/

/-- What the line of number `i`, counted from 0, is. -/
def kindAt (lines : List (List Char)) (i : Nat) : Option (Except SyntaxError Line) :=
  lines[i]?.map Line.classify

/-- The rule that a line is, if it is one. -/
def readRule? (raw : List Char) : Option Rule :=
  match Line.classify raw with
  | .ok l => l.rule?
  | .error _ => none

/-- The token whose text the line gives. -/
def Line.token? : Line → Option String
  | .tokenRule token _ => some token
  | .sentence word => some (Text.uppercase (String.ofList word))
  | _ => none

def IsRuleAt (lines : List (List Char)) (i : Nat) : Prop :=
  ∃ rule, kindAt lines i = some (.ok (.expression rule))

/-- A rule, or a comment, which does not count. -/
def InBlockAt (lines : List (List Char)) (i : Nat) : Prop :=
  IsRuleAt lines i ∨ kindAt lines i = some (.ok .comment)

/-- A blank line, a token rule or a sentence. -/
def ClosesAt (lines : List (List Char)) (i : Nat) : Prop :=
  ∃ l : Line, kindAt lines i = some (.ok l) ∧ l.isRule = false ∧ l ≠ .comment

/-- Some line that is neither a rule nor a comment stands between line `n` and
any rule before it. -/
def SetApart (lines : List (List Char)) (n : Nat) : Prop :=
  ∀ i < n, IsRuleAt lines i → ∃ j, i < j ∧ j < n ∧ ¬ InBlockAt lines j

/-- The lines from `first` on and before `past` are rules, the first one among
them, and comments, and they go on with no rules from before. -/
structure RulesRun (lines : List (List Char)) (first past : Nat) (rules : List Rule) : Prop where
  lt : first < past
  starts : IsRuleAt lines first
  inside : ∀ i, first ≤ i → i < past → InBlockAt lines i
  apart : SetApart lines first
  rules_eq : rules = ((lines.take past).drop first).filterMap readRule?

/-- A block of rules: they are closed by the line `past` or by the end. -/
structure IsBlock (lines : List (List Char)) (first past : Nat) (rules : List Rule) : Prop
    extends RulesRun lines first past rules where
  closed : past = lines.length ∨ ClosesAt lines past

/-- What is at fault in the lines, and the moment at which it is met. -/
inductive Offends (lines : List (List Char)) : Nat → GrammarError → Prop
  /-- A line that cannot be read. -/
  | wrong {i : Nat} {cause : SyntaxError} (h : kindAt lines i = some (.error cause)) :
      Offends lines (2 * i + 1) (.atLine (i + 1) (.malformed cause))
  /-- A token that is named like the initial state. -/
  | reserved {i : Nat} {l : Line} (h : kindAt lines i = some (.ok l)) (ht : l.token? = some rootLabel) :
      Offends lines (2 * i + 1) (.atLine (i + 1) (.automaton (.duplicateLabel rootLabel)))
  /-- A block in which a name is taken. -/
  | block {first past : Nat} {rules : List Rule} {label : String} (h : IsBlock lines first past rules)
      (hclash : Clash rules label) :
      Offends lines (2 * past) (.atLine (first + 1) (.automaton (.duplicateLabel label)))

/-- Of the faults that are met from moment `k` on, the one that is met first. -/
def FirstFrom (lines : List (List Char)) (k : Nat) (e : GrammarError) : Prop :=
  ∃ met, k ≤ met ∧ Offends lines met e ∧ ∀ met' e', k ≤ met' → Offends lines met' e' → met ≤ met'

variable {lines : List (List Char)} {first past n k : Nat} {rules : List Rule} {e : GrammarError}

/-! ### Runs of rules -/

theorem kindAt_eq {raw : List Char} (h : lines[n]? = some raw) : kindAt lines n = some (Line.classify raw) := by
  rw [kindAt, h]
  rfl

theorem lt_length_of_kindAt {kind : Except SyntaxError Line} (h : kindAt lines n = some kind) :
    n < lines.length := by
  obtain ⟨raw, hraw, -⟩ := Option.map_eq_some_iff.1 h
  exact (List.getElem?_eq_some_iff.1 hraw).1

theorem lt_length_of_inBlockAt (h : InBlockAt lines n) : n < lines.length := by
  rcases h with ⟨rule, h⟩ | h
  · exact lt_length_of_kindAt h
  · exact lt_length_of_kindAt h

theorem not_closesAt_of_inBlockAt (h : InBlockAt lines n) : ¬ ClosesAt lines n := by
  rintro ⟨l, hl, hrule, hcomment⟩
  rcases h with ⟨rule, h⟩ | h
  · cases h.symm.trans hl
    cases hrule
  · cases h.symm.trans hl
    exact hcomment rfl

/-- The lines up to `past` tell where the rules that are open there start. -/
theorem RulesRun.unique {first' : Nat} {rules' : List Rule} (h : RulesRun lines first past rules)
    (h' : RulesRun lines first' past rules') : first = first' ∧ rules = rules' := by
  have hle : ∀ {f g : Nat} {r s : List Rule}, RulesRun lines f past r → RulesRun lines g past s → g ≤ f := by
    intro f g r s hf hg
    by_contra hlt
    obtain ⟨j, hfj, hjg, hj⟩ := hg.apart f (by omega) hf.starts
    have hpast := hg.lt
    exact hj (hf.inside j (by omega) (by omega))
  have hfirst : first = first' := Nat.le_antisymm (hle h' h) (hle h h')
  refine ⟨hfirst, ?_⟩
  rw [h.rules_eq, h'.rules_eq, hfirst]

/-- Where no rules are open, no run of rules ends. -/
theorem SetApart.not_rulesRun (h : SetApart lines past) : ¬ RulesRun lines first past rules := by
  intro hrun
  obtain ⟨j, hfirst, hpast, hj⟩ := h first hrun.lt hrun.starts
  exact hj (hrun.inside j (by omega) hpast)

theorem RulesRun.wellFormed (h : RulesRun lines first past rules) : (Definition.block rules).WellFormed := by
  have hread : ∀ {raw : List Char} {rule : Rule}, readRule? raw = some rule ↔
      Line.classify raw = .ok (.expression rule) := by
    intro raw rule
    unfold readRule?
    cases Line.classify raw with
    | error cause => simp
    | ok l => cases l <;> simp [Line.rule?]
  refine ⟨?_, fun rule hrule => ?_⟩
  · obtain ⟨rule, hrule⟩ := h.starts
    obtain ⟨raw, hraw, hclassify⟩ := Option.map_eq_some_iff.1 hrule
    have hslice : ((lines.take past).drop first)[0]? = some raw := by
      rw [List.getElem?_drop, List.getElem?_take_of_lt (by have := h.lt; omega)]
      exact hraw
    have hmem : rule ∈ rules := by
      rw [h.rules_eq]
      exact List.mem_filterMap.2 ⟨raw, List.mem_of_getElem? hslice, hread.2 hclassify⟩
    exact List.ne_nil_of_mem hmem
  · rw [h.rules_eq] at hrule
    obtain ⟨raw, -, hraw⟩ := List.mem_filterMap.1 hrule
    exact Line.classify_wellFormed (hread.1 hraw)

/-! ### What is known before a line -/

/-- The rules that are open before line `n`. -/
def OpenBefore (lines : List (List Char)) (n : Nat) : DefinitionFile.OpenBlock → Prop
  | none => SetApart lines n
  | some ⟨line, rules⟩ => ∃ first, line = first + 1 ∧ RulesRun lines first n rules

theorem openBefore_zero (lines : List (List Char)) : OpenBefore lines 0 none := fun i hi => absurd hi (Nat.not_lt_zero i)

/-- A run goes on with one more rule or comment. -/
theorem RulesRun.snoc {raw : List Char} (h : RulesRun lines first n rules) (hraw : lines[n]? = some raw)
    (hin : InBlockAt lines n) : RulesRun lines first (n + 1) (rules ++ (readRule? raw).toList) := by
  have hlt := h.lt
  refine ⟨by omega, h.starts, fun i hi hin' => ?_, h.apart, ?_⟩
  · rcases Nat.lt_succ_iff_lt_or_eq.1 hin' with hlt' | rfl
    · exact h.inside i hi hlt'
    · exact hin
  · have hlength : (lines.take n).length = n :=
      List.length_take_of_le (Nat.le_of_lt (List.getElem?_eq_some_iff.1 hraw).1)
    rw [List.take_add_one, hraw, Option.toList_some, List.drop_append_of_le_length (by omega),
      List.filterMap_append, ← h.rules_eq]
    cases hrule : readRule? raw <;> simp [hrule]

theorem OpenBefore.comment {block : DefinitionFile.OpenBlock} {raw : List Char} (h : OpenBefore lines n block)
    (hraw : lines[n]? = some raw) (hl : Line.classify raw = .ok .comment) : OpenBefore lines (n + 1) block := by
  have hkind : kindAt lines n = some (.ok .comment) := hl ▸ kindAt_eq hraw
  cases block with
  | none =>
    intro i hi hrule
    rcases Nat.lt_succ_iff_lt_or_eq.1 hi with hlt | rfl
    · obtain ⟨j, hij, hjn, hj⟩ := h i hlt hrule
      exact ⟨j, hij, by omega, hj⟩
    · obtain ⟨rule, hrule⟩ := hrule
      cases hkind.symm.trans hrule
  | some block =>
    obtain ⟨first, hline, hrun⟩ := h
    have hnone : readRule? raw = none := by simp [readRule?, hl, Line.rule?]
    have hsnoc := hrun.snoc hraw (Or.inr hkind)
    rw [hnone, Option.toList_none, List.append_nil] at hsnoc
    exact ⟨first, hline, hsnoc⟩

theorem OpenBefore.rule {block : DefinitionFile.OpenBlock} {raw : List Char} {rule : Rule}
    (h : OpenBefore lines n block) (hraw : lines[n]? = some raw)
    (hl : Line.classify raw = .ok (.expression rule)) :
    OpenBefore lines (n + 1) (DefinitionFile.extended (n + 1) rule block) := by
  have hrule : IsRuleAt lines n := ⟨rule, hl ▸ kindAt_eq hraw⟩
  have hread : readRule? raw = some rule := by simp [readRule?, hl, Line.rule?]
  cases block with
  | none =>
    refine ⟨n, rfl, by omega, hrule, fun i hi hin => ?_, h, ?_⟩
    · obtain rfl : i = n := by omega
      exact Or.inl hrule
    · have hlength : (lines.take n).length = n :=
        List.length_take_of_le (Nat.le_of_lt (List.getElem?_eq_some_iff.1 hraw).1)
      rw [List.take_add_one, hraw, Option.toList_some, List.drop_append_of_le_length (by omega),
        List.drop_of_length_le (by omega)]
      simp [hread]
  | some block =>
    obtain ⟨first, hline, hrun⟩ := h
    have hsnoc := hrun.snoc hraw (Or.inl hrule)
    rw [hread, Option.toList_some] at hsnoc
    exact ⟨first, hline, hsnoc⟩

/-- Behind a line that closes blocks no rules are open. -/
theorem openBefore_none_of_closesAt (h : ClosesAt lines n) : OpenBefore lines (n + 1) none := by
  intro i hi hrule
  have hne : i ≠ n := by
    rintro rfl
    exact not_closesAt_of_inBlockAt (Or.inl hrule) h
  exact ⟨n, by omega, by omega, fun hin => not_closesAt_of_inBlockAt hin h⟩

/-! ### What is met at a moment -/

theorem offends_even_iff : Offends lines (2 * n) e ↔ ∃ first rules label, IsBlock lines first n rules ∧
    Clash rules label ∧ e = .atLine (first + 1) (.automaton (.duplicateLabel label)) := by
  constructor
  · intro h
    generalize hk : 2 * n = k at h
    cases h with
    | wrong => omega
    | reserved => omega
    | block hblock hclash =>
      obtain rfl := Nat.eq_of_mul_eq_mul_left (by decide) hk
      exact ⟨_, _, _, hblock, hclash, rfl⟩
  · rintro ⟨first, rules, label, hblock, hclash, rfl⟩
    exact .block hblock hclash

theorem offends_odd_iff : Offends lines (2 * n + 1) e ↔
    (∃ cause, kindAt lines n = some (.error cause) ∧ e = .atLine (n + 1) (.malformed cause)) ∨
    ∃ l : Line, kindAt lines n = some (.ok l) ∧ l.token? = some rootLabel ∧
      e = .atLine (n + 1) (.automaton (.duplicateLabel rootLabel)) := by
  constructor
  · intro h
    generalize hk : 2 * n + 1 = k at h
    cases h with
    | @wrong i cause hi =>
      obtain rfl : n = i := by omega
      exact Or.inl ⟨cause, hi, rfl⟩
    | @reserved i l hi ht =>
      obtain rfl : n = i := by omega
      exact Or.inr ⟨l, hi, ht, rfl⟩
    | block => omega
  · rintro (⟨cause, hi, rfl⟩ | ⟨l, hi, ht, rfl⟩)
    · exact .wrong hi
    · exact .reserved hi ht

/-- Where blocks are closed, the block that is open is looked at. -/
theorem offends_closed_iff {block : DefinitionFile.OpenBlock} (h : OpenBefore lines n block)
    (hclosed : n = lines.length ∨ ClosesAt lines n) :
    Offends lines (2 * n) e ↔ (DefinitionFile.ended block).findSome? Located.error? = some e := by
  rw [offends_even_iff]
  cases block with
  | none =>
    constructor
    · rintro ⟨first, rules, label, hblock, -⟩
      exact absurd hblock.toRulesRun h.not_rulesRun
    · intro he
      cases he
  | some block =>
    obtain ⟨line, rules⟩ := block
    obtain ⟨first, rfl, hrun⟩ := h
    have hended : (DefinitionFile.ended (some ⟨first + 1, rules⟩)).findSome? Located.error? =
        Located.error? ⟨first + 1, .block rules⟩ := by
      simp [DefinitionFile.ended]
    rw [hended, Located.error?_eq_some_iff hrun.wellFormed]
    constructor
    · rintro ⟨first', rules', label, hblock, hclash, rfl⟩
      obtain ⟨rfl, rfl⟩ := hblock.toRulesRun.unique hrun
      exact ⟨label, hclash, rfl⟩
    · rintro ⟨label, hclash, rfl⟩
      exact ⟨first, rules, label, ⟨hrun, hclosed⟩, hclash, rfl⟩

/-- Before any other line no block is closed. -/
theorem offends_open_iff (hn : n < lines.length) (h : ¬ ClosesAt lines n) :
    Offends lines (2 * n) e ↔ none = some e := by
  rw [offends_even_iff]
  constructor
  · rintro ⟨first, rules, label, hblock, -⟩
    rcases hblock.closed with rfl | hclosed
    · exact absurd hn (Nat.lt_irrefl _)
    · exact absurd hclosed h
  · intro he
    cases he

/-- A line that can be read is at fault if it defines a text of a reserved token. -/
theorem offends_line_iff {l : Line} (h : kindAt lines n = some (.ok l)) (hwf : l.WellFormed) :
    Offends lines (2 * n + 1) e ↔ (l.definition?.bind fun d => Located.error? ⟨n + 1, d⟩) = some e := by
  have htext : ∀ {d : Definition}, l.definition? = some d → d.WellFormed ∧
      ∀ label, d.Clashes label ↔ l.token? = some rootLabel ∧ label = rootLabel := by
    intro d hd
    cases l <;> cases hd
    · exact ⟨hwf, fun label => by simp [Definition.Clashes, Line.token?]⟩
    · exact ⟨hwf, fun label => by simp [Definition.Clashes, Line.token?]⟩
  have hnone : l.definition? = none → l.token? = none := fun hd => by
    cases l <;> first | rfl | cases hd
  rw [offends_odd_iff, h]
  cases hd : l.definition? with
  | none => simp [hnone hd]
  | some d =>
    obtain ⟨hdwf, hclash⟩ := htext hd
    rw [Option.bind_some, Located.error?_eq_some_iff hdwf]
    simp only [hclash]
    constructor
    · rintro (⟨cause, he, -⟩ | ⟨l', he, ht, rfl⟩)
      · cases he
      · cases he
        exact ⟨rootLabel, ⟨ht, rfl⟩, rfl⟩
    · rintro ⟨label, ⟨ht, rfl⟩, rfl⟩
      exact Or.inr ⟨l, rfl, ht, rfl⟩

theorem Offends.le (h : Offends lines k e) : k ≤ 2 * lines.length := by
  cases h with
  | wrong hi =>
    have hlt := lt_length_of_kindAt hi
    omega
  | reserved hi ht =>
    have hlt := lt_length_of_kindAt hi
    omega
  | @block first past rules label hblock hclash =>
    have hlt := hblock.lt
    have hlast := lt_length_of_inBlockAt (hblock.inside (past - 1) (by omega) (by omega))
    omega

/-! ### What is met first -/

/-- What is met at moment `k` comes before all that is met later. -/
theorem FirstFrom.step {o o' : Option GrammarError} (hk : ∀ e, Offends lines k e ↔ o = some e)
    (hrest : o = none → ∀ e, FirstFrom lines (k + 1) e ↔ o' = some e) :
    FirstFrom lines k e ↔ o.or o' = some e := by
  cases o with
  | some first =>
    rw [Option.some_or, ← hk]
    constructor
    · rintro ⟨met, hle, hmet, hfirst⟩
      have hge := hfirst k first (Nat.le_refl k) ((hk first).2 rfl)
      obtain rfl : k = met := Nat.le_antisymm hle hge
      exact hmet
    · exact fun h => ⟨k, Nat.le_refl k, h, fun _ _ hle _ => hle⟩
  | none =>
    have hno : ∀ e, ¬ Offends lines k e := fun e h => by cases (hk e).1 h
    have hlater : ∀ {met e}, k ≤ met → Offends lines met e → k + 1 ≤ met := fun {met e} hle hmet => by
      rcases Nat.eq_or_lt_of_le hle with rfl | hlt
      · exact absurd hmet (hno e)
      · exact hlt
    rw [Option.none_or, ← hrest rfl e]
    constructor
    · rintro ⟨met, hle, hmet, hfirst⟩
      exact ⟨met, hlater hle hmet, hmet, fun met' e' hle' => hfirst met' e' (by omega)⟩
    · rintro ⟨met, hle, hmet, hfirst⟩
      exact ⟨met, by omega, hmet, fun met' e' hle' hmet' => hfirst met' e' (hlater hle' hmet') hmet'⟩

namespace DefinitionFile

/-- A line that closes blocks ends the open one and may define a text. -/
theorem readFrom_of_closes {raw : List Char} {rest : List (List Char)} {block : OpenBlock} {l : Line}
    (hl : Line.classify raw = .ok l) (hrule : l.isRule = false) (hcomment : l ≠ .comment) :
    (readFrom n block (raw :: rest)).firstError? = ((ended block).findSome? Located.error?).or
      ((l.definition?.bind fun d => Located.error? ⟨n, d⟩).or (readFrom (n + 1) none rest).firstError?) := by
  have hprepend : ∀ definitions file, (prepend definitions file).firstError? =
      (definitions.findSome? Located.error?).or file.firstError? := fun definitions file => by
    rw [firstError?, prepend, List.findSome?_append, Option.or_assoc]
    rfl
  rw [readFrom, hl]
  cases l with
  | expression rule => cases hrule
  | comment => exact absurd rfl hcomment
  | blank =>
    dsimp only
    rw [hprepend]
    rfl
  | tokenRule token literal =>
    dsimp only
    rw [hprepend, List.findSome?_append, Option.or_assoc]
    simp [Line.definition?]
  | sentence word =>
    dsimp only
    rw [hprepend, List.findSome?_append, Option.or_assoc]
    simp [Line.definition?]

/-- A line that cannot be read is what is reported, whatever block is open. -/
theorem readFrom_of_wrong {raw : List Char} {rest : List (List Char)} {block : OpenBlock} {cause : SyntaxError}
    (hl : Line.classify raw = .error cause) : (readFrom n block (raw :: rest)).firstError? =
      some (.atLine n (.malformed cause)) := by
  rw [readFrom, hl]
  rfl

/-- With a rule or a comment reading just goes on, and knows what is open then. -/
theorem readFrom_of_goesOn {raw : List Char} {rest : List (List Char)} {block : OpenBlock} {l : Line}
    (h : OpenBefore lines n block) (hraw : lines[n]? = some raw) (hl : Line.classify raw = .ok l)
    (hin : ¬ (l.isRule = false ∧ l ≠ .comment)) : l.definition? = none ∧ ∃ block',
      OpenBefore lines (n + 1) block' ∧ readFrom (n + 1) block (raw :: rest) = readFrom (n + 2) block' rest := by
  cases l with
  | comment => exact ⟨rfl, block, h.comment hraw hl, by rw [readFrom, hl]⟩
  | expression rule => exact ⟨rfl, _, h.rule hraw hl, by rw [readFrom, hl]⟩
  | _ => exact absurd ⟨rfl, by simp⟩ hin

/-- Reading on from line `n` reports what is met first from there on. -/
theorem readFrom_firstError?_iff : ∀ {rest : List (List Char)} {n : Nat} {block : OpenBlock} {e : GrammarError},
    n ≤ lines.length → lines.drop n = rest → OpenBefore lines n block →
      (FirstFrom lines (2 * n) e ↔ (readFrom (n + 1) block rest).firstError? = some e)
  | [], n, block, e, hn, hrest, hopen => by
    have hlast : n = lines.length := Nat.le_antisymm hn (List.drop_eq_nil_iff.1 hrest)
    have hnone : ∀ e, FirstFrom lines (2 * n + 1) e ↔ none = some e := fun e => by
      constructor
      · rintro ⟨met, hle, hmet, -⟩
        have hle' := hmet.le
        omega
      · intro h
        cases h
    exact FirstFrom.step (fun e => offends_closed_iff hopen (Or.inl hlast)) fun _ => hnone
  | raw :: rest, n, block, e, hn, hrest, hopen => by
    have hraw : lines[n]? = some raw := by
      rw [← List.head?_drop, hrest]
      rfl
    have hnext : lines.drop (n + 1) = rest := by rw [← List.tail_drop, hrest, List.tail_cons]
    have hlt : n + 1 ≤ lines.length := (List.getElem?_eq_some_iff.1 hraw).1
    have hkind := kindAt_eq hraw
    cases hl : Line.classify raw with
    | error cause =>
      rw [hl] at hkind
      have hstays : ¬ ClosesAt lines n := fun ⟨l, hkind', _⟩ => by cases hkind.symm.trans hkind'
      have hwrong : ∀ e, Offends lines (2 * n + 1) e ↔
          some (.atLine (n + 1) (.malformed cause)) = some e := fun e => by
        rw [offends_odd_iff, hkind, Option.some.injEq]
        simp [eq_comm]
      rw [readFrom_of_wrong hl]
      show _ ↔ none.or ((some (.atLine (n + 1) (.malformed cause))).or none) = some e
      refine FirstFrom.step (fun e => offends_open_iff hlt hstays) fun _ e => ?_
      exact FirstFrom.step hwrong fun h => by cases h
    | ok l =>
      rw [hl] at hkind
      have hline : ∀ e, Offends lines (2 * n + 1) e ↔ _ :=
        fun e => offends_line_iff hkind (Line.classify_wellFormed hl)
      by_cases hcloses : l.isRule = false ∧ l ≠ .comment
      · rw [readFrom_of_closes hl hcloses.1 hcloses.2]
        refine FirstFrom.step (fun e => offends_closed_iff hopen (Or.inr ⟨l, hkind, hcloses⟩)) fun _ e => ?_
        refine FirstFrom.step hline fun _ e => ?_
        exact readFrom_firstError?_iff hlt hnext (openBefore_none_of_closesAt ⟨l, hkind, hcloses⟩)
      · have hstays : ¬ ClosesAt lines n := fun ⟨l', hkind', hcloses'⟩ => by
          cases hkind.symm.trans hkind'
          exact hcloses hcloses'
        obtain ⟨hdefines, block', hopen', hread⟩ := readFrom_of_goesOn hopen hraw hl hcloses
        simp only [hdefines, Option.bind_none] at hline
        rw [hread]
        show _ ↔ none.or (none.or (readFrom (n + 2) block' rest).firstError?) = some e
        refine FirstFrom.step (fun e => offends_open_iff hlt hstays) fun _ e => ?_
        refine FirstFrom.step hline fun _ e => ?_
        exact readFrom_firstError?_iff hlt hnext hopen'

end DefinitionFile

theorem ofLines_eq_error_iff_firstFrom : Automaton.ofLines lines = .error e ↔ FirstFrom lines 0 e := by
  rw [Automaton.ofLines_eq_error_iff, DefinitionFile.read,
    ← DefinitionFile.readFrom_firstError?_iff (Nat.zero_le _) List.drop_zero (openBefore_zero lines)]

/-- If anything is at fault, something is met first. -/
theorem exists_firstFrom_iff : (∃ e, FirstFrom lines 0 e) ↔ ∃ met e, Offends lines met e := by
  constructor
  · rintro ⟨e, met, -, hmet, -⟩
    exact ⟨met, e, hmet⟩
  · intro h
    classical
    obtain ⟨e, hmet⟩ := Nat.find_spec h
    exact ⟨e, Nat.find h, Nat.zero_le _, hmet, fun met' e' _ hmet' => Nat.find_min' h ⟨e', hmet'⟩⟩

/-- A file has no automaton just if a line cannot be read, a block has a rule
whose name is taken, or a token is named like the initial state. It is refused
for what is met first of all that is at fault, and the error tells a line of the
file: the one at fault, or the first one of the block. -/
theorem ofLines_first_fault (lines : List (List Char)) :
    ((∃ e, Automaton.ofLines lines = .error e) ↔
      (∃ i cause, kindAt lines i = some (.error cause)) ∨
      (∃ first past rules, IsBlock lines first past rules ∧ ¬ Distinct rules) ∨
      ∃ i, ∃ l : Line, kindAt lines i = some (.ok l) ∧ l.token? = some rootLabel) ∧
    (∀ e, Automaton.ofLines lines = .error e ↔
      ∃ met, Offends lines met e ∧ ∀ met' e', Offends lines met' e' → met ≤ met') ∧
    ∀ e, Automaton.ofLines lines = .error e → ∃ line fault, e = .atLine line fault ∧ 1 ≤ line ∧
      line ≤ lines.length ∧
      ((∃ cause, fault = .malformed cause) ∨ ∃ label, fault = .automaton (.duplicateLabel label)) := by
  refine ⟨?_, fun e => ?_, fun e h => ?_⟩
  · simp only [ofLines_eq_error_iff_firstFrom]
    rw [exists_firstFrom_iff]
    constructor
    · rintro ⟨met, e, hmet⟩
      cases hmet with
      | wrong hi => exact Or.inl ⟨_, _, hi⟩
      | reserved hi ht => exact Or.inr (Or.inr ⟨_, _, hi, ht⟩)
      | block hblock hclash => exact Or.inr (Or.inl ⟨_, _, _, hblock, not_distinct_iff.2 ⟨_, hclash⟩⟩)
    · rintro (⟨i, cause, hi⟩ | ⟨first, past, rules, hblock, hclash⟩ | ⟨i, l, hi, ht⟩)
      · exact ⟨_, _, .wrong hi⟩
      · obtain ⟨label, hclash⟩ := not_distinct_iff.1 hclash
        exact ⟨_, _, .block hblock hclash⟩
      · exact ⟨_, _, .reserved hi ht⟩
  · rw [ofLines_eq_error_iff_firstFrom]
    simp only [FirstFrom, Nat.zero_le, true_and, forall_const]
  · obtain ⟨met, -, hmet, -⟩ := ofLines_eq_error_iff_firstFrom.1 h
    cases hmet with
    | wrong hi => exact ⟨_, _, rfl, by omega, lt_length_of_kindAt hi, Or.inl ⟨_, rfl⟩⟩
    | reserved hi ht => exact ⟨_, _, rfl, by omega, lt_length_of_kindAt hi, Or.inr ⟨_, rfl⟩⟩
    | block hblock hclash =>
      exact ⟨_, _, rfl, by omega, lt_length_of_inBlockAt (Or.inl hblock.starts), Or.inr ⟨_, rfl⟩⟩

/-- The last line closes the block, which is met before that line is. -/
example : Automaton.ofLines
    ["<A> ::= a".toList, "# twice".toList, "<A> ::= b".toList, "START -> x".toList] =
      .error (.atLine 1 (.automaton (.duplicateLabel "A"))) := by rfl

end TokenAutomata
