/-
# What rules derive

From a nonterminal, right-linear rules derive a text with a nonterminal at
its end, step by step (`Derives`), and then a last step ends with terminals
alone or with nothing (`Ends`). The nonterminal of the last step is the
marker of the word (`DerivesWord`). An alternative that refers to a
nonterminal without a rule derives no word.

An automaton for the rules reads an alternative symbol by symbol. What a state
of it stands for is a `Role`: a nonterminal, or a place inside an alternative.
`Role.Step` and `Role.Final` say where a role leads and which marker it has,
and by `Reading` a text that roles read is one the rules derive.

Key definitions: `Derives`, `Ends`, `DerivesWord`, `Role`, `Role.Step`,
`Role.Final`, `Reading`.
Key theorems: `Derives.trans`, `Derives.of_not_referred`, `Reading.step`,
`Reading.final`.
-/
import TokenAutomata.Grammar.Rule

namespace TokenAutomata

/-- `Derives rules n u m`: from `n`, some steps derive `u` with `m` behind. -/
inductive Derives (rules : List Rule) : String → List Symbol → String → Prop
  | refl (n : String) : Derives rules n [] n
  | step {rule : Rule} {terminals u : List Symbol} {next m : String} : rule ∈ rules →
      .production terminals (some next) ∈ rule.alternatives → Derives rules next u m →
      Derives rules rule.name (terminals ++ u) m

/-- `Ends rules n v`: in one step, `n` derives `v` with nothing behind. -/
inductive Ends (rules : List Rule) : String → List Symbol → Prop
  | epsilon {rule : Rule} : rule ∈ rules → .epsilon ∈ rule.alternatives → Ends rules rule.name []
  | terminals {rule : Rule} {v : List Symbol} : rule ∈ rules →
      .production v none ∈ rule.alternatives → Ends rules rule.name v

/-- `n` derives the word `w`, with a last step from `m`. -/
def DerivesWord (rules : List Rule) (n : String) (w : List Symbol) (m : String) : Prop :=
  ∃ u v, u ++ v = w ∧ Derives rules n u m ∧ Ends rules m v

variable {rules : List Rule} {n m k : String} {u v w : List Symbol}

theorem Derives.trans (h : Derives rules n u m) (h' : Derives rules m v k) :
    Derives rules n (u ++ v) k := by
  induction h with
  | refl n => exact h'
  | @step rule terminals u next m hrule halt _ ih =>
    rw [List.append_assoc]
    exact .step hrule halt (ih h')

/-- Nothing but the nonterminal itself derives a text with a nonterminal behind
that no rule refers to. -/
theorem Derives.of_not_referred (h : Derives rules n u m)
    (hm : ∀ rule ∈ rules, ∀ v, .production v (some m) ∉ rule.alternatives) : n = m ∧ u = [] := by
  induction h with
  | refl n => exact ⟨rfl, rfl⟩
  | @step rule terminals u next m hrule halt _ ih =>
    obtain ⟨rfl, -⟩ := ih hm
    exact absurd halt (hm rule hrule terminals)

/-! ### Roles -/

/-- What a state of an automaton for rules stands for: the nonterminal of a
rule, or a place inside an alternative of it, after some terminals, before
others and before what follows them. -/
inductive Role where
  | nonterminal (name : String)
  | inside (name : String) (before after : List Symbol) (next : Option String)

namespace Role

/-- The place in an alternative after some of its terminals. Where they end
before a nonterminal, that is the place. -/
def place (name : String) (before : List Symbol) : List Symbol → Option String → Role
  | [], some next => .nonterminal next
  | after, next => .inside name before after next

/-- `r.Step rules c r'`: from `r` one reads `c` and gets to `r'`. -/
inductive Step (rules : List Rule) : Role → Symbol → Role → Prop
  | first {rule : Rule} {c : Symbol} {after : List Symbol} {next : Option String} : rule ∈ rules →
      .production (c :: after) next ∈ rule.alternatives →
      Step rules (.nonterminal rule.name) c (place rule.name [c] after next)
  | next {name : String} {before after : List Symbol} {c : Symbol} {next : Option String} :
      Step rules (.inside name before (c :: after) next) c (place name (before ++ [c]) after next)

/-- A word may end here, marked with the name of its rule. -/
inductive Final (rules : List Rule) : Role → String → Prop
  | epsilon {rule : Rule} : rule ∈ rules → .epsilon ∈ rule.alternatives →
      Final rules (.nonterminal rule.name) rule.name
  | terminals (name : String) (before : List Symbol) : Final rules (.inside name before [] none) name

/-- The nonterminal of a role. -/
def name : Role → String
  | .nonterminal name => name
  | .inside name _ _ _ => name

/-- A role has no marker but its own name. -/
theorem Final.eq_name {r : Role} {t : String} (h : Final rules r t) : t = r.name := by
  cases h with
  | epsilon _ _ => rfl
  | terminals name before => rfl

end Role

/-- `Reading rules n w r`: from `n`, the rules derive `w` up to `r`. -/
def Reading (rules : List Rule) (n : String) (w : List Symbol) : Role → Prop
  | .nonterminal m => Derives rules n w m
  | .inside m before after next => ∃ u, u ++ before = w ∧ Derives rules n u m ∧
      ∃ rule ∈ rules, rule.name = m ∧ .production (before ++ after) next ∈ rule.alternatives

namespace Reading

open Role

/-- Where an alternative has been read up to a place, so has the text. -/
theorem place {before after : List Symbol} {next : Option String} {rule : Rule}
    (hu : Derives rules n u rule.name) (hrule : rule ∈ rules)
    (halt : .production (before ++ after) next ∈ rule.alternatives) :
    Reading rules n (u ++ before) (Role.place rule.name before after next) := by
  cases after with
  | cons d after => exact ⟨u, rfl, hu, rule, hrule, rfl, halt⟩
  | nil =>
    cases next with
    | none => exact ⟨u, rfl, hu, rule, hrule, rfl, halt⟩
    | some next =>
      rw [List.append_nil] at halt
      have hstep : Derives rules rule.name (before ++ []) next := .step hrule halt (.refl next)
      rw [List.append_nil] at hstep
      exact hu.trans hstep

theorem step {c : Symbol} {r r' : Role} (h : Reading rules n w r) (hstep : Step rules r c r') :
    Reading rules n (w ++ [c]) r' := by
  cases hstep with
  | first hrule halt => exact place h hrule halt
  | @next name before after _ next =>
    obtain ⟨u, rfl, hu, rule, hrule, rfl, halt⟩ := h
    rw [List.append_assoc]
    refine place hu hrule ?_
    rw [List.append_assoc]
    exact halt

theorem final {t : String} {r : Role} (h : Reading rules n w r) (hf : Final rules r t) :
    DerivesWord rules n w t := by
  cases hf with
  | epsilon hrule halt => exact ⟨w, [], List.append_nil w, h, .epsilon hrule halt⟩
  | terminals name before =>
    obtain ⟨u, rfl, hu, rule, hrule, rfl, halt⟩ := h
    rw [List.append_nil] at halt
    exact ⟨u, before, rfl, hu, .terminals hrule halt⟩

end Reading
end TokenAutomata
