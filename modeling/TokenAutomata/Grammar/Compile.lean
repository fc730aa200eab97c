/-
# From definitions to automata

Each definition becomes an automaton of its own. A literal becomes a chain of
states that spells it. A block of rules becomes one state for each
nonterminal, the first one initial, and for each alternative a chain from the
state of its rule; a chain without a reference ends in a new state of its
own. Alternatives that refer to a nonterminal without a rule are dropped, and
so are, in the end, states that no word needs.

The automata of all definitions of a file are joined at their initial states.

Key definitions: `GrammarError`, `Automaton.ofLiteral`, `Automaton.ofRules`,
`Definition.automaton`, `DefinitionFile.automaton`, `Automaton.ofLines`.
-/
import TokenAutomata.Automaton.Builder
import TokenAutomata.Grammar.Definition
import TokenAutomata.Text.Uppercase

namespace TokenAutomata

/-- What is wrong with a grammar. -/
inductive GrammarError where
  /-- A line is wrong. -/
  | malformed (cause : SyntaxError)
  /-- There is no rule to start from. -/
  | noRules
  /-- It was found at a line of a file. -/
  | atLine (line : Nat) (source : GrammarError)
  /-- The automaton cannot be built. -/
  | automaton (cause : AutomatonError)
deriving DecidableEq

namespace GrammarError

def message : GrammarError → String
  | .malformed cause => cause.message
  | .noRules => "grammar has no rules"
  | .atLine line source => s!"line {line}: {source.message}"
  | .automaton cause => cause.message

/-- The error, found at a line. It may tell where it was found already. -/
def foundAt (line : Nat) : GrammarError → GrammarError
  | .atLine first source => .atLine first source
  | e => .atLine line e

end GrammarError

namespace Automaton

variable {σ : Type} [Builder σ]

/-- Adds a path that spells `symbols` from the state `source`. The states on
the way are labelled `stem` with numbers that go on from `k`; `finish` gives
the last state and the numbers used in the end. -/
def addPath (stem : String) (finish : Nat → Change σ (Nat × Nat)) :
    Nat → List Symbol → Nat → Change σ Nat
  | _, [], k => return k
  | source, [c], k => do
    let (target, k) ← finish k
    Builder.addTransition source c target
    return k
  | source, c :: rest, k => do
    let target ← Builder.addState s!"{stem}_{k + 1}"
    Builder.addTransition source c target
    addPath stem finish target rest (k + 1)

/-- The automaton of one text: `START -i-> IF_1 -f-> IF`, where the last
state is marked `IF`. The empty text gives no path at all. -/
def ofLiteral (token : String) (literal : List Symbol) : Except AutomatonError σ :=
  let finish (k : Nat) : Change σ (Nat × Nat) := do
    let target ← Builder.addFinalState token token
    return (target, k)
  (addPath token finish (Builder.initialId (Builder.fresh : σ)) literal 0).exec Builder.fresh

/-- The automaton of a word, whose token is the word in upper case. -/
def ofWord (word : List Symbol) : Except AutomatonError σ :=
  ofLiteral (Text.uppercase (String.ofList word)) word

/-! ### Rules -/

/-- Adds a state for each rule whose name is not among those of `declared`
and gives all rules with their states. -/
def declareRules (declared : List (Rule × Nat)) : List Rule → Change σ (List (Rule × Nat))
  | [] => return declared
  | rule :: rest => do
    if declared.any (·.1.name == rule.name) then
      throw (.duplicateLabel rule.name)
    let id ← Builder.addState rule.name
    declareRules (declared ++ [(rule, id)]) rest

/-- The state of a nonterminal. -/
def stateOf? (declared : List (Rule × Nat)) (name : String) : Option Nat :=
  (declared.find? (·.1.name == name)).map Prod.snd

/-- Adds an alternative of the rule `name`, whose state is `source`. The
empty alternative marks that state. -/
def addAlternative (declared : List (Rule × Nat)) (name : String) (source k : Nat) :
    Alternative → Change σ Nat
  | .epsilon => do
    Builder.setMarker source (some name)
    return k
  | .production terminals none =>
    let finish (k : Nat) : Change σ (Nat × Nat) := do
      let target ← Builder.addFinalState s!"{name}_{k + 1}" name
      return (target, k + 1)
    addPath name finish source terminals k
  | .production terminals (some next) =>
    match stateOf? declared next with
    | none => return k
    | some target => addPath name (fun k => return (target, k)) source terminals k

/-- Adds the alternatives of a rule, in order. -/
def addAlternatives (declared : List (Rule × Nat)) (rule : Rule) (source : Nat) : Change σ Unit :=
  discard <| rule.alternatives.foldlM (fun k => addAlternative declared rule.name source k) 0

/-- Adds the states and paths of all rules; `first` has the initial state. -/
def addRules (first : Rule) (rest : List Rule) : Change σ Unit := do
  let a ← get
  let declared ← declareRules [(first, Builder.initialId a)] rest
  declared.forM fun (rule, source) => addAlternatives declared rule source
  discard Builder.prune

/-- The automaton of a block of rules. -/
def ofRules : List Rule → Except GrammarError σ
  | [] => .error .noRules
  | first :: rest => ((addRules first rest).exec Builder.fresh).mapError .automaton

/-- The automaton of the rules that some lines hold. -/
def ofRuleLines (lines : List (List Char)) : Except GrammarError σ := do
  let rules ← lines.zipIdx.mapM fun (line, i) =>
    (Rule.read line).mapError fun cause => (GrammarError.malformed cause).foundAt (i + 1)
  ofRules rules

end Automaton

/-! ### Definition files -/

variable {σ : Type} [Builder σ]

/-- The automaton of one definition. -/
def Definition.automaton : Definition → Except GrammarError σ
  | .block rules => Automaton.ofRules rules
  | .tokenRule token literal => (Automaton.ofLiteral token literal).mapError .automaton
  | .sentence word => (Automaton.ofWord word).mapError .automaton

/-- Joins the automaton of a definition to what there is. -/
def Automaton.define (a : σ) (d : Definition) : Except GrammarError σ := do
  let fragment ← d.automaton
  ((Builder.concat fragment).exec a).mapError .automaton

/-- The automaton of a file: its definitions, joined in order. -/
def DefinitionFile.automaton (file : DefinitionFile) : Except GrammarError σ := do
  let a ← file.definitions.foldlM
    (fun a d => (Automaton.define a d.value).mapError (·.foundAt d.line)) Builder.fresh
  match file.fault with
  | none => return a
  | some ⟨line, cause⟩ => throw ((GrammarError.malformed cause).foundAt line)

/-- The automaton of the lines of a definition file. -/
def Automaton.ofLines (lines : List (List Char)) : Except GrammarError σ :=
  (DefinitionFile.read lines).automaton

end TokenAutomata
