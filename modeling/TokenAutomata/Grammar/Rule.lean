/-
# Rules of a right-linear grammar

A rule gives a nonterminal its alternatives. An alternative is empty, or
spells some terminals and then ends or goes on with another nonterminal. It
is written

    <NAME> ::= abc<NEXT> | d | ε

Any character may be a terminal but blanks, `<`, `>`, `|` and `ε`. Names are
made of capital letters and `_`.

Key definitions: `Rule`, `Alternative`, `Rule.text`, `Rule.WellFormed`.
-/
import TokenAutomata.Moves
import TokenAutomata.Text.Blank

namespace TokenAutomata

/-- What a nonterminal may be replaced by. -/
inductive Alternative where
  /-- Nothing: the nonterminal may end here. -/
  | epsilon
  /-- Terminals, then the nonterminal to go on with, if there is one. -/
  | production (terminals : List Symbol) (next : Option String)
deriving DecidableEq

structure Rule where
  name : String
  alternatives : List Alternative
deriving DecidableEq

/-- The empty alternative, as it is written. -/
def epsilonSymbol : Symbol := 'ε'

/-- Capital letters and `_`, at least one. -/
def isNonterminalName (name : List Char) : Bool :=
  !name.isEmpty && name.all fun c => c.isUpper || c == '_'

/-- What may be written between the marks of a rule. -/
def isTerminal (c : Char) : Bool := !Text.isBlank c && c != '<' && c != '>' && c != '|'

/-! ### Writing rules -/

/-- A nonterminal as a rule writes it. -/
def referenceText (name : String) : List Char := '<' :: name.toList ++ ['>']

def Alternative.text : Alternative → List Char
  | .epsilon => [epsilonSymbol]
  | .production terminals next => terminals ++ (next.map referenceText).getD []

def Rule.text (r : Rule) : List Char :=
  referenceText r.name ++ " ::= ".toList ++
    [' ', '|', ' '].intercalate (r.alternatives.map Alternative.text)

/-! ### Which rules can be written -/

/-- Terminals are there and can be told from marks, and a name follows or
nothing. -/
def Alternative.WellFormed : Alternative → Prop
  | .epsilon => True
  | .production terminals next =>
    terminals ≠ [] ∧ (∀ c ∈ terminals, isTerminal c = true ∧ c ≠ epsilonSymbol) ∧
      ∀ name ∈ next, isNonterminalName name.toList = true

/-- A proper name and at least one alternative, all well-formed. -/
structure Rule.WellFormed (r : Rule) : Prop where
  name : isNonterminalName r.name.toList = true
  nonempty : r.alternatives ≠ []
  alternatives : ∀ alt ∈ r.alternatives, alt.WellFormed

end TokenAutomata
