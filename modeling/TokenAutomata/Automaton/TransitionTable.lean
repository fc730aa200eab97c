/-
# The transition table

An automaton as a text grid: one row for each state, one column for each
symbol of the alphabet. A cell shows the labels of the destinations, `-` if
there are none, and `?` for a destination that no state has.

Key definitions: `Automaton.tableHeader`, `Automaton.tableRow`,
`Automaton.transitionTable`.
-/
import TokenAutomata.Automaton.Basic
import TokenAutomata.Text.Grid

namespace TokenAutomata
namespace Automaton

/-- The label of a state, as a destination. -/
def labelOf (a : Automaton) (id : Nat) : String := ((a.state? id).map (·.label)).getD "?"

/-- The destinations in the row of a state and the column of a symbol. -/
def tableCell (a : Automaton) (s : State) (c : Symbol) : String :=
  let ids := s.moves.dests c
  if ids.isEmpty then "-" else ", ".intercalate (ids.toList.map a.labelOf)

def tableHeader (a : Automaton) : List String := "/" :: a.alphabet.map fun c => String.ofList [c]

def tableRow (a : Automaton) (s : State) : List String :=
  s.prettyLabel :: a.alphabet.map (a.tableCell s)

def transitionTable (a : Automaton) : String :=
  let cells (row : List String) : List (List Char) := row.map String.toList
  String.ofList <| ['\n'].intercalate <|
    Text.gridLines (cells a.tableHeader) (a.states.map fun s => cells (a.tableRow s))

end Automaton
end TokenAutomata
