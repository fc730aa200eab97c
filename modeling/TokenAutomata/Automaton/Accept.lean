/-
# Acceptance

An automaton reads a word by keeping the set of all states it could be in.
It accepts if, at the end, one of them is final.

Key definitions: `Automaton.step`, `Automaton.statesAfter`,
`Automaton.accepts`.
-/
import TokenAutomata.Automaton.Basic

namespace TokenAutomata
namespace Automaton

/-- All ids that a symbol leads to from some ids. -/
def step (a : Automaton) (ids : IdSet) (c : Symbol) : IdSet :=
  .ofList ((a.statesOf ids).flatMap fun s => (s.moves.dests c).toList)

/-- All ids that a word leads to from the initial state. -/
def statesAfter (a : Automaton) (word : List Symbol) : IdSet :=
  word.foldl a.step (.singleton a.initial.id)

def accepts (a : Automaton) (word : List Symbol) : Bool :=
  (a.statesOf (a.statesAfter word)).any (·.isFinal)

end Automaton
end TokenAutomata
