/-
# Joining automata at the root

`concat` copies the states of another automaton behind those already there
and folds its initial state into the present one. The copies get new ids, in
order, from `nextId` on, and a copy whose label is taken gets a unique one.
The initial states have to agree in label.

Key definitions: `Automaton.joinedId`, `Automaton.concat`.
-/
import TokenAutomata.Automaton.Edit

namespace TokenAutomata
namespace Automaton

/-- The id that a state of `other` has after it was joined to `a`: the
initial states become one, the others are numbered on from `a.nextId`. An id
that no state of `other` has stays as it is. -/
def joinedId (a other : Automaton) (id : Nat) : Nat :=
  if id = other.initial.id then a.initial.id
  else
    match other.others.findIdx? (·.id == id) with
    | some k => a.nextId + k
    | none => id

/-- Takes over the marker, if there is none, and the moves of a state into
the initial state. -/
def mergeInitial (s : State) : Edit Unit := fun a =>
  .ok () { a with initial := (a.initial.mergeMarker s).mergeMoves s }

/-- Joins a copy of `other` to the automaton at the initial states. -/
def concat (other : Automaton) : Edit Unit := do
  let a ← get
  if a.initial.label ≠ other.initial.label then
    throw (.mismatchedRoots a.initial.label other.initial.label)
  other.others.forM fun s => discard (adopt (s.rename (a.joinedId other)))
  mergeInitial (other.initial.rename (a.joinedId other))

end Automaton
end TokenAutomata
