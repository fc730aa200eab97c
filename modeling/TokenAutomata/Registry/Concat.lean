/-
# Joining registries at the root

The states of another registry are copied behind those already there, and its
initial state is folded into the present one. The new ids of the copies are
put down in a map before the first copy is made, and a copy whose label is
taken gets a unique one.

A registry can be built like an automaton (`Builder`).

Key definitions: `Registry.renames`, `Registry.adopt`, `Registry.concat`.
-/
import TokenAutomata.Automaton.Builder
import TokenAutomata.Registry.Reach

namespace TokenAutomata
namespace Registry

/-- The new ids: the initial states become one, the others are numbered on. -/
def renames (r other : Registry) (copied : List State) : OrderedMap Nat Nat :=
  copied.zipIdx.foldl (fun m (s, offset) => m.insert s.id (r.nextId + offset))
    ((∅ : OrderedMap Nat Nat).insert other.initial r.initial)

/-- Adds a state under the id it has, under another label if its own is
taken. -/
def adopt (s : State) : Change Registry Nat := fun r =>
  let label := r.uniqueLabel s.label s.id
  insert (if label ≠ s.label then { s with label } else s) r

/-- Takes over the marker, if there is none, and the moves of a state into
the initial state. -/
def mergeInitial (s : State) : Change Registry Unit :=
  modify fun r => r.update r.initial fun initial => (initial.mergeMarker s).mergeMoves s

/-- Joins a copy of `other` to the registry at the initial states. -/
def concat (other : Registry) : Change Registry Unit := do
  let r ← get
  if r.initialState.label ≠ other.initialState.label then
    throw (.mismatchedRoots r.initialState.label other.initialState.label)
  let copied := other.states.values.filter (·.id ≠ other.initial)
  let renames := renames r other copied
  let rename (s : State) : State := s.rename fun id => (renames.get? id).getD id
  copied.forM fun s => discard (adopt (rename s))
  mergeInitial (rename other.initialState)

end Registry

instance : Builder Registry where
  withInitial := Registry.withInitial
  initialId r := r.initial
  addState := Registry.addState
  addFinalState := Registry.addFinalState
  addTransition := Registry.addTransition
  setMarker := Registry.setMarker
  insert := Registry.insert
  replaceInitial := Registry.replaceInitial
  concat := Registry.concat
  prune := Registry.prune
  validate := Registry.validate

end TokenAutomata
