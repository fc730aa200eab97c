/-
# Stored tables

An automaton is stored as a table: the initial id and the states as a list,
each with its moves as a list. A table may be about anything; it describes an
automaton if the initial id is listed, ids and labels are listed once, and
all moves lead to ids that are listed.

In an automaton the initial state has id 0. So a table whose initial id is
another one has the two ids swapped when it becomes an automaton.

Key definitions: `StoredTable`, `StoredTable.ofAutomaton`,
`StoredTable.automaton`, `LoadError`.
-/
import TokenAutomata.Automaton.Builder

namespace TokenAutomata

/-- The destinations on a symbol. A symbol may have several such entries. -/
structure StoredMove where
  symbol : Symbol
  targets : List Nat
deriving DecidableEq

structure StoredState where
  id : Nat
  label : String
  marker : Option String := none
  moves : List StoredMove := []
deriving DecidableEq

structure StoredTable where
  initial : Nat
  states : List StoredState
deriving DecidableEq

/-- Why no automaton can be loaded. -/
inductive LoadError where
  /-- The text is no table. -/
  | malformed
  /-- No state has the initial id. -/
  | initialNotListed (id : Nat)
  /-- The state of this id cannot be added. -/
  | atState (id : Nat) (cause : AutomatonError)
  /-- The automaton would be wrong as a whole. -/
  | automaton (cause : AutomatonError)
deriving DecidableEq

/-- What is wrong and, after it, the causes. -/
def LoadError.chain : LoadError → List String
  | .malformed => ["failed to parse automaton JSON"]
  | .initialNotListed id => [s!"initial state {idText id} is not listed"]
  | .atState id cause => [s!"state {idText id}", cause.message]
  | .automaton cause => [cause.message]

/-! ### From an automaton -/

def StoredMove.ofEntry (entry : Symbol × IdSet) : StoredMove := ⟨entry.1, entry.2.toList⟩

def StoredState.ofState (s : State) : StoredState :=
  { id := s.id, label := s.label, marker := s.marker, moves := s.moves.entries.map .ofEntry }

def StoredTable.ofAutomaton (a : Automaton) : StoredTable :=
  { initial := a.initial.id, states := a.states.map .ofState }

/-! ### To an automaton -/

/-- The id in the automaton: 0 and the initial id are swapped. -/
def StoredTable.idOf (t : StoredTable) (id : Nat) : Nat :=
  if id = t.initial then 0 else if id = 0 then t.initial else id

/-- The moves of the entries, added one by one under new ids. -/
def StoredState.movesUnder (s : StoredState) (rename : Nat → Nat) : Moves :=
  let addEntry (m : Moves) (entry : StoredMove) : Moves :=
    entry.targets.foldl (fun m id => m.insert entry.symbol (rename id)) m
  s.moves.foldl addEntry {}

/-- The state under its new id. -/
def StoredState.stateUnder (s : StoredState) (rename : Nat → Nat) : State :=
  { (State.new (rename s.id) s.label).setMarker s.marker with moves := s.movesUnder rename }

namespace StoredTable

variable {σ : Type} [Builder σ]

/-- Adds a listed state. One with the initial id takes the initial place, even
if another one took it before. -/
def addState (t : StoredTable) (a : σ) (s : StoredState) : Except LoadError σ :=
  let state := s.stateUnder t.idOf
  if s.id = t.initial then ((Builder.replaceInitial state).exec a).mapError .automaton
  else ((Builder.insert state).exec a).mapError (.atState s.id)

/-- The automaton that a table describes. -/
def automaton (t : StoredTable) : Except LoadError σ := do
  match t.states.find? (·.id == t.initial) with
  | none => throw (.initialNotListed t.initial)
  | some root =>
    let a ← t.states.foldlM t.addState (Builder.withInitial root.label)
    (Builder.validate a).mapError .automaton
    return a

end StoredTable
end TokenAutomata
