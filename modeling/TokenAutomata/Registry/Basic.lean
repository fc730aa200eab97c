/-
# The registry of states

The states of an automaton are kept in a registry: the states by id, in the
order they were added, the ids by label, the initial id, and the id of the
next new state. Each change updates the fields that it concerns and leaves the
others alone, so that they keep telling the same story is not built into the
registry but has to be shown of every change. As a list of states, in order,
a registry is an automaton (`Registry.view`).

A change checks what it is given before it writes anything.

Key definitions: `Registry`, `Registry.view`, `Registry.insert`,
`Registry.addState`, `Registry.replaceInitial`, `Registry.addTransition`,
`Registry.setMarker`, `Registry.forgetState`, `Registry.editState`,
`Registry.uniqueLabel`, `Registry.validate`.
-/
import TokenAutomata.Automaton.Edit
import TokenAutomata.OrderedMap

namespace TokenAutomata

structure Registry where
  states : OrderedMap Nat State
  /-- The id of each label. -/
  labels : OrderedMap String Nat
  initial : Nat
  nextId : Nat
deriving DecidableEq

namespace Registry

/-- One state, which accepts nothing. -/
def withInitial (label : String) : Registry where
  states := (∅ : OrderedMap Nat State).insert 0 (.new 0 label)
  labels := (∅ : OrderedMap String Nat).insert label 0
  initial := 0
  nextId := 1

def new : Registry := withInitial Automaton.rootLabel

/-! ### Looking at a registry -/

def state? (r : Registry) (id : Nat) : Option State := r.states.get? id

/-- The state of the initial id, which is always there. -/
def initialState (r : Registry) : State := (r.state? r.initial).getD default

def idOf? (r : Registry) (label : String) : Option Nat := r.labels.get? label

def byLabel? (r : Registry) (label : String) : Option State := (r.idOf? label).bind r.state?

def size (r : Registry) : Nat := r.states.size

def contains (r : Registry) (id : Nat) : Bool := r.states.contains id

/-- The states among some ids, in the order of the ids. -/
def statesOf (r : Registry) (ids : IdSet) : List State := ids.toList.filterMap r.state?

def isDeterministic (r : Registry) : Bool := r.states.values.all (·.moves.isDeterministic)

/-- The first destination of a state that no state has. -/
def missingFrom? (r : Registry) (s : State) : Option Nat :=
  s.moves.entries.findSome? fun (_, ids) => ids.toList.find? (!r.contains ·)

/-- Fails on the first move that leads to no state. -/
def validate (r : Registry) : Except AutomatonError Unit :=
  match r.states.values.findSome? r.missingFrom? with
  | some missing => .error (.unknownState missing)
  | none => .ok ()

/-- A label that the index does not have: `label` itself or the first free
candidate. -/
def uniqueLabel (r : Registry) (label : String) (id : Nat) : String :=
  if r.labels.contains label then
    Automaton.firstFree (Automaton.labelCandidate label id) r.labels.keys 0
  else label

/-- The states as a list, the initial one in its place before the others. -/
def view (r : Registry) : Automaton where
  initial := r.initialState
  others := (r.states.remove r.initial).values
  nextId := r.nextId

/-! ### Changes -/

/-- Adds a state under the id it has. -/
def insert (s : State) : Change Registry Nat := fun r =>
  if r.labels.contains s.label then .error (.duplicateLabel s.label) r
  else if r.contains s.id then .error (.duplicateId s.id) r
  else
    .ok s.id { r with
      nextId := max r.nextId (s.id + 1)
      labels := r.labels.insert s.label s.id
      states := r.states.insert s.id s }

/-- Adds a new state that does not accept. -/
def addState (label : String) : Change Registry Nat := fun r => insert (.new r.nextId label) r

/-- Changes the state of an id in its place. -/
def update (r : Registry) (id : Nat) (f : State → State) : Registry :=
  { r with states := r.states.modify id f }

/-- Adds a new state at which a token ends. -/
def addFinalState (label token : String) : Change Registry Nat := do
  let id ← addState label
  modify fun r => r.update id (·.setMarker (some token))
  return id

/-- Marks a state with the token that ends there, or with none. -/
def setMarker (id : Nat) (marker : Option String) : Change Registry Unit := fun r =>
  match r.state? id with
  | none => .error (.unknownState id) r
  | some _ => .ok () (r.update id (·.setMarker marker))

/-- Adds a move. The destination is looked up before the source. -/
def addTransition (source : Nat) (c : Symbol) (target : Nat) : Change Registry Unit := fun r =>
  if !r.contains target then .error (.unknownState target) r
  else
    match r.state? source with
    | none => .error (.unknownState source) r
    | some _ => .ok () (r.update source (·.addMove c target))

/-- Puts another state of the same id in the place of the initial one. The
index is changed only where the label is another one. -/
def replaceInitial (s : State) : Change Registry Unit := fun r =>
  if s.id ≠ r.initial then .error (.unknownState s.id) r
  else
    let old := r.initialState.label
    if old = s.label then .ok () { r with states := r.states.insert r.initial s }
    else if r.labels.contains s.label then .error (.duplicateLabel s.label) r
    else
      .ok () { r with
        labels := (r.labels.remove old).insert s.label r.initial
        states := r.states.insert r.initial s }

/-- Removes a state other than the initial one: the state from the map, its
label from the index, its id from all moves. -/
def forgetState (id : Nat) : Change Registry State := fun r =>
  if id = r.initial then .error (.initialState r.initialState.label) r
  else
    match r.state? id with
    | none => .error (.unknownState id) r
    | some removed =>
      .ok removed { r with
        states := (r.states.remove id).mapValues (·.forget id)
        labels := r.labels.remove removed.label }

/-- Edits a state in place. Tells whether there is such a state. -/
def editState (id : Nat) (e : State.Edit) : Change Registry Bool := fun r =>
  match r.state? id with
  | none => .ok false r
  | some s =>
    match s.edit e with
    | .ok t => .ok true (r.update id fun _ => t)
    | .error err => .error err r

end Registry
end TokenAutomata
