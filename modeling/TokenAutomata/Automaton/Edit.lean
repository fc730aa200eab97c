/-
# Changing an automaton step by step

A change may fail, and what it leaves behind when it fails is part of its
meaning. So a change is a computation over what it changes whose outcome, good
or bad, carries what there is at its end (`Change`, and `Edit` for automata).

A new state needs a free label and a free id. The id of the next new state
stays above all ids handed out, so an id is not handed out again after its
state has been forgotten.

Key definitions: `Change`, `Edit`, `Change.exec`, `Automaton.insert`,
`Automaton.addState`, `Automaton.addTransition`, `Automaton.forgetState`,
`Automaton.replaceInitial`.
-/
import TokenAutomata.Automaton.Basic

namespace TokenAutomata

/-- A change that may fail. -/
abbrev Change (σ : Type) := EStateM AutomatonError σ

/-- A change of an automaton. -/
abbrev Edit := Change Automaton

/-- What there is after a change, or why it failed. -/
def Change.exec {σ α : Type} (change : Change σ α) (a : σ) : Except AutomatonError σ :=
  match change a with
  | .ok _ b => .ok b
  | .error e _ => .error e

namespace Automaton

/-- Adds a state under the id it has. -/
def insert (s : State) : Edit Nat := fun a =>
  if s.label ∈ a.labels then .error (.duplicateLabel s.label) a
  else if a.contains s.id then .error (.duplicateId s.id) a
  else .ok s.id { a with others := a.others ++ [s], nextId := max a.nextId (s.id + 1) }

/-- Adds a state under the id it has, under a label made unique. -/
def adopt (s : State) : Edit Nat := fun a =>
  insert { s with label := a.uniqueLabel s.label s.id } a

/-- Adds a new state that does not accept. -/
def addState (label : String) : Edit Nat := fun a => insert (.new a.nextId label) a

/-- Marks a state with the token that ends there, or with none. -/
def setMarker (id : Nat) (marker : Option String) : Edit Unit := fun a =>
  if a.contains id then .ok () (a.update id (·.setMarker marker))
  else .error (.unknownState id) a

/-- Adds a new state at which a token ends. -/
def addFinalState (label token : String) : Edit Nat := do
  let id ← addState label
  setMarker id (some token)
  return id

/-- Adds a move. The destination is looked up before the source. -/
def addTransition (source : Nat) (c : Symbol) (target : Nat) : Edit Unit := fun a =>
  if !a.contains target then .error (.unknownState target) a
  else if !a.contains source then .error (.unknownState source) a
  else .ok () (a.update source (·.addMove c target))

/-- Removes a state other than the initial one, and every move to it. -/
def forgetState (id : Nat) : Edit State := fun a =>
  if id = a.initial.id then .error (.initialState a.initial.label) a
  else
    match a.others.find? (·.id == id) with
    | none => .error (.unknownState id) a
    | some s =>
      .ok s { a with
        initial := a.initial.forget id
        others := (a.others.filter (·.id ≠ id)).map (·.forget id) }

/-- Puts another state of the same id in the place of the initial one. -/
def replaceInitial (s : State) : Edit Unit := fun a =>
  if s.id ≠ a.initial.id then .error (.unknownState s.id) a
  else if s.label ≠ a.initial.label ∧ s.label ∈ a.labels then .error (.duplicateLabel s.label) a
  else .ok () { a with initial := s }

/-- Edits a state in place. Tells whether there is such a state. -/
def editState (id : Nat) (e : State.Edit) : Edit Bool := fun a =>
  match a.state? id with
  | none => .ok false a
  | some s =>
    match s.edit e with
    | .ok t => .ok true (a.update id fun _ => t)
    | .error err => .error err a

end Automaton
end TokenAutomata
