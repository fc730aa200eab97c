/-
# Automata

A finite automaton over characters, deterministic or not: an initial state,
the other states in the order they were added, and the id that the next new
state will get. States are found by id or by label. A move may lead to an id
that no state has; `validate` finds such moves.

A name that is taken is made unique by appending `#` and an id, then `.1`,
`.2`, … (`uniqueLabel`). Striking each taken candidate from the labels in use
bounds the search.

Key definitions: `Automaton`, `Automaton.states`, `Automaton.state?`,
`Automaton.validate`, `Automaton.alphabet`, `Automaton.uniqueLabel`.
-/
import TokenAutomata.State

namespace TokenAutomata

structure Automaton where
  initial : State
  others : List State := []
  nextId : Nat
deriving DecidableEq, Inhabited

namespace Automaton

/-- The label of the initial state of every fragment, so that fragments can
be joined there. -/
def rootLabel : String := "START"

/-- One state, which accepts nothing. -/
def withInitial (label : String) : Automaton := { initial := .new 0 label, nextId := 1 }

def new : Automaton := withInitial rootLabel

/-! ### Looking at an automaton -/

/-- All states, in the order they were added. -/
def states (a : Automaton) : List State := a.initial :: a.others

def size (a : Automaton) : Nat := a.states.length

def ids (a : Automaton) : List Nat := a.states.map (·.id)

def labels (a : Automaton) : List String := a.states.map (·.label)

def state? (a : Automaton) (id : Nat) : Option State := a.states.find? (·.id == id)

def contains (a : Automaton) (id : Nat) : Bool := id ∈ a.ids

def byLabel? (a : Automaton) (label : String) : Option State := a.states.find? (·.label == label)

def idOf? (a : Automaton) (label : String) : Option Nat := (a.byLabel? label).map (·.id)

/-- The states among some ids, in the order of the ids. -/
def statesOf (a : Automaton) (ids : IdSet) : List State := ids.toList.filterMap a.state?

/-- The destinations of all moves, state by state. -/
def targets (a : Automaton) : List Nat := a.states.flatMap (·.moves.targets)

/-- The symbols of all moves, in the order they are first met. -/
def alphabet (a : Automaton) : List Symbol := (a.states.flatMap (·.moves.symbols)).eraseDups

def isDeterministic (a : Automaton) : Bool := a.states.all (·.moves.isDeterministic)

/-- Fails on the first move that leads to no state. -/
def validate (a : Automaton) : Except AutomatonError Unit :=
  match a.targets.find? (!a.contains ·) with
  | some missing => .error (.unknownState missing)
  | none => .ok ()

/-! ### Free labels -/

/-- What a taken label is changed to: `L#7`, then `L#7.1`, `L#7.2`, … -/
def labelCandidate (label : String) (id : Nat) : Nat → String
  | 0 => s!"{label}#{id}"
  | k + 1 => s!"{label}#{id}.{k + 1}"

/-- The first candidate from number `k` on that is not in `used`. -/
def firstFree (candidate : Nat → String) (used : List String) (k : Nat) : String :=
  if _h : candidate k ∈ used then firstFree candidate (used.erase (candidate k)) (k + 1)
  else candidate k
termination_by used.length
decreasing_by
  have := List.length_pos_of_mem _h
  rw [List.length_erase_of_mem _h]
  omega

/-- A label no state has: `label` itself or the first free candidate. -/
def uniqueLabel (a : Automaton) (label : String) (id : Nat) : String :=
  if label ∈ a.labels then firstFree (labelCandidate label id) a.labels 0 else label

/-! ### Changing states in place -/

/-- Changes the states of id `id`. -/
def update (a : Automaton) (id : Nat) (f : State → State) : Automaton :=
  let change (s : State) : State := if s.id = id then f s else s
  { a with initial := change a.initial, others := a.others.map change }

/-- Removes the states of the given ids and every move to them. The initial
state stays. -/
def forgetAll (a : Automaton) (ids : List Nat) : Automaton :=
  let strip (s : State) : State := ids.foldl State.forget s
  { a with
    initial := strip a.initial
    others := (a.others.filter (·.id ∉ ids)).map strip }

end Automaton
end TokenAutomata
