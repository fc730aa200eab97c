/-
# States

A state has an id, a label to show, a marker and its moves. The marker is the
name of the token that ends there; a state without one does not accept. The
empty text is no marker.

What callers may change about a state is listed in `State.Edit`; only adding
a deterministic move can fail.

Key definitions: `State`, `State.setMarker`, `State.Edit`, `State.edit`,
`State.prettyLabel`.
Key theorems: `State.id_edit`, `State.label_edit`.
-/
import TokenAutomata.Automaton.Error

namespace TokenAutomata

structure State where
  id : Nat
  label : String
  marker : Option String := none
  moves : Moves := {}
deriving DecidableEq, Inhabited

namespace State

/-- A state that accepts nothing and leads nowhere. -/
def new (id : Nat) (label : String) : State := { id, label }

def isFinal (s : State) : Bool := s.marker.isSome

/-- The empty text counts as no marker. -/
def setMarker (s : State) (marker : Option String) : State :=
  { s with marker := marker.filter (· ≠ "") }

/-- Takes the marker of `other` if there is none yet. -/
def mergeMarker (s other : State) : State := { s with marker := s.marker <|> other.marker }

def addMove (s : State) (c : Symbol) (target : Nat) : State :=
  { s with moves := s.moves.insert c target }

def setMoves (s : State) (c : Symbol) (targets : IdSet) : State :=
  { s with moves := s.moves.assign c targets }

/-- Drops the moves to `id`. -/
def forget (s : State) (id : Nat) : State := { s with moves := s.moves.forget id }

/-- Adds the moves of `other`. -/
def mergeMoves (s other : State) : State := { s with moves := s.moves.union other.moves }

/-- Puts the state and its destinations under new ids. -/
def rename (s : State) (f : Nat → Nat) : State :=
  { s with id := f s.id, moves := s.moves.rename f }

/-- Adds a move on a symbol that has none, not even to the same state. -/
def addDeterministicMove (s : State) (c : Symbol) (target : Nat) : Except AutomatonError State :=
  if c ∈ s.moves.symbols then .error (.notDeterministic s.label c) else .ok (s.addMove c target)

/-- The only destination on a symbol, if there is any. -/
def deterministicMove? (s : State) (c : Symbol) : Except AutomatonError (Option Nat) :=
  if 1 < (s.moves.dests c).size then .error (.notDeterministic s.label c)
  else .ok (s.moves.dests c).least?

/-- Equality up to the order in which symbols came into use. -/
def same (s t : State) : Bool :=
  s.id == t.id && s.label == t.label && s.marker == t.marker && s.moves.sameMap t.moves

/-- The label as tables show it: `IF*` where the marker is the label,
`ID_1(ID)*` where it is not. -/
def prettyLabel (s : State) : String :=
  match s.marker with
  | none => s.label
  | some token => if token = s.label then s!"{s.label}*" else s!"{s.label}({token})*"

/-! ### Edits -/

/-- What may be changed about a state from outside. -/
inductive Edit where
  | addMove (symbol : Symbol) (target : Nat)
  | addDeterministicMove (symbol : Symbol) (target : Nat)
  | setMoves (symbol : Symbol) (targets : IdSet)
  | setMarker (marker : Option String)
  | forget (id : Nat)
  | mergeMarker (other : State)
  | mergeMoves (other : State)

def edit (s : State) : Edit → Except AutomatonError State
  | .addMove c target => .ok (s.addMove c target)
  | .addDeterministicMove c target => s.addDeterministicMove c target
  | .setMoves c targets => .ok (s.setMoves c targets)
  | .setMarker marker => .ok (s.setMarker marker)
  | .forget id => .ok (s.forget id)
  | .mergeMarker other => .ok (s.mergeMarker other)
  | .mergeMoves other => .ok (s.mergeMoves other)

/-- No edit changes the id. -/
theorem id_edit {s t : State} {e : Edit} (h : s.edit e = .ok t) : t.id = s.id := by
  cases e <;> simp only [edit, addDeterministicMove] at h
  case addDeterministicMove =>
    split at h
    · cases h
    · cases h
      rfl
  all_goals
    cases h
    rfl

/-- No edit changes the label. -/
theorem label_edit {s t : State} {e : Edit} (h : s.edit e = .ok t) : t.label = s.label := by
  cases e <;> simp only [edit, addDeterministicMove] at h
  case addDeterministicMove =>
    split at h
    · cases h
    · cases h
      rfl
  all_goals
    cases h
    rfl

end State
end TokenAutomata
