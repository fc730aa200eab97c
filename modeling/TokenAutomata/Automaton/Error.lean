/-
# What can go wrong with an automaton

Each cause of failure is a constructor; its wording is in one place,
`AutomatonError.message`. State ids are written `#7`.

Key definitions: `AutomatonError`, `AutomatonError.message`.
-/
import TokenAutomata.Moves
import TokenAutomata.Text.Quoted

namespace TokenAutomata

/-- A state id as messages write it. -/
def idText (id : Nat) : String := s!"#{id}"

/-- Why an automaton cannot be built or changed as asked. -/
inductive AutomatonError where
  /-- A state of this label exists. -/
  | duplicateLabel (label : String)
  /-- A state of this id exists. -/
  | duplicateId (id : Nat)
  /-- The state has moves on the symbol where it may have none, or several
  where it may have one. -/
  | notDeterministic (label : String) (symbol : Symbol)
  /-- The initial states of two automata to be joined differ in label. -/
  | mismatchedRoots (left right : String)
  /-- No state has this id. -/
  | unknownState (id : Nat)
  /-- The state is the initial one, which stays. -/
  | initialState (label : String)
deriving DecidableEq

def AutomatonError.message : AutomatonError → String
  | .duplicateLabel label => s!"state `{label}` already exists"
  | .duplicateId id => s!"state `{idText id}` already exists"
  | .notDeterministic label symbol =>
    s!"state `{label}` is not deterministic on {Text.quotedChar symbol}"
  | .mismatchedRoots left right =>
    s!"cannot concat automaton rooted at `{left}` with one rooted at `{right}`"
  | .unknownState id => s!"no state with id {idText id}"
  | .initialState label => s!"the initial state `{label}` cannot be removed"

end TokenAutomata
