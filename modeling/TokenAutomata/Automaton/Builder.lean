/-
# Changes that automata are built by

Automata are built from texts, rules and tables by a few changes: states are
added and marked, moves are added, states that no word needs are removed, and
other automata are joined. The building does not look at how the states are
kept. So it is written once, for everything that can be changed like this; a
list of states (`Automaton`) can.

Key definitions: `Builder`, `Builder.fresh`.
-/
import TokenAutomata.Automaton.Concat
import TokenAutomata.Automaton.Reach

namespace TokenAutomata

/-- The changes that automata are built by. -/
class Builder (σ : Type) where
  /-- One state, which accepts nothing. -/
  withInitial : String → σ
  initialId : σ → Nat
  addState : String → Change σ Nat
  addFinalState : String → String → Change σ Nat
  addTransition : Nat → Symbol → Nat → Change σ Unit
  setMarker : Nat → Option String → Change σ Unit
  insert : State → Change σ Nat
  replaceInitial : State → Change σ Unit
  concat : σ → Change σ Unit
  prune : Change σ Nat
  validate : σ → Except AutomatonError Unit

@[default_instance] instance : Builder Automaton where
  withInitial := Automaton.withInitial
  initialId a := a.initial.id
  addState := Automaton.addState
  addFinalState := Automaton.addFinalState
  addTransition := Automaton.addTransition
  setMarker := Automaton.setMarker
  insert := Automaton.insert
  replaceInitial := Automaton.replaceInitial
  concat := Automaton.concat
  prune := Automaton.prune
  validate := Automaton.validate

theorem Automaton.builder_insert (s : State) : Builder.insert s = Automaton.insert s := rfl

theorem Automaton.builder_replaceInitial (s : State) :
    Builder.replaceInitial s = Automaton.replaceInitial s := rfl

/-- One state with the label that fragments are joined at. -/
def Builder.fresh {σ : Type} [Builder σ] : σ := Builder.withInitial Automaton.rootLabel

end TokenAutomata
