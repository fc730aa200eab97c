/-
# Determinization by sets of states

A deterministic automaton follows a nondeterministic one by being in one
state for each set of states the other could be in. The sets are found
breadth-first from the set that holds the initial state; a set's place in
that order is the id of its state, so the numbering is fixed by the automaton.

The state of a set with one member keeps the label of that member, the others
are labelled `q<id>`; a label in use is made unique. The state accepts if a
member does, with the marker of the lowest member that has one.

Key definitions: `Automaton.jointMoves`, `Automaton.reachedSets`,
`Automaton.subsetState`, `Automaton.determinize`.
Key theorems: `Automaton.mem_subsets_of_mem_successorSets`.
-/
import TokenAutomata.Automaton.Edit
import TokenAutomata.Worklist

namespace TokenAutomata
namespace Automaton

/-- The moves of the states in a set, joined symbol by symbol. -/
def jointMoves (a : Automaton) (set : IdSet) : Moves :=
  (a.statesOf set).foldl (fun m s => m.union s.moves) {}

/-- The sets that a set leads to, one for each symbol. -/
def successorSets (a : Automaton) (set : IdSet) : List IdSet :=
  (a.jointMoves set).entries.map Prod.snd

theorem mem_targets_of_mem_foldl_union {id : Nat} : ∀ (states : List State) (m : Moves),
    id ∈ (states.foldl (fun m s => m.union s.moves) m).targets →
      id ∈ m.targets ∨ ∃ s ∈ states, id ∈ s.moves.targets
  | [], _, h => Or.inl h
  | s :: states, m, h => by
    rcases mem_targets_of_mem_foldl_union states (m.union s.moves) h with h | ⟨t, ht, h⟩
    · rcases Moves.mem_targets_union.1 h with h | h
      · exact Or.inl h
      · exact Or.inr ⟨s, List.mem_cons_self, h⟩
    · exact Or.inr ⟨t, List.mem_cons_of_mem _ ht, h⟩

/-- Only finitely many sets can be met: their members are destinations. -/
theorem mem_subsets_of_mem_successorSets {a : Automaton} {x y : IdSet}
    (h : y ∈ a.successorSets x) : y ∈ IdSet.subsets a.targets := by
  obtain ⟨e, he, rfl⟩ := List.mem_map.1 h
  refine IdSet.mem_subsets fun id hid => ?_
  have hm : id ∈ (a.jointMoves x).targets := List.mem_flatMap.2 ⟨e, he, hid⟩
  rcases mem_targets_of_mem_foldl_union _ _ hm with hm | ⟨s, hs, hm⟩
  · cases hm
  · obtain ⟨i, -, hi⟩ := List.mem_filterMap.1 hs
    exact List.mem_flatMap.2 ⟨s, List.mem_of_find?_eq_some hi, hm⟩

/-- The sets met from the initial state on, in the order they are met. -/
def reachedSets (a : Automaton) : List IdSet :=
  search a.successorSets ⟨IdSet.subsets a.targets, fun _ _ => mem_subsets_of_mem_successorSets⟩
    [.singleton a.initial.id]

/-- The state of a set. Every symbol leads to the place in `sets` of the set
it leads to. -/
def subsetState (a : Automaton) (sets : List IdSet) (set : IdSet) (id : Nat) : State :=
  let members := a.statesOf set
  { id
    label := match members with
      | [s] => s.label
      | _ => s!"q{id}"
    marker := members.findSome? (·.marker)
    moves := ⟨(a.jointMoves set).entries.map fun (c, ids) => (c, .singleton (sets.idxOf ids))⟩ }

/-- Adds the states of all sets; the first one takes the initial place. -/
def addSubsetStates (a : Automaton) (sets : List IdSet) : Edit Unit :=
  sets.zipIdx.forM fun (set, id) =>
    if id = 0 then replaceInitial (a.subsetState sets set id)
    else discard (adopt (a.subsetState sets set id))

/-- The deterministic automaton of the same language. It exists unless a move
leads to no state. -/
def determinize (a : Automaton) : Except AutomatonError Automaton := do
  a.validate
  (addSubsetStates a a.reachedSets).exec (withInitial a.initial.label)

end Automaton
end TokenAutomata
