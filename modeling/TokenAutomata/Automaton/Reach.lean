/-
# Reachable, live and dead states

A state is reachable if some path leads to it from the initial state, and
live if some path leads from it to a state that accepts. Both are found by
breadth-first search, forward along the moves and backward against them.

Pruning removes the states that are not live, then those that are no longer
reachable. The initial state stays in any case.

Key definitions: `Automaton.reachable`, `Automaton.live`,
`Automaton.withoutDead`, `Automaton.withoutUnreachable`, `Automaton.pruned`.
Key theorems: `Automaton.mem_targets_of_mem_successors`,
`Automaton.mem_predecessors_iff`, `Automaton.mem_ids_of_mem_predecessors`.
-/
import TokenAutomata.Automaton.Edit
import TokenAutomata.Worklist

namespace TokenAutomata
namespace Automaton

/-- Where the state of an id leads, symbol by symbol; nowhere if there is no
such state. -/
def successors (a : Automaton) (id : Nat) : List Nat :=
  match a.state? id with
  | some s => s.moves.targets
  | none => []

/-- The states with a move to an id. -/
def predecessors (a : Automaton) (id : Nat) : List Nat :=
  (a.states.filter fun s => id ∈ s.moves.targets).map (·.id)

theorem mem_targets_of_mem_successors {a : Automaton} {x y : Nat} (h : y ∈ a.successors x) :
    y ∈ a.targets := by
  unfold successors at h
  split at h
  · rename_i s hs
    exact List.mem_flatMap.2 ⟨s, List.mem_of_find?_eq_some hs, h⟩
  · cases h

theorem mem_predecessors_iff {a : Automaton} {x y : Nat} :
    y ∈ a.predecessors x ↔ ∃ s ∈ a.states, x ∈ s.moves.targets ∧ s.id = y := by
  simp [predecessors, and_assoc]

theorem mem_ids_of_mem_predecessors {a : Automaton} {x y : Nat} (h : y ∈ a.predecessors x) :
    y ∈ a.ids := by
  obtain ⟨s, hs, -, rfl⟩ := mem_predecessors_iff.1 h
  exact List.mem_map_of_mem hs

/-- The ids that can be reached from the initial state, nearest first; an id
without a state is listed, but leads no further. -/
def reachable (a : Automaton) : List Nat :=
  search a.successors ⟨a.targets, fun _ _ => mem_targets_of_mem_successors⟩ [a.initial.id]

/-- The states that accept. -/
def finals (a : Automaton) : List State := a.states.filter (·.isFinal)

/-- The ids of the states that can reach a state that accepts. -/
def live (a : Automaton) : IdSet :=
  .ofList (search a.predecessors ⟨a.ids, fun _ _ => mem_ids_of_mem_predecessors⟩
    (a.finals.map (·.id)))

/-- The ids of the states other than the initial one that are not live. -/
def dead (a : Automaton) : List Nat :=
  let live := a.live
  (a.others.map (·.id)).filter (· ∉ live)

/-- The ids of the states that cannot be reached. -/
def unreachable (a : Automaton) : List Nat :=
  let reached := a.reachable
  (a.others.map (·.id)).filter (· ∉ reached)

def withoutDead (a : Automaton) : Automaton := a.forgetAll a.dead

def withoutUnreachable (a : Automaton) : Automaton := a.forgetAll a.unreachable

/-- Without the dead states, then without those that became unreachable. -/
def pruned (a : Automaton) : Automaton := a.withoutDead.withoutUnreachable

/-! ### As edits, which count the states removed -/

def removeDead : Edit Nat := fun a => .ok a.dead.length a.withoutDead

def removeUnreachable : Edit Nat := fun a => .ok a.unreachable.length a.withoutUnreachable

def prune : Edit Nat := do
  let dead ← removeDead
  let unreachable ← removeUnreachable
  return dead + unreachable

end Automaton
end TokenAutomata
