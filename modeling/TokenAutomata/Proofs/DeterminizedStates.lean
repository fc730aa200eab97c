/-
# The states of a determinized automaton

Determinization makes one state for each set that is reached, in the order in
which the sets are found (`Automaton.states_of_determinize`). So the ids are
0, 1, … without a gap. A set is reached if a word leads to it and it is not
empty (`Automaton.mem_reachedSets_iff`), so some word leads to every state. No
symbol leads from a state to two others, and every move leads to a state.

Key theorems: `Automaton.states_of_determinize`, `Automaton.ids_of_determinize`,
`Automaton.mem_reachedSets_iff`, `Automaton.exists_reaches_of_determinize`,
`Automaton.isDeterministic_of_determinize`, `Automaton.closed_of_determinize`.
-/
import TokenAutomata.Proofs.SubsetConstruction

namespace TokenAutomata
namespace Automaton

variable {a d : Automaton} {set : IdSet}

theorem validate_of_determinize (h : a.determinize = .ok d) : a.validate = .ok () := by
  obtain ⟨u, hv, -⟩ := except_bind_eq_ok.1 h
  exact hv

theorem represents_of_determinize (h : a.determinize = .ok d) : d.Represents a := by
  obtain ⟨d', hd', hrepresents⟩ := determinize_states (validate_of_determinize h)
  obtain rfl : d = d' := Except.ok.inj (h.symm.trans hd')
  exact hrepresents

/-- The states stand for the sets reached, one by one. -/
theorem states_of_determinize (h : a.determinize = .ok d) :
    List.Forall₂ (fun x t => (a.subsetState a.reachedSets x.1 x.2).Relabelled t)
      a.reachedSets.zipIdx d.states := by
  obtain ⟨d', hd', -, hinitial, hnamed⟩ := determinize_run (validate_of_determinize h)
  obtain rfl : d = d' := Except.ok.inj (h.symm.trans hd')
  exact relabelled_states hinitial hnamed

/-- The ids are the places of the sets. -/
theorem ids_of_determinize (h : a.determinize = .ok d) : d.ids = List.range a.reachedSets.length := by
  have hids : d.ids = a.reachedSets.zipIdx.map fun x => (a.subsetState a.reachedSets x.1 x.2).id :=
    State.map_id_of_relabelled (states_of_determinize h)
  rw [hids, List.range_eq_range', ← List.zipIdx_map_snd 0 a.reachedSets]
  rfl

/-- Just the sets that are not empty and that a word leads to are reached. -/
theorem mem_reachedSets_iff (ha : a.WellFormed) :
    set ∈ a.reachedSets ↔ set ≠ ∅ ∧ ∃ w, a.statesAfter w = set := by
  constructor
  · intro hset
    refine search_induction (P := fun set => set ≠ ∅ ∧ ∃ w, a.statesAfter w = set)
      (fun set hset => ?_) (fun set hset next hnext => ?_) set hset
    · rw [List.mem_singleton.1 hset]
      exact ⟨IdSet.singleton_ne_empty _, [], rfl⟩
    · obtain ⟨-, w, rfl⟩ := hset
      obtain ⟨hne, c, rfl⟩ := (mem_successorSets ha).1 hnext
      exact ⟨hne, w ++ [c], statesAfter_snoc a w c⟩
  · rintro ⟨hne, w, rfl⟩
    exact statesAfter_mem_reachedSets ha hne

/-- Some word leads to every state. -/
theorem exists_reaches_of_determinize (ha : a.WellFormed) (h : a.determinize = .ok d) {q : Nat}
    (hq : q ∈ d.ids) : ∃ w, d.Reaches w q := by
  rw [ids_of_determinize h, List.mem_range] at hq
  obtain ⟨hne, w, hw⟩ := (mem_reachedSets_iff ha).1 (List.getElem_mem hq)
  have hplace : a.reachedSets.idxOf a.reachedSets[q] = q := nodup_search.idxOf_getElem q hq
  refine ⟨w, ((represents_of_determinize h).reaches_iff ha).2 ?_⟩
  rw [hw]
  exact ⟨hne, hplace.symm⟩

/-- A symbol leads to the state of one set. -/
theorem isDeterministic_subsetState (a : Automaton) (sets : List IdSet) (set : IdSet) (id : Nat) :
    (a.subsetState sets set id).moves.isDeterministic = true := by
  have hentries : ∀ e ∈ (a.subsetState sets set id).moves.entries, e.2.size = 1 := by
    intro e he
    obtain ⟨e', -, rfl⟩ := List.mem_map.1 he
    rfl
  unfold Moves.isDeterministic
  rw [List.all_eq_true]
  intro e he
  simp [hentries e he]

theorem isDeterministic_of_determinize (h : a.determinize = .ok d) : d.isDeterministic = true := by
  unfold isDeterministic
  rw [List.all_eq_true]
  intro t ht
  obtain ⟨x, -, -, -, hmoves⟩ := forall₂_mem_right (states_of_determinize h) ht
  rw [hmoves]
  exact isDeterministic_subsetState a a.reachedSets x.1 x.2

theorem closed_of_determinize (ha : a.WellFormed) (h : a.determinize = .ok d) : d.Closed := by
  refine closed_of_dests (determinize_wellFormed ha h) fun p c q hq => ?_
  have hp := mem_ids_of_mem_dests hq
  rw [ids_of_determinize h, List.mem_range] at hp ⊢
  have hset : a.reachedSets[p]? = some a.reachedSets[p] := List.getElem?_eq_getElem hp
  obtain ⟨hne, rfl⟩ := ((represents_of_determinize h).mem_dests ha hset).1 hq
  have hnext : a.step a.reachedSets[p] c ∈ a.reachedSets :=
    mem_search_of_next (List.getElem_mem hp) ((mem_successorSets ha).2 ⟨hne, c, rfl⟩)
  exact List.idxOf_lt_length_of_mem hnext

end Automaton
end TokenAutomata
