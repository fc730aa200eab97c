/-
# The determinized automaton is canonical

Determinization fails only if the automaton is not valid, whatever its labels
are. Otherwise the ids of the result are 0, 1, … in the order in which its
states were added, and a search from the initial state meets them in that
order: its states lead to each other as the sets do that they stand for, so
the search is that for the sets under other names (`search_map`). There is at
most one state for each set of reachable states other than the empty one.

Key definitions: `Automaton.Canonical`.
Key theorems: `Automaton.determinize_eq_error_iff`,
`Automaton.successors_of_determinize`, `Automaton.reachable_of_determinize`,
`Automaton.length_reachedSets_le`, `Automaton.canonical_of_determinize`.
-/
import Mathlib.Data.Finset.Powerset
import Mathlib.Data.Set.Card
import TokenAutomata.Proofs.DeterminizedStates
import TokenAutomata.Proofs.Pruning

namespace TokenAutomata

/-- The places of distinct items are counted from 0 on. -/
theorem map_idxOf_self {α : Type} [BEq α] [LawfulBEq α] {xs : List α} (h : xs.Nodup) :
    xs.map xs.idxOf = List.range xs.length := by
  refine List.ext_getElem (by simp) fun i hi hi' => ?_
  rw [List.length_map] at hi
  rw [List.getElem_map, List.getElem_range]
  exact h.idxOf_getElem i hi

namespace Automaton

variable {a d : Automaton} {set : IdSet}

/-! ### When determinization fails -/

theorem validate_eq_error {e : AutomatonError} (h : a.validate = .error e) :
    ∃ id ∈ a.targets, id ∉ a.ids ∧ e = .unknownState id := by
  unfold validate at h
  split at h
  · rename_i missing hfind
    cases h
    have hmissing := List.find?_some hfind
    exact ⟨missing, List.mem_of_find?_eq_some hfind, by simpa [contains] using hmissing, rfl⟩
  · cases h

/-- Nothing but an invalid automaton makes determinization fail. -/
theorem determinize_eq_error_iff {e : AutomatonError} :
    a.determinize = .error e ↔ a.validate = .error e := by
  cases hv : a.validate with
  | ok =>
    obtain ⟨d, hd, -⟩ := determinize_states hv
    simp [hd]
  | error cause =>
    have hd : a.determinize = .error cause := by
      rw [determinize, hv]
      rfl
    rw [hd]
    simp

/-! ### The order of the states -/

theorem targets_subsetState (a : Automaton) (sets : List IdSet) (set : IdSet) (id : Nat) :
    (a.subsetState sets set id).moves.targets = (a.successorSets set).map sets.idxOf := by
  show ((a.jointMoves set).entries.map _).flatMap _ = ((a.jointMoves set).entries.map Prod.snd).map _
  rw [List.flatMap_map, List.map_map, List.map_eq_flatMap]
  rfl

/-- The state of a set leads to the states of the sets that it leads to, in the
same order. -/
theorem successors_of_determinize (h : a.determinize = .ok d) (hset : set ∈ a.reachedSets) :
    d.successors (a.reachedSets.idxOf set) = (a.successorSets set).map a.reachedSets.idxOf := by
  obtain ⟨t, ht, -, -, hmoves⟩ :=
    (represents_of_determinize h).state _ set (List.getElem?_idxOf hset)
  rw [successors, ht, ← targets_subsetState a a.reachedSets set (a.reachedSets.idxOf set), ← hmoves]

theorem nodup_reachedSets (a : Automaton) : a.reachedSets.Nodup := nodup_search

theorem size_of_determinize (h : a.determinize = .ok d) : d.size = a.reachedSets.length := by
  have hids := congrArg List.length (ids_of_determinize h)
  rw [ids, List.length_map, List.length_range] at hids
  exact hids

/-- The states are found in the order of their ids. -/
theorem reachable_of_determinize (h : a.determinize = .ok d) :
    d.reachable = List.range a.reachedSets.length := by
  obtain ⟨rest, hsets⟩ := reachedSets_cons a
  have hinitial : [d.initial.id] = [IdSet.singleton a.initial.id].map a.reachedSets.idxOf := by
    rw [(represents_of_determinize h).initial_id, List.map_singleton, hsets, List.idxOf_cons_self]
  have hsearch : d.reachable = a.reachedSets.map a.reachedSets.idxOf := by
    rw [reachable, hinitial]
    refine search_map (fun x hx y hy he => (List.idxOf_inj hx).1 he) fun x hx => ?_
    exact successors_of_determinize h hx
  rw [hsearch, map_idxOf_self a.nodup_reachedSets]

theorem initial_label_of_determinize (h : a.determinize = .ok d) : d.initial.label = a.initial.label := by
  obtain ⟨d', hd', -, hinitial, -⟩ := determinize_run (validate_of_determinize h)
  obtain rfl : d = d' := Except.ok.inj (h.symm.trans hd')
  rw [hinitial, label_subsetState_initial]

/-! ### How many states there are -/

/-- No set is reached twice, nor is the empty one, and the members of a set
that is reached can be reached. -/
theorem length_reachedSets_le (ha : a.WellFormed) :
    a.reachedSets.length ≤ 2 ^ {q | ∃ w, a.Reaches w q}.ncard - 1 := by
  have hreachable : {q | ∃ w, a.Reaches w q} = (a.reachable.toFinset : Set Nat) := by
    ext q
    rw [Finset.mem_coe, List.mem_toFinset, mem_reachable_iff ha]
    rfl
  let members (set : IdSet) : Finset Nat := set.toList.toFinset
  have hmem : ∀ {set q}, q ∈ members set ↔ q ∈ set := fun {set q} => List.mem_toFinset
  have hinj : Function.Injective members := fun s t h => IdSet.ext fun q => by rw [← hmem, h, hmem]
  have hsub : (a.reachedSets.map members).toFinset ⊆ a.reachable.toFinset.powerset.erase ∅ := by
    intro x hx
    obtain ⟨set, hset, rfl⟩ := List.mem_map.1 (List.mem_toFinset.1 hx)
    obtain ⟨hne, w, rfl⟩ := (mem_reachedSets_iff ha).1 hset
    refine Finset.mem_erase.2 ⟨fun he => hne (hinj (he.trans rfl)), Finset.mem_powerset.2 fun q hq => ?_⟩
    rw [List.mem_toFinset, mem_reachable_iff ha]
    exact ⟨w, mem_statesAfter.1 (hmem.1 hq)⟩
  have hcard := Finset.card_le_card hsub
  rw [List.toFinset_card_of_nodup (a.nodup_reachedSets.map hinj), List.length_map,
    Finset.card_erase_of_mem (Finset.empty_mem_powerset _), Finset.card_powerset] at hcard
  rw [hreachable, Set.ncard_coe_finset]
  exact hcard

/-! ### The whole of it -/

/-- What determinization makes of `a`, up to the labels of the other states. -/
structure Canonical (d a : Automaton) : Prop where
  isDeterministic : d.isDeterministic = true
  validate : d.validate = .ok ()
  ids : d.ids = List.range d.size
  reachable : d.reachable = List.range d.size
  nodup_labels : d.labels.Nodup
  initial_label : d.initial.label = a.initial.label
  size_le : d.size ≤ 2 ^ {q | q ∈ a.ids ∧ ∃ w, a.Reaches w q}.ncard - 1

theorem canonical_of_determinize (ha : a.WellFormed) (h : a.determinize = .ok d) : d.Canonical a where
  isDeterministic := isDeterministic_of_determinize h
  validate := validate_eq_ok_iff.2 (closed_of_determinize ha h)
  ids := by rw [ids_of_determinize h, size_of_determinize h]
  reachable := by rw [reachable_of_determinize h, size_of_determinize h]
  nodup_labels := (determinize_wellFormed ha h).nodup_labels
  initial_label := initial_label_of_determinize h
  size_le := by
    have hclosed : a.Closed := validate_eq_ok_iff.1 (validate_of_determinize h)
    have hstates : {q | q ∈ a.ids ∧ ∃ w, a.Reaches w q} = {q | ∃ w, a.Reaches w q} :=
      Set.ext fun q => ⟨fun hq => hq.2, fun ⟨w, hw⟩ => ⟨hw.mem_ids hclosed, w, hw⟩⟩
    rw [size_of_determinize h, hstates]
    exact length_reachedSets_le ha

end Automaton
end TokenAutomata
