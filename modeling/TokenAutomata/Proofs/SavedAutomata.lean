/-
# A saved automaton is loaded again

The table of a well-formed automaton lists its states in order, the initial
one first and under id 0, so no ids are swapped when the states are made again.
A state is what its row says: its entries, added one by one, give its moves in
their order (`StoredState.stateUnder_ofState`). So the automaton that is loaded
has the same states in the same order, with the same moves
(`Automaton.load_save`), unless a move leads to a missing state, which is found
out in the end.

Key theorems: `Moves.foldl_insert`, `StoredState.foldl_ofEntry`,
`StoredState.stateUnder_ofState`, `StoredTable.exists_rebuilt`,
`Automaton.load_save`.
-/
import TokenAutomata.Proofs.MovesAlgebra
import TokenAutomata.Proofs.TableLoading

namespace TokenAutomata

/-! ### Moves from their entries -/

namespace Moves

variable {c : Symbol}

/-- Inserting destinations one by one is adding them all at once. -/
theorem foldl_insert : ∀ {ids : List Nat} {m : Moves}, ids ≠ [] →
    ids.foldl (fun m id => m.insert c id) m = m.add c (.ofList ids)
  | [], _, h => absurd rfl h
  | [id], m, _ => rfl
  | id :: id' :: ids, m, _ => by
    have hset : (IdSet.singleton id).union (.ofList (id' :: ids)) = .ofList (id :: id' :: ids) := by
      ext x
      simp
    rw [List.foldl_cons, foldl_insert (List.cons_ne_nil id' ids), insert, add_add, hset]

end Moves

/-! ### States from their rows -/

namespace StoredState

/-- The entries of well-formed moves, added one by one, give the moves. -/
theorem foldl_ofEntry : ∀ {before rest : List (Symbol × IdSet)}, (Moves.mk (before ++ rest)).WellFormed →
    (rest.map StoredMove.ofEntry).foldl (fun m entry =>
      entry.targets.foldl (fun m x => m.insert entry.symbol x) m) (Moves.mk before) = ⟨before ++ rest⟩
  | before, [], _ => by rw [List.append_nil]; rfl
  | before, (c, ids) :: rest, h => by
    have hnew : c ∉ before.map Prod.fst := h.not_mem_before
    have hne : ids.toList ≠ [] := fun he =>
      h.nonempty (c, ids) (List.mem_append_right _ List.mem_cons_self) (IdSet.ext fun x => by
        rw [← IdSet.mem_toList, he]
        simp)
    have hempty : (∅ : IdSet).union ids = ids := by
      ext x
      simp
    have hfirst : ids.toList.foldl (fun (m : Moves) x => m.insert c x) ⟨before⟩ =
        ⟨before ++ [(c, ids)]⟩ := by
      rw [Moves.foldl_insert hne, IdSet.ofList_toList, Moves.add, State.upsert_of_not_mem hnew, hempty]
    rw [List.append_cons] at h ⊢
    rw [List.map_cons, List.foldl_cons, ← foldl_ofEntry h, ← hfirst]
    rfl

/-- A well-formed state is made again from its row. -/
theorem stateUnder_ofState {s : State} (hs : s.WellFormed) : (ofState s).stateUnder (fun x => x) = s := by
  have hmoves : (ofState s).movesUnder (fun x => x) = s.moves :=
    @foldl_ofEntry [] s.moves.entries hs.moves
  unfold stateUnder
  rw [hmoves, State.setMarker]
  show ({ id := s.id, label := s.label, marker := s.marker.filter (· ≠ ""), moves := s.moves } : State) = s
  rw [hs.filter_marker]

end StoredState

/-! ### Automata from their tables -/

/-- Whether an automaton is valid depends on its states only. -/
theorem Automaton.validate_congr {a b : Automaton} (h : b.states = a.states) : b.validate = a.validate := by
  have htargets : b.targets = a.targets := by rw [targets, h, targets]
  have hcontains : b.contains = a.contains := by
    funext x
    rw [contains, contains, ids, h, ids]
  rw [validate, htargets, hcontains, validate]

namespace StoredTable

variable {a : Automaton}

theorem ids_ofAutomaton (a : Automaton) : (ofAutomaton a).ids = a.ids := by
  rw [ids, ofAutomaton, List.map_map]
  rfl

theorem labels_ofAutomaton (a : Automaton) : (ofAutomaton a).labels = a.labels := by
  rw [labels, ofAutomaton, List.map_map]
  rfl

theorem idOf_ofAutomaton (ha : a.WellFormed) : (ofAutomaton a).idOf = fun x => x := by
  have hinitial : (ofAutomaton a).initial = 0 := ha.initial_id
  funext x
  rw [idOf, hinitial]
  split_ifs with h
  · exact h.symm
  · rfl

/-- The table of an automaton lists moves to its destinations only. -/
theorem mem_targets_of_ofAutomaton {row : StoredState} (hrow : row ∈ (ofAutomaton a).states)
    {m : StoredMove} (hm : m ∈ row.moves) {x : Nat} (hx : x ∈ m.targets) : x ∈ a.targets := by
  obtain ⟨s, hs, rfl⟩ := List.mem_map.1 hrow
  obtain ⟨e, he, rfl⟩ := List.mem_map.1 hm
  exact List.mem_flatMap.2 ⟨s, hs, List.mem_flatMap.2 ⟨e, he, hx⟩⟩

theorem fits_ofAutomaton (hids : ∀ x ∈ a.ids, x < UInt32.size)
    (htargets : ∀ x ∈ a.targets, x < UInt32.size) : (ofAutomaton a).Fits := by
  refine ⟨hids _ a.initial_mem_ids, fun row hrow => ⟨?_, fun m hm x hx => ?_⟩⟩
  · obtain ⟨s, hs, rfl⟩ := List.mem_map.1 hrow
    exact hids _ (List.mem_map_of_mem hs)
  · exact htargets x (mem_targets_of_ofAutomaton hrow hm hx)

theorem others_ne_initial (ha : a.WellFormed) {s : State} (hs : s ∈ a.others) : s.id ≠ a.initial.id :=
  fun he => (List.nodup_cons.1 (Automaton.ids_cons a ▸ ha.nodup_ids)).1 (he ▸ List.mem_map_of_mem hs)

/-- The initial state is listed under the initial id … -/
theorem roots_ofAutomaton (ha : a.WellFormed) : (ofAutomaton a).roots = [.ofState a.initial] := by
  rw [roots, ofAutomaton, Automaton.states, List.map_cons,
    List.filter_cons_of_pos (by simp [StoredState.ofState]), List.filter_eq_nil_iff.2]
  intro row hrow
  obtain ⟨s, hs, rfl⟩ := List.mem_map.1 hrow
  simp [StoredState.ofState, others_ne_initial ha hs]

/-- … and no other one. -/
theorem rest_ofAutomaton (ha : a.WellFormed) : (ofAutomaton a).rest = a.others.map .ofState := by
  rw [rest, ofAutomaton, Automaton.states, List.map_cons,
    List.filter_cons_of_neg (by simp [StoredState.ofState]), List.filter_eq_self]
  intro row hrow
  obtain ⟨s, hs, rfl⟩ := List.mem_map.1 hrow
  simp [StoredState.ofState, others_ne_initial ha hs]

/-- The table of a well-formed automaton becomes an automaton of the same
states, except that moves to missing states are then refused. -/
theorem exists_rebuilt (ha : a.WellFormed) : ∃ b : Automaton, b.initial = a.initial ∧ b.states = a.states ∧
    (ofAutomaton a).automaton = (a.validate.mapError .automaton).map fun _ => b := by
  have hlisted : (ofAutomaton a).initial ∈ (ofAutomaton a).ids := ids_ofAutomaton a ▸ a.initial_mem_ids
  obtain ⟨root, b, hroot, hb⟩ := exists_added hlisted
    (ids_ofAutomaton a ▸ ha.nodup_ids) (labels_ofAutomaton a ▸ ha.nodup_labels)
  have hstates : ∀ s ∈ a.states, (StoredState.ofState s).stateUnder (ofAutomaton a).idOf = s := by
    rw [idOf_ofAutomaton ha]
    exact fun s hs => StoredState.stateUnder_ofState (ha.states s hs)
  have hinitial : b.initial = a.initial := by
    rw [initial_of_added hb (roots_ofAutomaton ha)]
    exact hstates _ List.mem_cons_self
  have hothers : b.others = a.others := by
    rw [others_of_added hb, rest_ofAutomaton ha, List.map_map]
    have hmap : a.others.map (fun s => (StoredState.ofState s).stateUnder (ofAutomaton a).idOf) =
        a.others.map fun s => s :=
      List.map_congr_left fun s hs => hstates s (List.mem_cons_of_mem _ hs)
    exact hmap.trans (List.map_id' _)
  have hall : b.states = a.states := by rw [Automaton.states, hinitial, hothers, Automaton.states]
  refine ⟨b, hinitial, hall, ?_⟩
  rw [automaton_of_added hroot hb, Automaton.validate_congr hall]

end StoredTable

namespace Automaton

variable {a : Automaton}

/-- If all moves lead to states, and the ids are below 2³² - 1, an automaton is
loaded from its file with the same states in the same order. If a move leads to
a missing state, nothing is loaded, and where all ids fit into the file, this
state is the cause. -/
theorem load_save (ha : Built a) :
    (a.validate = .ok () → (∀ x ∈ a.ids, x < UInt32.size - 1) →
      ∃ b : Automaton, load (save a) = .ok b ∧ b.initial = a.initial ∧ b.states = a.states) ∧
    ∀ cause, a.validate = .error cause → ∃ e, load (save a) = .error e ∧
      ((∀ x ∈ a.ids ++ a.targets, x < UInt32.size) → e = .automaton cause) := by
  obtain ⟨b, hinitial, hstates, hb⟩ := StoredTable.exists_rebuilt ha.wellFormed
  have hparse := (StoredTable.ofAutomaton a).parse?_print
  constructor
  · intro hv hids
    have hsmall : ∀ x ∈ a.ids, x < UInt32.size := fun x hx => Nat.lt_of_lt_pred (hids x hx)
    have hfits := StoredTable.fits_ofAutomaton hsmall fun x hx => hsmall x (validate_eq_ok_iff.1 hv x hx)
    rw [if_pos hfits] at hparse
    refine ⟨b, ?_, hinitial, hstates⟩
    rw [save, StoredTable.load_of_parsed hparse, hb, hv]
    rfl
  · intro cause hv
    by_cases hfits : (StoredTable.ofAutomaton a).Fits
    · rw [if_pos hfits] at hparse
      refine ⟨.automaton cause, ?_, fun _ => rfl⟩
      rw [save, StoredTable.load_of_parsed hparse, hb, hv]
      rfl
    · rw [if_neg hfits] at hparse
      refine ⟨.malformed, ?_, fun hsmall => absurd (StoredTable.fits_ofAutomaton ?_ ?_) hfits⟩
      · rw [save, load, hparse]
      · exact fun x hx => hsmall x (List.mem_append_left _ hx)
      · exact fun x hx => hsmall x (List.mem_append_right _ hx)

/-- Labels, a marker and symbols that are escaped in a file. -/
def oddTexts : Automaton :=
  (addTransition 0 '"' 1).after <| (addTransition 0 '\u0000' 0).after <|
    (addFinalState "\u0000é" "\\\n").after (withInitial "a\"b")

theorem oddTexts_saved : Built oddTexts ∧ (∀ x ∈ oddTexts.ids, x < UInt32.size - 1) ∧
    oddTexts.validate = .ok () ∧ ∃ b : Automaton, load (save oddTexts) = .ok b ∧
      b.initial = oddTexts.initial ∧ b.states = oddTexts.states := by
  have hbuilt : Built oddTexts := .addTransition 0 '"' 1 <| .addTransition 0 '\u0000' 0 <|
    .addFinalState "\u0000é" "\\\n" (.withInitial "a\"b")
  have hids : ∀ x ∈ oddTexts.ids, x < UInt32.size - 1 := by decide
  exact ⟨hbuilt, hids, by decide, (load_save hbuilt).1 (by decide) hids⟩

end Automaton
end TokenAutomata
