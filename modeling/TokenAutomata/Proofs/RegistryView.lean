/-
# What a registry shows

In a sound registry the four fields tell the same story: the initial id is 0
and listed first, every state is kept under its own id, the index holds just
the labels of the states with their ids, and the next id is above all of them
(`Registry.Sound`). Seen as a list, such a registry is a well-formed automaton,
in which the same is found.

Key definitions: `Registry.Sound`.
Key theorems: `Registry.Sound.states_view`, `Registry.Sound.ids_view`,
`Registry.Sound.mem_labels_view`, `Registry.Sound.view_wellFormed`,
`Registry.Sound.state?_view`, `Registry.Sound.uniqueLabel_view`,
`Registry.Sound.validate_view`.
-/
import TokenAutomata.Proofs.FreeLabel
import TokenAutomata.Proofs.WellFormed
import TokenAutomata.Registry.Basic

namespace TokenAutomata
namespace Registry

/-- The four fields agree. -/
structure Sound (r : Registry) : Prop where
  initial_eq : r.initial = 0
  first : r.states.keys.head? = some r.initial
  keyed : ∀ id s, r.state? id = some s → s.id = id
  index : ∀ label id, r.idOf? label = some id ↔ ∃ s, r.state? id = some s ∧ s.label = label
  lt_nextId : ∀ id ∈ r.states.keys, id < r.nextId
  states : ∀ s ∈ r.states.values, s.WellFormed

namespace Sound

variable {r : Registry} (h : r.Sound)

include h

/-! ### States -/

theorem initial_mem_keys : r.initial ∈ r.states.keys := List.mem_of_head? h.first

theorem state?_initial : r.state? r.initial = some r.initialState := by
  obtain ⟨s, hs⟩ := OrderedMap.mem_keys_iff.1 h.initial_mem_keys
  rw [initialState, state?, hs]
  rfl

theorem initialState_id : r.initialState.id = r.initial := h.keyed _ _ h.state?_initial

/-- The initial state comes before the others. -/
theorem values_eq : r.states.values = r.initialState :: (r.states.remove r.initial).values := by
  have hfirst : (r.states.entries.map Prod.fst).head? = some r.initial := h.first
  have hinitial := OrderedMap.get?_eq_some_iff.1 h.state?_initial
  have hnodup := r.states.nodup
  show r.states.entries.map Prod.snd = r.initialState ::
    (r.states.entries.filter fun e => decide (e.1 ≠ r.initial)).map Prod.snd
  revert hfirst hinitial hnodup
  cases r.states.entries with
  | nil => simp
  | cons e rest =>
    intro hfirst hinitial hnodup
    rw [List.map_cons, List.head?_cons, Option.some.injEq] at hfirst
    rw [List.map_cons, List.nodup_cons] at hnodup
    have hother : ∀ e' ∈ rest, e'.1 ≠ r.initial := fun e' he' heq =>
      hnodup.1 (hfirst ▸ heq ▸ List.mem_map_of_mem he')
    have hfilter : rest.filter (fun e => decide (e.1 ≠ r.initial)) = rest :=
      List.filter_eq_self.2 fun e' he' => decide_eq_true (hother e' he')
    have hhead : e = (r.initial, r.initialState) := by
      rcases List.mem_cons.1 hinitial with he | he
      · exact he.symm
      · exact absurd rfl (hother _ he)
    rw [List.filter_cons_of_neg (by simp [hfirst]), hfilter, hhead]
    rfl

theorem states_view : r.view.states = r.states.values := h.values_eq.symm

theorem keys_eq : r.states.keys = r.states.values.map (·.id) := by
  unfold OrderedMap.keys OrderedMap.values
  rw [List.map_map]
  refine List.map_congr_left fun e he => ?_
  exact (h.keyed e.1 e.2 (OrderedMap.get?_eq_some_iff.2 he)).symm

theorem ids_view : r.view.ids = r.states.keys := by
  rw [Automaton.ids, h.states_view, h.keys_eq]

theorem size_view : r.view.size = r.size := by
  rw [Automaton.size, h.states_view, OrderedMap.values, List.length_map]
  rfl

theorem mem_values_iff {s : State} : s ∈ r.states.values ↔ r.state? s.id = some s := by
  rw [OrderedMap.mem_values_iff]
  constructor
  · rintro ⟨id, hs⟩
    have hid : s.id = id := h.keyed id s hs
    rw [hid]
    exact hs
  · exact fun hs => ⟨s.id, hs⟩

theorem nodup_ids_view : r.view.ids.Nodup := by
  rw [h.ids_view]
  exact r.states.nodup

theorem state?_view (id : Nat) : r.view.state? id = r.state? id := by
  refine Option.ext fun s => ?_
  rw [Automaton.state?_eq_some_iff h.nodup_ids_view, h.states_view, h.mem_values_iff]
  constructor
  · rintro ⟨hs, rfl⟩
    exact hs
  · intro hs
    have hid : s.id = id := h.keyed id s hs
    rw [hid]
    exact ⟨hs, rfl⟩

theorem contains_view (id : Nat) : r.view.contains id = r.contains id := by
  rw [Bool.eq_iff_iff, Automaton.contains_iff, h.ids_view, contains, OrderedMap.contains_iff]

theorem statesOf_view (ids : IdSet) : r.view.statesOf ids = r.statesOf ids := by
  unfold Automaton.statesOf statesOf
  exact List.filterMap_congr fun id _ => h.state?_view id

/-! ### Labels -/

theorem mem_labels_view {label : String} : label ∈ r.view.labels ↔ label ∈ r.labels.keys := by
  rw [Automaton.labels, h.states_view, List.mem_map, OrderedMap.mem_keys_iff]
  constructor
  · rintro ⟨s, hs, rfl⟩
    exact ⟨s.id, (h.index _ _).2 ⟨s, h.mem_values_iff.1 hs, rfl⟩⟩
  · rintro ⟨id, hid⟩
    obtain ⟨s, hs, hlabel⟩ := (h.index _ _).1 hid
    exact ⟨s, OrderedMap.mem_values_iff.2 ⟨id, hs⟩, hlabel⟩

theorem contains_label_iff {label : String} :
    r.labels.contains label = true ↔ label ∈ r.view.labels := by
  rw [OrderedMap.contains_iff, h.mem_labels_view]

/-- States of one label have one id. -/
theorem nodup_labels_view : r.view.labels.Nodup := by
  have hnodup : (r.states.values.map (·.label)).Nodup := by
    refine List.Nodup.map_on (fun s hs t ht hlabel => ?_) ?_
    · rw [h.mem_values_iff] at hs ht
      have hsid := (h.index s.label s.id).2 ⟨s, hs, rfl⟩
      have htid := (h.index s.label t.id).2 ⟨t, ht, hlabel.symm⟩
      have hid : s.id = t.id := Option.some.inj (hsid.symm.trans htid)
      rw [hid] at hs
      exact Option.some.inj (hs.symm.trans ht)
    · have hids := r.states.nodup
      change r.states.keys.Nodup at hids
      rw [h.keys_eq] at hids
      exact List.Nodup.of_map _ hids
  rwa [← h.states_view] at hnodup

/-- The index gives the labels the ids that the list gives them. -/
theorem idOf?_view (label : String) : r.view.idOf? label = r.idOf? label := by
  refine Option.ext fun id => ?_
  rw [h.index, Automaton.idOf?_eq_some_iff h.nodup_labels_view, h.states_view]
  constructor
  · rintro ⟨s, hs, hlabel, rfl⟩
    exact ⟨s, h.mem_values_iff.1 hs, hlabel⟩
  · rintro ⟨s, hs, hlabel⟩
    have hid : s.id = id := h.keyed id s hs
    exact ⟨s, OrderedMap.mem_values_iff.2 ⟨id, hs⟩, hlabel, hid⟩

theorem uniqueLabel_view (label : String) (id : Nat) :
    r.view.uniqueLabel label id = r.uniqueLabel label id := by
  have hperm : r.view.labels.Perm r.labels.keys :=
    (List.perm_ext_iff_of_nodup h.nodup_labels_view r.labels.nodup).2 fun _ => h.mem_labels_view
  unfold Automaton.uniqueLabel uniqueLabel
  simp only [h.contains_label_iff, Automaton.firstFree_perm hperm]

/-! ### As a whole -/

/-- A sound registry is a well-formed automaton. -/
theorem view_wellFormed : r.view.WellFormed where
  initial_id := h.initialState_id.trans h.initial_eq
  nodup_ids := h.nodup_ids_view
  nodup_labels := h.nodup_labels_view
  lt_nextId := by
    rw [h.ids_view]
    exact h.lt_nextId
  states := by
    rw [h.states_view]
    exact h.states

theorem isDeterministic_view : r.view.isDeterministic = r.isDeterministic := by
  rw [Automaton.isDeterministic, h.states_view, isDeterministic]

theorem validate_view : r.view.validate = r.validate := by
  have hfind : r.view.targets.find? (!r.view.contains ·) = r.states.values.findSome? r.missingFrom? := by
    unfold Automaton.targets missingFrom? Moves.targets
    rw [h.states_view]
    simp only [List.find?_flatMap, h.contains_view]
  cases hmissing : r.states.values.findSome? r.missingFrom? with
  | none => rw [Automaton.validate, validate, hfind, hmissing]
  | some id => rw [Automaton.validate, validate, hfind, hmissing]

end Sound
end Registry
end TokenAutomata
