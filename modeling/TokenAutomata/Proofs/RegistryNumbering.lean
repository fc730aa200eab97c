/-
# The numbers that determinization gives

The ids of the states are handed out before the states are made, but in the end
the states are stored in the order of their ids, and the loop that lists the
reachable ids takes them in this order as well (`Registry.determinize_canonical`).
No choice of labels makes determinization fail.

What is deterministic already is only numbered anew: a queue of sets of one id
each takes the turns that the queue of the ids themselves takes
(`Registry.determinize_renumbers`).

Key definitions: `Registry.Canonical`, `Registry.NumberedBy`,
`Registry.SameFields`.
Key theorems: `Registry.Sound.sameFields_of_view`,
`Registry.determinize_canonical`, `Registry.determinize_renumbers`.
-/
import TokenAutomata.Proofs.DeterministicInput
import TokenAutomata.Proofs.RegistryRuns

namespace TokenAutomata
namespace Registry

variable {r s d : Registry}

/-! ### What is shown tells everything -/

/-- Nothing tells the registries apart. The index is a map without an order. -/
structure SameFields (r s : Registry) : Prop where
  states : r.states = s.states
  index : ∀ label, r.idOf? label = s.idOf? label
  initial : r.initial = s.initial
  nextId : r.nextId = s.nextId

/-- Each state is listed with its id. -/
theorem Sound.entries_eq (h : r.Sound) : r.states.entries = r.states.values.map fun t => (t.id, t) := by
  rw [OrderedMap.values, List.map_map]
  refine ((List.map_congr_left fun e he => ?_).trans (List.map_id _)).symm
  rw [Function.comp_apply, h.keyed e.1 e.2 (OrderedMap.get?_eq_some_iff.2 he)]
  rfl

theorem Sound.sameFields_of_view (hr : r.Sound) (hs : s.Sound) (h : r.view = s.view) : SameFields r s where
  states := by
    refine OrderedMap.ext ?_
    rw [hr.entries_eq, hs.entries_eq, ← hr.states_view, ← hs.states_view, h]
  index label := by rw [← hr.idOf?_view, ← hs.idOf?_view, h]
  initial := hr.initial_eq.trans hs.initial_eq.symm
  nextId := congrArg Automaton.nextId h

/-! ### The determinized registry is canonical -/

/-- What determinization makes of `r`, up to the labels of the other states. -/
structure Canonical (d r : Registry) : Prop where
  isDeterministic : d.isDeterministic = true
  validate : d.validate = .ok ()
  keys : d.states.keys = List.range d.size
  ids : d.states.values.map (·.id) = List.range d.size
  reachable : d.reachable = List.range d.size
  labels_unique : (d.states.values.map (·.label)).Nodup
  initial_label : d.initialState.label = r.initialState.label
  size_le : d.size ≤ 2 ^ {q | q ∈ r.states.keys ∧ ∃ w, r.view.Reaches w q}.ncard - 1

/-- What shows what is canonical is canonical. -/
theorem Canonical.of_view (hr : r.Sound) (hd : d.Sound) (h : d.view.Canonical r.view) : d.Canonical r where
  isDeterministic := hd.isDeterministic_view.symm.trans h.isDeterministic
  validate := hd.validate_view.symm.trans h.validate
  keys := by rw [← hd.ids_view, h.ids, hd.size_view]
  ids := by rw [← hd.states_view, ← hd.size_view]; exact h.ids
  reachable := by rw [← hd.reachable_view, h.reachable, hd.size_view]
  labels_unique := by rw [← hd.states_view]; exact h.nodup_labels
  initial_label := h.initial_label
  size_le := by rw [← hd.size_view, ← hr.ids_view]; exact h.size_le

/-- Determinization fails just if a move leads to a missing state, and with the
same error. Otherwise its result is canonical. -/
theorem determinize_canonical (hr : r.Built) :
    (∀ e, r.determinize = .error e ↔ r.validate = .error e) ∧
    (∀ e, r.validate = .error e →
      ∃ t ∈ r.states.values, ∃ id ∈ t.moves.targets, id ∉ r.states.keys ∧ e = .unknownState id) ∧
    ∀ d, r.determinize = .ok d → d.Canonical r := by
  have h := hr.sound
  refine ⟨fun e => ?_, fun e he => ?_, fun d hd => ?_⟩
  · rw [h.determinize_agrees.error_iff, Automaton.determinize_eq_error_iff, h.validate_view]
  · obtain ⟨id, hid, hnot, rfl⟩ := Automaton.validate_eq_error (h.validate_view.trans he)
    obtain ⟨t, ht, hmove⟩ := List.mem_flatMap.1 hid
    rw [h.states_view] at ht
    rw [h.ids_view] at hnot
    exact ⟨t, ht, id, hmove, hnot, rfl⟩
  · obtain ⟨hsound, hview⟩ := h.determinize_agrees.of_ok hd
    exact .of_view h hsound (Automaton.canonical_of_determinize h.view_wellFormed hview)

/-- Its labels are like those that determinization makes up. -/
def likeMadeUp : Registry := new.afterAll [.addFinalState "q1" "A", .addFinalState "q1#3" "B", .addState "C",
  .addState "D", .addTransition 0 'a' 3, .addTransition 0 'a' 4, .addTransition 0 'b' 2, .addTransition 0 'c' 1]

theorem reachedSets_likeMadeUp : likeMadeUp.view.reachedSets =
    [.ofList [0], .ofList [3, 4], .ofList [2], .ofList [1]] := by
  have hturns : Worklist.Turns likeMadeUp.view.successorSets 4
      (Worklist.empty.addAll [IdSet.singleton likeMadeUp.view.initial.id])
      ⟨[.ofList [0], .ofList [3, 4], .ofList [2], .ofList [1]], [], [3, 2, 1, 0]⟩ :=
    .turn rfl <| .turn rfl <| .turn rfl <| .turn rfl <| .none _
  unfold Automaton.reachedSets search
  rw [Worklist.run_of_turns _ hturns rfl]

/-- The set of 3 and 4 gets the label `q1`. So the state `q1` has to be given
another one, and `q1#3` is taken by then. -/
theorem likeMadeUp_canonical : likeMadeUp.Built ∧ ∃ d, likeMadeUp.determinize = .ok d ∧ d.Canonical likeMadeUp ∧
    d.size = 4 ∧ d.states.values.map (·.label) = [Automaton.rootLabel, "q1", "q1#3", "q1#3.1"] := by
  have hbuilt : likeMadeUp.Built :=
    Built.afterAll (.made (.withInitial Automaton.rootLabel)) (by simp [Operation.Allowed])
  obtain ⟨hfails, -, hcanonical⟩ := determinize_canonical hbuilt
  cases hd : likeMadeUp.determinize with
  | error e =>
    have hvalid : likeMadeUp.validate = .ok () := by decide
    cases hvalid.symm.trans ((hfails e).1 hd)
  | ok d =>
    obtain ⟨hsound, hview⟩ := hbuilt.sound.determinize_agrees.of_ok hd
    have hlabels : likeMadeUp.view.determinize.map (·.labels) =
        .ok [Automaton.rootLabel, "q1", "q1#3", "q1#3.1"] := by
      rw [Automaton.determinize, reachedSets_likeMadeUp]
      decide +kernel
    rw [hview] at hlabels
    have hvalues : d.states.values.map (·.label) = [Automaton.rootLabel, "q1", "q1#3", "q1#3.1"] := by
      rw [← hsound.states_view]
      exact Except.ok.inj hlabels
    have hsize := congrArg List.length hvalues
    rw [List.length_map, OrderedMap.values, List.length_map] at hsize
    exact ⟨hbuilt, d, rfl, hcanonical d hd, hsize, hvalues⟩

/-! ### What is deterministic already -/

/-- `d` has the states of `r` that `order` lists, each under its place in it:
with the same label, marker and symbols, and with moves to the places of where
the moves of `r` lead. -/
structure NumberedBy (order : List Nat) (d r : Registry) : Prop where
  size : d.size = order.length
  state : ∀ i id, order[i]? = some id → ∃ s t : State, r.state? id = some s ∧
    d.states.entries[i]? = some (i, t) ∧ t.id = i ∧ t.label = s.label ∧ t.marker = s.marker ∧
    t.moves.symbols = s.moves.symbols ∧
    ∀ c ∈ s.moves.symbols, ∃ q j, s.moves.dests c = .singleton q ∧ order[j]? = some q ∧
      t.moves.dests c = .singleton j

theorem NumberedBy.of_view {order : List Nat} (hr : r.Sound) (hd : d.Sound)
    (h : d.view.NumberedBy order r.view) : NumberedBy order d r where
  size := hd.size_view.symm.trans h.size
  state i id hi := by
    obtain ⟨s, t, hs, ht, hid, hrest⟩ := h.state i id hi
    rw [hr.state?_view] at hs
    rw [hd.states_view] at ht
    refine ⟨s, t, hs, ?_, hid, hrest⟩
    rw [hd.entries_eq, List.getElem?_map, ht, Option.map_some, hid]

/-- Determinization of a deterministic registry numbers the states that can be
reached, in the order in which the loop over the ids takes them; so it changes
nothing when it is repeated. -/
theorem determinize_renumbers (hr : r.Built) (hv : r.validate = .ok ()) :
    ∃ d, r.determinize = .ok d ∧ (r.isDeterministic = true → NumberedBy r.reachable d r) ∧
      ∃ d', d.determinize = .ok d' ∧ SameFields d' d := by
  have h := hr.sound
  have hwf := h.view_wellFormed
  obtain ⟨a, ha, -⟩ := Automaton.determinize_states (h.validate_view.trans hv)
  obtain ⟨d, hd, hsound, rfl⟩ := h.determinize_agrees.eq_ok ha
  have hagain := Automaton.determinize_idempotent hwf ha
  obtain ⟨d', hd', hsound', hview'⟩ := hsound.determinize_agrees.eq_ok hagain
  refine ⟨d, hd, fun hdet => ?_, d', hd', hsound'.sameFields_of_view hsound hview'⟩
  rw [← h.reachable_view]
  exact .of_view h hsound (Automaton.numberedBy_reachable hwf (h.isDeterministic_view.trans hdet) ha)

/-- A loop through the states 0, 3 and 2; the state 1 cannot be reached. -/
def loopOfThree : Registry := new.afterAll [.addState "OFF", .addFinalState "B" "TOKEN", .addState "A",
  .addTransition 0 'a' 3, .addTransition 3 'b' 2, .addTransition 2 'c' 0]

theorem loopOfThree_renumbered : loopOfThree.Built ∧ loopOfThree.validate = .ok () ∧
    loopOfThree.isDeterministic = true ∧
    ∃ d, loopOfThree.determinize = .ok d ∧ NumberedBy loopOfThree.reachable d loopOfThree ∧
      ∃ d', d.determinize = .ok d' ∧ SameFields d' d := by
  have hbuilt : loopOfThree.Built :=
    Built.afterAll (.made (.withInitial Automaton.rootLabel)) (by simp [Operation.Allowed])
  have hvalid : loopOfThree.validate = .ok () := by decide
  have hdet : loopOfThree.isDeterministic = true := by decide
  obtain ⟨d, hd, hnumbered, hagain⟩ := determinize_renumbers hbuilt hvalid
  exact ⟨hbuilt, hvalid, hdet, d, hd, hnumbered hdet, hagain⟩

end Registry
end TokenAutomata
