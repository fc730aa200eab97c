/-
# What an edit does

An edit that succeeds is told by what it does to the ids in use, to the moves
and to the markers; a new state comes without moves, a new move leaves all
others as they are, and a marker is that of one state.

Key theorems: `Automaton.state?_update`, `Automaton.addState_effect`,
`Automaton.addTransition_effect`, `Automaton.setMarker_effect`,
`Automaton.addFinalState_effect`.
-/
import TokenAutomata.Proofs.Adopting
import TokenAutomata.Proofs.Path

namespace TokenAutomata
namespace Automaton

variable {a b : Automaton} {id : Nat} {u : Unit}

/-! ### A state changed in place -/

theorem states_update (a : Automaton) (id : Nat) (f : State → State) :
    (a.update id f).states = a.states.map fun s => if s.id = id then f s else s := rfl

theorem state?_update {f : State → State} (hf : ∀ s, (f s).id = s.id) (p : Nat) :
    (a.update id f).state? p = if p = id then (a.state? p).map f else a.state? p := by
  have hid : ∀ s : State, (if s.id = id then f s else s).id = s.id := fun s => by
    split
    · exact hf s
    · rfl
  rw [state?, states_update, List.find?_map]
  simp only [Function.comp_def, hid]
  cases h : a.state? p with
  | none =>
    rw [state?] at h
    simp [h]
  | some s =>
    have hs := id_of_state? h
    rw [state?] at h
    rw [h, Option.map_some, hs]
    split
    · rfl
    · rfl

theorem ids_update {f : State → State} (hf : ∀ s, s.id = id → (f s).id = id) :
    (a.update id f).ids = a.ids := by
  rw [ids, states_update, List.map_map]
  refine List.map_congr_left fun s _ => ?_
  show (if s.id = id then f s else s).id = s.id
  by_cases hs : s.id = id
  · rw [if_pos hs, hf s hs, hs]
  · rw [if_neg hs]

theorem dests_update {f : State → State} (hf : ∀ s, (f s).id = s.id)
    (hmoves : ∀ s, (f s).moves = s.moves) (p : Nat) (c : Symbol) :
    (a.update id f).dests p c = a.dests p c := by
  unfold dests
  rw [state?_update hf]
  by_cases hp : p = id
  · rw [if_pos hp]
    cases a.state? p with
    | none => rfl
    | some s => exact congrArg (fun m => Moves.dests m c) (hmoves s)
  · rw [if_neg hp]

theorem markerOf?_update {f : State → State} (hf : ∀ s, (f s).id = s.id)
    (hmarker : ∀ s, (f s).marker = s.marker) (p : Nat) :
    (a.update id f).markerOf? p = a.markerOf? p := by
  unfold markerOf?
  rw [state?_update hf]
  by_cases hp : p = id
  · rw [if_pos hp]
    cases a.state? p with
    | none => rfl
    | some s => exact hmarker s
  · rw [if_neg hp]

/-! ### Edits -/

/-- A state without moves and marker is added under the next id. -/
theorem addState_effect {label : String} (ha : a.WellFormed) (h : addState label a = .ok id b) :
    id = a.nextId ∧ id ∉ a.ids ∧ b.ids = a.ids ++ [id] ∧ (∀ p c, b.dests p c = a.dests p c) ∧
      ∀ p, b.markerOf? p = a.markerOf? p := by
  have hnew : a.nextId ∉ a.ids := fun hm => Nat.lt_irrefl _ (ha.lt_nextId _ hm)
  have hb : b.WellFormed := (keeps_addState label).ok ha h
  obtain ⟨rfl, n, rfl⟩ : id = a.nextId ∧ ∃ n, b = a.extended [.new a.nextId label] n := by
    obtain ⟨-, -, rfl, rfl⟩ := insert_eq_ok.1 (show insert (.new a.nextId label) a = .ok id b from h)
    exact ⟨rfl, _, rfl⟩
  have hnone : a.state? a.nextId = none := state?_eq_none_iff.2 hnew
  have hstate : (a.extended [.new a.nextId label] n).state? a.nextId = some (.new a.nextId label) :=
    state?_extended_new hb.nodup_ids List.mem_cons_self
  have hsame : ∀ p, p ≠ a.nextId → (a.extended [.new a.nextId label] n).state? p = a.state? p := by
    intro p hp
    by_cases hm : p ∈ a.ids
    · exact state?_extended hm
    · rw [state?_eq_none_iff.2 hm, state?_eq_none_iff, ids_extended, List.mem_append]
      simp [State.new, hm, hp]
  refine ⟨rfl, hnew, ids_extended, fun p c => ?_, fun p => ?_⟩
  · by_cases hp : p = a.nextId
    · subst hp
      rw [dests, dests, hnone, hstate]
      rfl
    · rw [dests, dests, hsame p hp]
  · by_cases hp : p = a.nextId
    · subst hp
      rw [markerOf?, markerOf?, hnone, hstate]
      rfl
    · rw [markerOf?, markerOf?, hsame p hp]

/-- A move is added between states that exist. -/
theorem addTransition_effect {p q : Nat} {c : Symbol} (h : addTransition p c q a = .ok u b) :
    p ∈ a.ids ∧ q ∈ a.ids ∧ b.ids = a.ids ∧ (∀ p' c' q', q' ∈ b.dests p' c' ↔
      q' ∈ a.dests p' c' ∨ p' = p ∧ c' = c ∧ q' = q) ∧ ∀ p', b.markerOf? p' = a.markerOf? p' := by
  obtain ⟨hq, hp, rfl⟩ := addTransition_eq_ok.1 h
  have hid : ∀ s : State, (s.addMove c q).id = s.id := fun _ => rfl
  refine ⟨hp, hq, ids_update fun _ hs => hs, fun p' c' q' => ?_, markerOf?_update hid fun _ => rfl⟩
  obtain ⟨s, hs⟩ := mem_ids_iff.1 hp
  unfold dests
  rw [state?_update hid]
  by_cases hpp : p' = p
  · subst hpp
    rw [if_pos rfl, hs]
    show q' ∈ (s.moves.insert c q).dests c' ↔ _
    rw [Moves.mem_dests_insert]
    simp
  · rw [if_neg hpp]
    simp [hpp]

/-- The marker of a state that exists is set; the empty text clears it. -/
theorem setMarker_effect {marker : Option String} (h : setMarker id marker a = .ok u b) :
    id ∈ a.ids ∧ b.ids = a.ids ∧ (∀ p c, b.dests p c = a.dests p c) ∧
      ∀ p, b.markerOf? p = if p = id then marker.filter (· ≠ "") else a.markerOf? p := by
  obtain ⟨hm, rfl⟩ := setMarker_eq_ok.1 h
  have hid : ∀ s : State, (s.setMarker marker).id = s.id := fun _ => rfl
  refine ⟨hm, ids_update fun _ hs => hs, dests_update hid fun _ => rfl, fun p => ?_⟩
  unfold markerOf?
  rw [state?_update hid]
  by_cases hp : p = id
  · subst hp
    obtain ⟨s, hs⟩ := mem_ids_iff.1 hm
    rw [if_pos rfl, if_pos rfl, hs]
    rfl
  · rw [if_neg hp, if_neg hp]

/-- A state with a marker is added. -/
theorem addFinalState_effect {label token : String} (ha : a.WellFormed) (htoken : token ≠ "")
    (h : addFinalState label token a = .ok id b) : b.ids = a.ids ++ [id] ∧
      (∀ p c, b.dests p c = a.dests p c) ∧ b.markerOf? id = some token := by
  obtain ⟨id', a', hadd, hrest⟩ := Change.bind_eq_ok.1 h
  obtain ⟨u, b', hset, hlast⟩ := Change.bind_eq_ok.1 hrest
  obtain ⟨rfl, rfl⟩ := Change.pure_eq_ok.1 hlast
  obtain ⟨-, -, hids, hdests, -⟩ := addState_effect ha hadd
  obtain ⟨-, hids', hdests', hmarker⟩ := setMarker_effect hset
  refine ⟨hids'.trans hids, fun p c => (hdests' p c).trans (hdests p c), ?_⟩
  rw [hmarker, if_pos rfl]
  simp [Option.filter, htoken]

end Automaton
end TokenAutomata
