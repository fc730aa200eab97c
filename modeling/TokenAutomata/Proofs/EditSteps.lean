/-
# Single edits

A single edit checks what it is given first and then changes the automaton in
one step. So it changes nothing if it fails (`Change.Atomic`), and what it did if
it ended well, and when it does so, is one line for each edit
(`Automaton.insert_eq_ok` and the like). To keep a property, an atomic edit has
to keep it only where it ends well (`Change.Keeps.of_atomic`).

Key definitions: `Change.Atomic`.
Key theorems: `Change.Keeps.of_atomic`, `Automaton.insert_eq_ok`,
`Automaton.setMarker_eq_ok`, `Automaton.addTransition_eq_ok`,
`Automaton.forgetState_eq_ok`, `Automaton.replaceInitial_eq_ok`,
`Automaton.editState_after`.
-/
import TokenAutomata.Proofs.EditRuns

namespace TokenAutomata

namespace Change

variable {σ α : Type} {P : σ → Prop}

/-- The edit changes nothing when it fails. -/
def Atomic (x : Change σ α) : Prop := ∀ a e b, x a = .error e b → b = a

theorem Keeps.of_atomic {x : Change σ α} (hx : Atomic x)
    (h : ∀ a v b, P a → x a = .ok v b → P b) : Keeps P x := by
  intro a ha
  unfold after
  cases hxa : x a with
  | ok v b => exact h a v b ha hxa
  | error e b =>
    have hsame : b = a := hx a e b hxa
    rw [hsame]
    exact ha

/-- A check that fails changes nothing. -/
theorem eq_of_check_error {p : Prop} [Decidable p] {a b : σ} {e e' : AutomatonError}
    {x : EStateM.Result AutomatonError σ α} (h : (if p then .error e a else x) = .error e' b)
    (hx : x = .error e' b → b = a) : b = a := by
  by_cases hp : p
  · rw [if_pos hp] at h
    cases h
    rfl
  · rw [if_neg hp] at h
    exact hx h

end Change

namespace Automaton

open Change (Atomic eq_of_check_error)

variable {a b : Automaton} {s t : State} {id : Nat} {u : Unit}

theorem contains_iff : a.contains id = true ↔ id ∈ a.ids := by simp [contains]

/-! ### Checks -/

section Checks

variable {α : Type} {p : Prop} [Decidable p] {e : AutomatonError}
  {x : EStateM.Result AutomatonError Automaton α} {v : α}

theorem check_edit_eq_ok : (if p then .error e a else x) = .ok v b ↔ ¬ p ∧ x = .ok v b := by
  by_cases hp : p
  · simp [hp]
  · simp [hp]

end Checks

/-! ### Adding -/

theorem insert_eq_ok : insert s a = .ok id b ↔ s.label ∉ a.labels ∧ s.id ∉ a.ids ∧ s.id = id ∧
    { a with others := a.others ++ [s], nextId := max a.nextId (s.id + 1) } = b := by
  unfold insert
  rw [check_edit_eq_ok, check_edit_eq_ok, contains_iff, EStateM.Result.ok.injEq]

theorem insert_atomic (s : State) : Atomic (insert s) := fun _ _ _ h =>
  eq_of_check_error h fun h => eq_of_check_error h fun h => by cases h

theorem addState_atomic (label : String) : Atomic (addState label) := fun a e b h =>
  insert_atomic (.new a.nextId label) a e b h

theorem addTransition_eq_ok {source target : Nat} {c : Symbol} :
    addTransition source c target a = .ok u b ↔
      target ∈ a.ids ∧ source ∈ a.ids ∧ a.update source (·.addMove c target) = b := by
  unfold addTransition
  rw [check_edit_eq_ok, check_edit_eq_ok, EStateM.Result.ok.injEq]
  simp [contains]

theorem addTransition_atomic (source : Nat) (c : Symbol) (target : Nat) :
    Atomic (addTransition source c target) := fun _ _ _ h =>
  eq_of_check_error h fun h => eq_of_check_error h fun h => by cases h

/-! ### Changing -/

theorem setMarker_eq_ok {marker : Option String} : setMarker id marker a = .ok u b ↔
    id ∈ a.ids ∧ a.update id (·.setMarker marker) = b := by
  unfold setMarker
  by_cases hid : a.contains id = true
  · simp [if_pos hid, contains_iff.1 hid]
  · simp [if_neg hid, mt contains_iff.2 hid]

theorem setMarker_atomic (id : Nat) (marker : Option String) : Atomic (setMarker id marker) := by
  intro a e b h
  unfold setMarker at h
  by_cases hid : a.contains id = true
  · rw [if_pos hid] at h
    cases h
  · rw [if_neg hid] at h
    cases h
    rfl

theorem replaceInitial_eq_ok : replaceInitial s a = .ok u b ↔ s.id = a.initial.id ∧
    (s.label = a.initial.label ∨ s.label ∉ a.labels) ∧ { a with initial := s } = b := by
  unfold replaceInitial
  rw [check_edit_eq_ok, check_edit_eq_ok, EStateM.Result.ok.injEq, Decidable.not_not,
    Decidable.not_and_iff_not_or_not, Decidable.not_not]
  simp

theorem replaceInitial_atomic (s : State) : Atomic (replaceInitial s) := fun _ _ _ h =>
  eq_of_check_error h fun h => eq_of_check_error h fun h => by cases h

/-- Nothing is edited where there is no such state or the edit fails. -/
theorem editState_after (a : Automaton) (id : Nat) (e : State.Edit) : (editState id e).after a = a ∨
    ∃ s t, a.state? id = some s ∧ s.edit e = .ok t ∧
      (editState id e).after a = a.update id fun _ => t := by
  unfold Change.after editState
  cases hs : a.state? id with
  | none => exact Or.inl rfl
  | some s =>
    cases ht : s.edit e with
    | error err =>
      simp only [ht]
      exact Or.inl trivial
    | ok t =>
      simp only [ht]
      exact Or.inr ⟨s, t, rfl, ht, rfl⟩

/-! ### Removing -/

theorem forgetAll_singleton (a : Automaton) (id : Nat) : a.forgetAll [id] = { a with
    initial := a.initial.forget id, others := (a.others.filter (·.id ≠ id)).map (·.forget id) } := by
  simp [forgetAll]

theorem forgetState_eq_ok : forgetState id a = .ok s b ↔ id ≠ a.initial.id ∧
    a.others.find? (·.id == id) = some s ∧ a.forgetAll [id] = b := by
  unfold forgetState
  rw [check_edit_eq_ok, forgetAll_singleton]
  cases a.others.find? (·.id == id) with
  | none => simp
  | some t => simp

theorem forgetState_atomic (id : Nat) : Atomic (forgetState id) := by
  intro a e b h
  refine eq_of_check_error h fun h => ?_
  cases hfind : a.others.find? (·.id == id) with
  | none =>
    rw [hfind] at h
    cases h
    rfl
  | some s =>
    rw [hfind] at h
    cases h

end Automaton
end TokenAutomata
