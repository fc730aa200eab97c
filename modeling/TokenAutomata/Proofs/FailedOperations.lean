/-
# Operations that fail

An operation looks at what it is given and refuses it for one of a few causes
(`Automaton.Operation.Refused`). A single edit looks before it changes
anything; an edit in several steps can fail in the first one only, since the
ids and labels that the later steps use were made for them: the state to be
marked was just added, and the copies that joining makes get free ids and
free labels. So an operation that fails is one that was refused
(`Automaton.Operation.edit_eq_error`), and it leaves the automaton as it was.

Key definitions: `Automaton.Operation.Refused`.
Key theorems: `Automaton.addFinalState_eq_error`, `Automaton.concat_eq_error`,
`Automaton.Operation.edit_eq_error`.
-/
import TokenAutomata.Proofs.Operations

namespace TokenAutomata

/-- Of all edits of a state, only adding a deterministic move can fail. -/
theorem State.edit_eq_error {s : State} {change : State.Edit} {e : AutomatonError} : s.edit change = .error e ↔
    ∃ x target, change = .addDeterministicMove x target ∧ x ∈ s.moves.symbols ∧
      .notDeterministic s.label x = e := by
  cases change with
  | addDeterministicMove x target =>
    show s.addDeterministicMove x target = .error e ↔ _
    unfold State.addDeterministicMove
    by_cases hx : x ∈ s.moves.symbols
    · simp [hx]
    · simp [hx]
  | _ => simp [State.edit]

namespace Automaton

/-- An automaton refuses an operation, and why. -/
inductive Operation.Refused (a : Automaton) : Operation → AutomatonError → Prop
  | addState {label : String} (h : label ∈ a.labels) :
      Refused a (.addState label) (.duplicateLabel label)
  | addFinalState {label token : String} (h : label ∈ a.labels) :
      Refused a (.addFinalState label token) (.duplicateLabel label)
  | target {source target : Nat} {x : Symbol} (h : target ∉ a.ids) :
      Refused a (.addTransition source x target) (.unknownState target)
  | source {source target : Nat} {x : Symbol} (ht : target ∈ a.ids) (h : source ∉ a.ids) :
      Refused a (.addTransition source x target) (.unknownState source)
  | setMarker {id : Nat} {marker : Option String} (h : id ∉ a.ids) :
      Refused a (.setMarker id marker) (.unknownState id)
  | forgetInitial : Refused a (.forgetState a.initial.id) (.initialState a.initial.label)
  | forgetUnknown {id : Nat} (h : id ∉ a.ids) : Refused a (.forgetState id) (.unknownState id)
  | concat {other : Automaton} (h : a.initial.label ≠ other.initial.label) :
      Refused a (.concat other) (.mismatchedRoots a.initial.label other.initial.label)
  | addDeterministicMove {id target : Nat} {s : State} {x : Symbol} (hs : a.state? id = some s)
      (h : x ∈ s.moves.symbols) :
      Refused a (.editState id (.addDeterministicMove x target)) (.notDeterministic s.label x)

variable {a b other : Automaton} {op : Operation} {e : AutomatonError} {id : Nat} {label : String}

/-! ### Single edits -/

/-- A check lets an error through only if it fails or what follows it does. -/
theorem check_edit_eq_error {α : Type} {p : Prop} [Decidable p] {e' : AutomatonError}
    {x : EStateM.Result AutomatonError Automaton α} :
    (if p then .error e' a else x) = .error e b ↔ p ∧ e' = e ∧ a = b ∨ ¬ p ∧ x = .error e b := by
  by_cases hp : p
  · simp [hp]
  · simp [hp]

theorem addState_eq_error (ha : a.WellFormed) :
    addState label a = .error e b ↔ label ∈ a.labels ∧ .duplicateLabel label = e ∧ a = b := by
  -- the counter is above all ids in use, so the id is free
  have hfree : ¬ a.contains a.nextId = true := by
    rw [contains_iff]
    exact fun hid => Nat.lt_irrefl _ (ha.lt_nextId _ hid)
  show insert (.new a.nextId label) a = .error e b ↔ _
  unfold insert
  rw [check_edit_eq_error, check_edit_eq_error]
  simp [State.new, hfree]

theorem setMarker_eq_error {marker : Option String} :
    setMarker id marker a = .error e b ↔ id ∉ a.ids ∧ .unknownState id = e ∧ a = b := by
  unfold setMarker
  by_cases hid : id ∈ a.ids
  · simp [contains, hid]
  · simp [contains, hid]

theorem addTransition_eq_error {source target : Nat} {x : Symbol} :
    addTransition source x target a = .error e b ↔
      (target ∉ a.ids ∧ .unknownState target = e ∨
        target ∈ a.ids ∧ source ∉ a.ids ∧ .unknownState source = e) ∧ a = b := by
  unfold addTransition
  rw [check_edit_eq_error, check_edit_eq_error]
  simp only [contains, Bool.not_eq_true', decide_eq_false_iff_not, reduceCtorEq, and_false, or_false,
    Decidable.not_not]
  constructor
  · rintro (⟨ht, he, rfl⟩ | ⟨ht, hs, he, rfl⟩)
    · exact ⟨Or.inl ⟨ht, he⟩, rfl⟩
    · exact ⟨Or.inr ⟨ht, hs, he⟩, rfl⟩
  · rintro ⟨⟨ht, he⟩ | ⟨ht, hs, he⟩, rfl⟩
    · exact Or.inl ⟨ht, he, rfl⟩
    · exact Or.inr ⟨ht, hs, he, rfl⟩

theorem forgetState_eq_error : forgetState id a = .error e b ↔
    (id = a.initial.id ∧ .initialState a.initial.label = e ∨ id ∉ a.ids ∧ .unknownState id = e) ∧
      a = b := by
  unfold forgetState
  rw [check_edit_eq_error]
  have hids : id ∉ a.ids ↔ id ≠ a.initial.id ∧ a.others.find? (·.id == id) = none := by
    rw [ids_cons, List.mem_cons, not_or, List.find?_eq_none]
    simp
  rw [hids]
  cases a.others.find? (·.id == id) with
  | none =>
    simp only [EStateM.Result.error.injEq]
    constructor
    · rintro (⟨hid, he, rfl⟩ | ⟨hid, he, rfl⟩)
      · exact ⟨Or.inl ⟨hid, he⟩, rfl⟩
      · exact ⟨Or.inr ⟨⟨hid, trivial⟩, he⟩, rfl⟩
    · rintro ⟨⟨hid, he⟩ | ⟨⟨hid, -⟩, he⟩, rfl⟩
      · exact Or.inl ⟨hid, he, rfl⟩
      · exact Or.inr ⟨hid, he, rfl⟩
  | some s => simp [and_assoc]

theorem editState_eq_error {change : State.Edit} : editState id change a = .error e b ↔
    ∃ s, a.state? id = some s ∧ s.edit change = .error e ∧ a = b := by
  unfold editState
  cases a.state? id with
  | none => simp
  | some s =>
    cases hs : s.edit change with
    | ok t => simp [hs]
    | error err => simp [hs]

/-! ### Edits in several steps -/

/-- The state to be marked was just added, so marking it does not fail. -/
theorem addFinalState_eq_error {token : String} (ha : a.WellFormed) :
    addFinalState label token a = .error e b ↔
      label ∈ a.labels ∧ .duplicateLabel label = e ∧ a = b := by
  have hmark : ∀ id c, addState label a = .ok id c →
      ¬ (setMarker id (some token) >>= fun _ => pure id) c = .error e b := by
    intro id c hadd hfail
    obtain ⟨-, -, hids, -⟩ := addState_effect ha hadd
    have hid : id ∈ c.ids := by simp [hids]
    rcases Change.bind_eq_error.1 hfail with hmark | ⟨u, d, -, hpure⟩
    · exact (setMarker_eq_error.1 hmark).1 hid
    · cases hpure
  unfold addFinalState
  rw [Change.bind_eq_error, addState_eq_error ha]
  constructor
  · rintro (h | ⟨id, c, hadd, hfail⟩)
    · exact h
    · exact absurd hfail (hmark id c hadd)
  · exact Or.inl

/-- Joining fails before the first copy is made, or not at all. -/
theorem concat_eq_error (ha : a.WellFormed) (ho : other.WellFormed) :
    concat other a = .error e b ↔ a.initial.label ≠ other.initial.label ∧
      .mismatchedRoots a.initial.label other.initial.label = e ∧ a = b := by
  by_cases hl : a.initial.label = other.initial.label
  · obtain ⟨c, hrun, -⟩ := concat_joined ha ho hl
    simp [hrun, hl]
  · rw [concat_of_ne hl, EStateM.Result.error.injEq]
    simp [hl]

/-! ### Operations -/

/-- An operation fails just if it is refused, and then changes nothing. -/
theorem Operation.edit_eq_error (ha : a.WellFormed) (hop : op.Allowed) :
    op.edit a = .error e b ↔ op.Refused a e ∧ a = b := by
  cases op with
  | addState label =>
    rw [edit, Change.discard_eq_error, addState_eq_error ha]
    constructor
    · rintro ⟨hl, rfl, rfl⟩
      exact ⟨.addState hl, rfl⟩
    · rintro ⟨hrefused, rfl⟩
      cases hrefused with
      | addState hl => exact ⟨hl, rfl, rfl⟩
  | addFinalState label token =>
    rw [edit, Change.discard_eq_error, addFinalState_eq_error ha]
    constructor
    · rintro ⟨hl, rfl, rfl⟩
      exact ⟨.addFinalState hl, rfl⟩
    · rintro ⟨hrefused, rfl⟩
      cases hrefused with
      | addFinalState hl => exact ⟨hl, rfl, rfl⟩
  | addTransition source x target =>
    rw [edit, addTransition_eq_error]
    constructor
    · rintro ⟨⟨ht, rfl⟩ | ⟨ht, hs, rfl⟩, rfl⟩
      · exact ⟨.target ht, rfl⟩
      · exact ⟨.source ht hs, rfl⟩
    · rintro ⟨hrefused, rfl⟩
      cases hrefused with
      | target ht => exact ⟨Or.inl ⟨ht, rfl⟩, rfl⟩
      | source ht hs => exact ⟨Or.inr ⟨ht, hs, rfl⟩, rfl⟩
  | setMarker id marker =>
    rw [edit, setMarker_eq_error]
    constructor
    · rintro ⟨hid, rfl, rfl⟩
      exact ⟨.setMarker hid, rfl⟩
    · rintro ⟨hrefused, rfl⟩
      cases hrefused with
      | setMarker hid => exact ⟨hid, rfl, rfl⟩
  | forgetState id =>
    rw [edit, Change.discard_eq_error, forgetState_eq_error]
    constructor
    · rintro ⟨⟨rfl, rfl⟩ | ⟨hid, rfl⟩, rfl⟩
      · exact ⟨.forgetInitial, rfl⟩
      · exact ⟨.forgetUnknown hid, rfl⟩
    · rintro ⟨hrefused, rfl⟩
      cases hrefused with
      | forgetInitial => exact ⟨Or.inl ⟨rfl, rfl⟩, rfl⟩
      | forgetUnknown hid => exact ⟨Or.inr ⟨hid, rfl⟩, rfl⟩
  | concat other =>
    rw [edit, concat_eq_error ha hop.wellFormed]
    constructor
    · rintro ⟨hl, rfl, rfl⟩
      exact ⟨.concat hl, rfl⟩
    · rintro ⟨hrefused, rfl⟩
      cases hrefused with
      | concat hl => exact ⟨hl, rfl, rfl⟩
  | editState id change =>
    rw [edit, Change.discard_eq_error, editState_eq_error]
    constructor
    · rintro ⟨s, hs, hedit, rfl⟩
      obtain ⟨x, target, rfl, hx, rfl⟩ := State.edit_eq_error.1 hedit
      exact ⟨.addDeterministicMove hs hx, rfl⟩
    · rintro ⟨hrefused, rfl⟩
      cases hrefused with
      | addDeterministicMove hs hx =>
        exact ⟨_, hs, State.edit_eq_error.2 ⟨_, _, rfl, hx, rfl⟩, rfl⟩
  -- removing states always succeeds
  | removeDead | removeUnreachable | prune =>
    constructor
    · intro h
      cases h
    · rintro ⟨h, -⟩
      cases h

end Automaton
end TokenAutomata
