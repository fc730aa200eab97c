/-
# Runs of changes to a registry

A caller gets a registry from nothing, from a text, from rules, from the lines
of a definition file or from a stored table (`Registry.Made`), and changes it by
one operation after the other, of which some may fail, or determinizes it
(`Registry.Built`). Whatever comes about in this way is sound, and shows an
automaton that comes about in the same way (`Registry.Built.sound`,
`Registry.Built.view`). So no operation lets the states, the index, the initial
id and the counter fall apart, and what holds of the automata built holds of the
registries (`Registry.stays_consistent`).

An operation that fails was refused for a cause that the registry shows, and
leaves all four fields as they were (`Registry.failed_operation`).

Key definitions: `Registry.Operation`, `Registry.afterAll`, `Registry.Made`,
`Registry.Built`, `Registry.Sealed`, `Registry.Consistent`.
Key theorems: `Registry.Operation.mirrors`, `Registry.Built.sound`,
`Registry.Built.view`, `Registry.Operation.eq_of_error`,
`Registry.failed_operation`, `Registry.stays_consistent`.
-/
import TokenAutomata.Proofs.FailedOperations
import TokenAutomata.Proofs.RegistryBuilding
import TokenAutomata.Proofs.RegistrySubsets
import TokenAutomata.Proofs.SealedAutomata

namespace TokenAutomata
namespace Registry

/-- A change in place that a caller can make. -/
inductive Operation where
  | addState (label : String)
  | addFinalState (label token : String)
  | addTransition (source : Nat) (x : Symbol) (target : Nat)
  | setMarker (id : Nat) (marker : Option String)
  | forgetState (id : Nat)
  | concat (other : Registry)
  | removeDead
  | removeUnreachable
  | prune
  | editState (id : Nat) (e : State.Edit)

namespace Operation

/-- The change; what it returns plays no part. -/
def change : Operation → Change Registry Unit
  | .addState label => discard (Registry.addState label)
  | .addFinalState label token => discard (Registry.addFinalState label token)
  | .addTransition source x target => Registry.addTransition source x target
  | .setMarker id marker => Registry.setMarker id marker
  | .forgetState id => discard (Registry.forgetState id)
  | .concat other => Registry.concat other
  | .removeDead => discard Registry.removeDead
  | .removeUnreachable => discard Registry.removeUnreachable
  | .prune => discard Registry.prune
  | .editState id e => discard (Registry.editState id e)

/-- The operation on what registries show. -/
def view : Operation → Automaton.Operation
  | .addState label => .addState label
  | .addFinalState label token => .addFinalState label token
  | .addTransition source x target => .addTransition source x target
  | .setMarker id marker => .setMarker id marker
  | .forgetState id => .forgetState id
  | .concat other => .concat other.view
  | .removeDead => .removeDead
  | .removeUnreachable => .removeUnreachable
  | .prune => .prune
  | .editState id e => .editState id e

end Operation

/-- The registry after some operations, of which some may have failed. -/
def afterAll (r : Registry) (ops : List Operation) : Registry := ops.foldl (fun r op => op.change.after r) r

/-- Made in one go, from nothing, a text, rules, lines or a file. -/
inductive Made : Registry → Prop
  | withInitial (label : String) : Made (.withInitial label)
  | ofLiteral {token : String} {literal : List Symbol} {r : Registry} :
      Automaton.ofLiteral token literal = .ok r → Made r
  | ofWord {word : List Symbol} {r : Registry} : Automaton.ofWord word = .ok r → Made r
  | ofRules {rules : List Rule} {r : Registry} : Automaton.ofRules rules = .ok r → Made r
  | ofRuleLines {lines : List (List Char)} {r : Registry} : Automaton.ofRuleLines lines = .ok r → Made r
  | ofLines {lines : List (List Char)} {r : Registry} : Automaton.ofLines lines = .ok r → Made r
  | load {file : Json.Bytes} {r : Registry} : Automaton.load file = .ok r → Made r

/-- A registry that a caller can get. What is joined to it, or merged into one
of its states, was built too. -/
inductive Built : Registry → Prop
  | made {r : Registry} : Made r → Built r
  | determinize {r d : Registry} : Built r → r.determinize = .ok d → Built d
  | operate {r : Registry} {op : Operation} : Built r → (∀ other, op = .concat other → Built other) →
      (∀ id e, op = .editState id e → ∀ o, e = .mergeMarker o ∨ e = .mergeMoves o → o.Built) →
      Built (op.change.after r)

/-- What a caller can get without editing states in place. -/
inductive Sealed : Registry → Prop
  | made {r : Registry} : Made r → Sealed r
  | determinize {r d : Registry} : Sealed r → r.determinize = .ok d → Sealed d
  | operate {r : Registry} {op : Operation} : Sealed r → (∀ id e, op ≠ .editState id e) →
      (∀ other, op = .concat other → Sealed other) → Sealed (op.change.after r)

/-- What is joined or merged in was built. -/
def Operation.Allowed : Operation → Prop
  | .concat other => other.Built
  | .editState _ e => ∀ o, e = .mergeMarker o ∨ e = .mergeMoves o → o.Built
  | _ => True

variable {r s : Registry} {op : Operation} {ops : List Operation}

theorem Built.operate_allowed (hr : r.Built) (hop : op.Allowed) : (op.change.after r).Built := by
  refine hr.operate (fun other he => ?_) fun id e he => ?_
  · subst he
    exact hop
  · subst he
    exact hop

theorem Built.afterAll (hr : r.Built) (hops : ∀ op ∈ ops, op.Allowed) : (r.afterAll ops).Built := by
  induction ops generalizing r with
  | nil => exact hr
  | cons op ops ih =>
    have hrest : ∀ op' ∈ ops, op'.Allowed := fun op' hop' => hops op' (List.mem_cons_of_mem op hop')
    exact ih (hr.operate_allowed (hops op List.mem_cons_self)) hrest

/-! ### What is shown -/

/-- An operation shows the operation on what the registry shows, if what is
joined is sound and what is merged in well-formed. -/
theorem Operation.mirrors (hconcat : ∀ other, op = .concat other → other.Sound)
    (hedit : ∀ id e, op = .editState id e → ∀ o, e = .mergeMarker o ∨ e = .mergeMoves o → o.Built) :
    Mirrors op.change op.view.edit := by
  cases op with
  | addState label => exact (mirrors_addState label).discard
  | addFinalState label token => exact (mirrors_addFinalState label token).discard
  | addTransition source x target => exact mirrors_addTransition source x target
  | setMarker id marker => exact mirrors_setMarker id marker
  | forgetState id => exact (mirrors_forgetState id).discard
  | concat other => exact mirrors_concat (hconcat other rfl)
  | removeDead => exact mirrors_removeDead.discard
  | removeUnreachable => exact mirrors_removeUnreachable.discard
  | prune => exact mirrors_prune.discard
  | editState id e => exact (mirrors_editState id fun o ho => (hedit id e rfl o ho).wellFormed).discard

theorem Made.view (h : r.Made) : r.Sound ∧ r.view.Made := by
  cases h with
  | withInitial label => exact ⟨withInitial_sound label, .withInitial label⟩
  | ofLiteral h =>
    obtain ⟨hs, hv⟩ := (ofLiteral_agrees _ _).of_ok h
    exact ⟨hs, .ofLiteral hv⟩
  | ofWord h =>
    obtain ⟨hs, hv⟩ := (ofWord_agrees _).of_ok h
    exact ⟨hs, .ofWord hv⟩
  | ofRules h =>
    obtain ⟨hs, hv⟩ := (ofRules_agrees _).of_ok h
    exact ⟨hs, .ofRules hv⟩
  | ofRuleLines h =>
    obtain ⟨hs, hv⟩ := (ofRuleLines_agrees _).of_ok h
    exact ⟨hs, .ofRuleLines hv⟩
  | ofLines h =>
    obtain ⟨hs, hv⟩ := (ofLines_agrees _).of_ok h
    exact ⟨hs, .ofLines hv⟩
  | load h =>
    obtain ⟨hs, hv⟩ := (load_agrees _).of_ok h
    exact ⟨hs, .load hv⟩

/-- What is joined and merged in shows what was built. -/
theorem Operation.allowed_view (hconcat : ∀ other, op = .concat other → other.view.Built)
    (hedit : ∀ id e, op = .editState id e → ∀ o, e = .mergeMarker o ∨ e = .mergeMoves o → o.Built) :
    op.view.Allowed := by
  cases op with
  | concat other => exact hconcat other rfl
  | editState id e => exact hedit id e rfl
  | _ => trivial

/-- Whatever is built is sound, and so is what it shows built. -/
theorem Built.shows (h : r.Built) : r.Sound ∧ r.view.Built := by
  induction h with
  | made h => exact ⟨h.view.1, h.view.2.built⟩
  | determinize _ hd ih =>
    obtain ⟨hs, hv⟩ := ih.1.determinize_agrees.of_ok hd
    exact ⟨hs, .determinize ih.2 hv⟩
  | @operate r op _ _ hedit ih iho =>
    have hmirrors := Operation.mirrors (fun other he => (iho other he).1) hedit
    obtain ⟨hs, hv⟩ := hmirrors.after ih.1
    exact ⟨hs, hv ▸ ih.2.operate (Operation.allowed_view (fun other he => (iho other he).2) hedit)⟩

theorem Built.sound (h : r.Built) : r.Sound := h.shows.1

theorem Built.view (h : r.Built) : r.view.Built := h.shows.2

theorem Operation.Allowed.mirrors (hop : op.Allowed) : Mirrors op.change op.view.edit :=
  Operation.mirrors (fun _ he => by subst he; exact hop.sound) fun _ _ he => by subst he; exact hop

theorem Operation.Allowed.view (hop : op.Allowed) : op.view.Allowed :=
  Operation.allowed_view (fun _ he => by subst he; exact Built.view hop) fun _ _ he => by subst he; exact hop

theorem view_afterAll (hr : r.Built) (hops : ∀ op ∈ ops, op.Allowed) :
    (r.afterAll ops).view = r.view.afterAll (ops.map Operation.view) := by
  induction ops generalizing r with
  | nil => rfl
  | cons op ops ih =>
    have hop := hops op List.mem_cons_self
    have hrest : ∀ op' ∈ ops, op'.Allowed := fun op' hop' => hops op' (List.mem_cons_of_mem op hop')
    refine (ih (hr.operate_allowed hop) hrest).trans ?_
    rw [(hop.mirrors.after hr.sound).2]
    rfl

theorem allowed_views (hops : ∀ op ∈ ops, op.Allowed) : ∀ op ∈ ops.map Operation.view, op.Allowed := by
  intro op hop
  obtain ⟨op', hop', rfl⟩ := List.mem_map.1 hop
  exact (hops op' hop').view

/-- What is sealed shows what is sealed. -/
theorem Sealed.view (h : r.Sealed) : r.Sound ∧ r.view.Sealed := by
  induction h with
  | made h => exact ⟨h.view.1, .made h.view.2⟩
  | determinize _ hd ih =>
    obtain ⟨hs, hv⟩ := ih.1.determinize_agrees.of_ok hd
    exact ⟨hs, .determinize ih.2 hv⟩
  | @operate r op _ hedit _ ih iho =>
    have hmirrors := Operation.mirrors (fun other he => (iho other he).1)
      fun id e he => absurd he (hedit id e)
    obtain ⟨hs, hv⟩ := hmirrors.after ih.1
    refine ⟨hs, hv ▸ .operate ih.2 (fun id e he => ?_) fun other he => ?_⟩
    · cases op with
      | editState id e => exact hedit id e rfl
      | _ => cases he
    · cases op with
      | concat other' =>
        cases he
        exact (iho other' rfl).2
      | _ => cases he

/-! ### Operations that fail -/

open Change (eq_of_check_error)

theorem insert_atomic (s : State) : Change.Atomic (insert s) := fun _ _ _ h =>
  eq_of_check_error h fun h => eq_of_check_error h fun h => by cases h

/-- The state to be marked is there, so nothing fails after it was added. -/
theorem addFinalState_atomic (label token : String) : Change.Atomic (addFinalState label token) := by
  intro r e r' h
  rcases Change.bind_eq_error.1 h with h | ⟨id, r'', -, h⟩
  · exact insert_atomic _ r e r' h
  · cases h

theorem addTransition_atomic (source : Nat) (c : Symbol) (target : Nat) :
    Change.Atomic (addTransition source c target) := by
  intro r e r' h
  refine eq_of_check_error h fun h => ?_
  cases hs : r.state? source with
  | none =>
    rw [hs] at h
    cases h
    rfl
  | some s =>
    rw [hs] at h
    cases h

theorem setMarker_atomic (id : Nat) (marker : Option String) : Change.Atomic (setMarker id marker) := by
  intro r e r' h
  unfold setMarker at h
  cases hs : r.state? id with
  | none =>
    rw [hs] at h
    cases h
    rfl
  | some s =>
    rw [hs] at h
    cases h

theorem forgetState_atomic (id : Nat) : Change.Atomic (forgetState id) := by
  intro r e r' h
  refine eq_of_check_error h fun h => ?_
  cases hs : r.state? id with
  | none =>
    rw [hs] at h
    cases h
    rfl
  | some s =>
    rw [hs] at h
    cases h

theorem editState_atomic (id : Nat) (e : State.Edit) : Change.Atomic (editState id e) := by
  intro r err r' h
  unfold editState at h
  cases hs : r.state? id with
  | none =>
    rw [hs] at h
    cases h
  | some s =>
    cases ht : s.edit e with
    | error err' =>
      simp only [hs, ht] at h
      cases h
      rfl
    | ok t =>
      simp only [hs, ht] at h
      cases h

/-- Joining fails before the first copy is made, or not at all. -/
theorem eq_of_concat_error {other : Registry} {e : AutomatonError} (hr : r.Sound) (ho : other.Sound)
    (h : concat other r = .error e s) : s = r := by
  have hview := mirrors_concat ho r hr
  rw [h] at hview
  obtain ⟨hl, -, -⟩ := (Automaton.concat_eq_error hr.view_wellFormed ho.view_wellFormed).1 hview.eq_error
  cases h.symm.trans (concat_of_ne hl)
  rfl

/-- All four fields are what they were. -/
theorem Operation.eq_of_error {e : AutomatonError} (hr : r.Built) (hop : op.Allowed)
    (h : op.change r = .error e s) : s = r := by
  cases op with
  | addState label => exact insert_atomic _ r e s (Change.discard_eq_error.1 h)
  | addFinalState label token => exact addFinalState_atomic label token r e s (Change.discard_eq_error.1 h)
  | addTransition source x target => exact addTransition_atomic source x target r e s h
  | setMarker id marker => exact setMarker_atomic id marker r e s h
  | forgetState id => exact forgetState_atomic id r e s (Change.discard_eq_error.1 h)
  | concat other => exact eq_of_concat_error hr.sound hop.sound h
  | removeDead =>
    have herror := Change.discard_eq_error.1 h
    rw [hr.sound.removeDead_eq] at herror
    cases herror
  | removeUnreachable =>
    have herror := Change.discard_eq_error.1 h
    rw [hr.sound.removeUnreachable_eq] at herror
    cases herror
  | prune =>
    have hview := (mirrors_prune r hr.sound)
    rw [Change.discard_eq_error.1 h] at hview
    cases hview.eq_error
  | editState id change => exact editState_atomic id change r e s (Change.discard_eq_error.1 h)

/-- An operation that fails leaves all four fields as they were, so that a run
goes on as if it had not been asked for, and it fails for a cause that the
registry shows; joining fails on different initial labels only. -/
theorem failed_operation {e : AutomatonError} (hr : r.Built) (hop : op.Allowed) (h : op.change r = .error e s) :
    s = r ∧ op.view.Refused r.view e ∧ (∀ ops, r.afterAll (op :: ops) = r.afterAll ops) ∧
      ∀ other, op = .concat other → e = .mismatchedRoots r.initialState.label other.initialState.label := by
  obtain rfl := Operation.eq_of_error hr hop h
  have hshown := hop.mirrors s hr.sound
  rw [h] at hshown
  have hrefused : op.view.Refused s.view e :=
    ((Automaton.Operation.edit_eq_error hr.view.wellFormed hop.view).1 hshown.eq_error).1
  have hafter : op.change.after s = s := by rw [Change.after_of_error h]
  refine ⟨rfl, hrefused, fun ops => ?_, fun other hother => ?_⟩
  · show (op.change.after s).afterAll ops = s.afterAll ops
    rw [hafter]
  · subst hother
    cases hrefused
    rfl

/-- Two states behind the initial one, with moves. -/
def chained : Registry := new.afterAll [.addFinalState "A" "WORD", .addState "B", .addTransition 0 'a' 1,
  .addTransition 1 'b' 2]

/-- As many states, one of them with a label of `chained`, but another root. -/
def chainedElsewhere : Registry := (withInitial "ROOT").afterAll [.addFinalState "A" "OTHER", .addState "C",
  .addTransition 0 'c' 1, .addTransition 1 'd' 2]

/-- A label that is taken is not given to a second state, and roots with
different labels do not become one. -/
theorem chained_refuses : chained.Built ∧ chainedElsewhere.Built ∧
    (∃ s, (Operation.addFinalState "B" "TOKEN").change chained = .error (.duplicateLabel "B") s ∧ s = chained ∧
      ∀ ops, chained.afterAll (.addFinalState "B" "TOKEN" :: ops) = chained.afterAll ops) ∧
    ∃ e s, (Operation.concat chainedElsewhere).change chained = .error e s ∧ s = chained ∧
      e = .mismatchedRoots "START" "ROOT" ∧
      ∀ ops, chained.afterAll (.concat chainedElsewhere :: ops) = chained.afterAll ops := by
  have hchained : chained.Built :=
    Built.afterAll (.made (.withInitial Automaton.rootLabel)) (by simp [Operation.Allowed])
  have helsewhere : chainedElsewhere.Built :=
    Built.afterAll (.made (.withInitial "ROOT")) (by simp [Operation.Allowed])
  have hallowed : (Operation.addFinalState "B" "TOKEN").Allowed := trivial
  have hallowed' : (Operation.concat chainedElsewhere).Allowed := helsewhere
  have hadd : (Operation.addFinalState "B" "TOKEN").change chained = .error (.duplicateLabel "B") chained := by
    rfl
  have hjoin : (Operation.concat chainedElsewhere).change chained =
      .error (.mismatchedRoots "START" "ROOT") chained := by
    rfl
  obtain ⟨hsame, -, hruns, -⟩ := failed_operation hchained hallowed hadd
  obtain ⟨hsame', -, hruns', hroots⟩ := failed_operation hchained hallowed' hjoin
  exact ⟨hchained, helsewhere, ⟨chained, hadd, hsame, hruns⟩, _, chained, hjoin, hsame', hroots _ rfl, hruns'⟩

/-! ### The four fields -/

/-- The initial id is 0, and its state is there and listed first. Every state is
kept under its own id. The index holds the label of each state with its id and
nothing else. The next id is above all others. No symbol leads nowhere, and no
marker is the empty text. -/
structure Consistent (r : Registry) : Prop where
  initial_eq : r.initial = 0
  initial_found : ∃ s, r.states.get? r.initial = some s
  initial_first : r.states.keys.head? = some r.initial
  keyed : ∀ id s, r.states.get? id = some s → s.id = id
  index : ∀ label id, r.labels.get? label = some id ↔ ∃ s, r.states.get? id = some s ∧ s.label = label
  labels_unique : (r.states.values.map (·.label)).Nodup
  lt_nextId : ∀ id ∈ r.states.keys, id < r.nextId
  targets_nonempty : ∀ s ∈ r.states.values, ∀ e ∈ s.moves.entries, e.2 ≠ ∅
  marker_nonempty : ∀ s ∈ r.states.values, s.marker ≠ some ""

theorem Sound.consistent (h : r.Sound) : r.Consistent where
  initial_eq := h.initial_eq
  initial_found := ⟨_, h.state?_initial⟩
  initial_first := h.first
  keyed := h.keyed
  index := h.index
  labels_unique := h.states_view ▸ h.nodup_labels_view
  lt_nextId := h.lt_nextId
  targets_nonempty s hs := (h.states s hs).moves.nonempty
  marker_nonempty s hs := (h.states s hs).marker

/-- Whatever was built is consistent, and no move leads to a missing state if no
state was edited in place. So it stays whatever operations come after, failed
ones included. They do not lower the counter, and an id that they have forgotten
is not handed out again. -/
theorem stays_consistent (hr : r.Built) : r.Consistent ∧ (r.Sealed → r.validate = .ok ()) ∧
    ∀ ops, (∀ op ∈ ops, op.Allowed) →
      (r.afterAll ops).Built ∧ (r.afterAll ops).Consistent ∧ r.nextId ≤ (r.afterAll ops).nextId ∧
      ∀ more, (∀ op ∈ more, op.Allowed) → ∀ id ∈ r.states.keys, id ∉ (r.afterAll ops).states.keys →
        id ∉ ((r.afterAll ops).afterAll more).states.keys := by
  refine ⟨hr.sound.consistent, fun h => ?_, fun ops hops => ?_⟩
  · rw [← hr.sound.validate_view]
    exact Automaton.validate_eq_ok_iff.2 h.view.2.closed
  have hafter : (r.afterAll ops).Built := hr.afterAll hops
  have hviews := allowed_views hops
  have hnumbers : r.view.NumbersOn (r.afterAll ops).view := by
    rw [view_afterAll hr hops]
    exact Automaton.numbersOn_afterAll hr.view hviews
  refine ⟨hafter, hafter.sound.consistent, hnumbers.nextId_le, fun more hmore id hid hforgotten => ?_⟩
  have hlater := hafter.afterAll hmore
  rw [← hr.sound.ids_view] at hid
  rw [← hafter.sound.ids_view] at hforgotten
  rw [← hlater.sound.ids_view, view_afterAll hafter hmore]
  exact hnumbers.not_mem_ids hr.sound.view_wellFormed
    (Automaton.numbersOn_afterAll hafter.view (allowed_views hmore)) hid hforgotten

/-- A state besides the initial one. -/
def twoStates : Registry := (Operation.addState "A").change.after new

/-- When it is forgotten, the label goes out of the index. The id is free again,
but is not used again; the label is. The first of the later operations fails. -/
theorem twoStates_consistent : twoStates.Consistent ∧ twoStates.validate = .ok () ∧
    (twoStates.afterAll [.forgetState 1]).Consistent ∧
    (twoStates.afterAll [.forgetState 1]).idOf? "A" = none ∧
    1 ∉ ((twoStates.afterAll [.forgetState 1]).afterAll
      [.addState Automaton.rootLabel, .addState "A"]).states.keys ∧
    ((twoStates.afterAll [.forgetState 1]).afterAll [.addState Automaton.rootLabel, .addState "A"]).idOf? "A" =
      some 2 := by
  have hnew : new.Made := .withInitial Automaton.rootLabel
  have hbuilt : twoStates.Built :=
    .operate (.made hnew) (fun _ h => by cases h) fun _ _ h => by cases h
  have hsealed : twoStates.Sealed :=
    .operate (.made hnew) (fun _ _ h => by cases h) fun _ h => by cases h
  obtain ⟨hconsistent, hvalidate, hruns⟩ := stays_consistent hbuilt
  obtain ⟨-, hafter, -, hforgotten⟩ := hruns [.forgetState 1] (by simp [Operation.Allowed])
  refine ⟨hconsistent, hvalidate hsealed, hafter, by decide, ?_, by decide⟩
  exact hforgotten [.addState Automaton.rootLabel, .addState "A"] (by simp [Operation.Allowed]) 1 (by decide)
    (by decide)

end Registry
end TokenAutomata
