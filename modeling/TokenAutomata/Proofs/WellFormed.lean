/-
# Well-formed automata

What holds of every automaton that edits can make, whatever its labels,
markers and moves are: the initial state has id 0, ids and labels are not
used twice, no id has been handed out that `nextId` could hand out again, and
in every state the moves are well-formed and the marker is not the empty
text. Moves to missing states are allowed.

Each edit keeps this, and also when it fails (`Change.Keeps`).

Key definitions: `State.WellFormed`, `Automaton.WellFormed`.
Key theorems: `State.WellFormed.edit`, `Automaton.state?_eq_some_iff`,
`Automaton.keeps_insert`, `Automaton.keeps_forgetState`,
`Automaton.keeps_concat`, `Automaton.keeps_editState`.
-/
import TokenAutomata.Automaton.Concat
import TokenAutomata.Automaton.Reach
import TokenAutomata.Proofs.EditSteps
import TokenAutomata.Proofs.MovesAsMap

namespace TokenAutomata

/-! ### States -/

namespace State

structure WellFormed (s : State) : Prop where
  moves : s.moves.WellFormed
  marker : s.marker ≠ some ""

namespace WellFormed

variable {s t : State}

theorem new (id : Nat) (label : String) : (State.new id label).WellFormed :=
  ⟨.empty, by simp [State.new]⟩

theorem setMarker (hs : s.WellFormed) (marker : Option String) : (s.setMarker marker).WellFormed := by
  refine ⟨hs.moves, fun h => ?_⟩
  obtain ⟨-, hne⟩ := Option.filter_eq_some_iff.1 h
  simp at hne

/-- The marker can be set again as it is. -/
theorem filter_marker (hs : s.WellFormed) : s.marker.filter (· ≠ "") = s.marker := by
  cases hm : s.marker with
  | none => rfl
  | some token =>
    have hne : token ≠ "" := fun he => hs.marker (he ▸ hm)
    simp [Option.filter, hne]

theorem mergeMarker (hs : s.WellFormed) (ht : t.WellFormed) : (s.mergeMarker t).WellFormed := by
  refine ⟨hs.moves, fun h => ?_⟩
  have hst : s.marker = some "" ∨ t.marker = some "" := by
    unfold State.mergeMarker at h
    cases hm : s.marker with
    | none => exact Or.inr (by simpa [hm] using h)
    | some token => exact Or.inl (by simpa [hm] using h)
  rcases hst with h | h
  · exact hs.marker h
  · exact ht.marker h

theorem addMove (hs : s.WellFormed) (c : Symbol) (target : Nat) : (s.addMove c target).WellFormed :=
  ⟨hs.moves.insert c target, hs.marker⟩

theorem setMoves (hs : s.WellFormed) (c : Symbol) (ids : IdSet) : (s.setMoves c ids).WellFormed :=
  ⟨hs.moves.assign c ids, hs.marker⟩

theorem forget (hs : s.WellFormed) (id : Nat) : (s.forget id).WellFormed :=
  ⟨hs.moves.forget id, hs.marker⟩

theorem mergeMoves (hs : s.WellFormed) (ht : t.WellFormed) : (s.mergeMoves t).WellFormed :=
  ⟨hs.moves.union ht.moves, hs.marker⟩

theorem rename (hs : s.WellFormed) (f : Nat → Nat) : (s.rename f).WellFormed :=
  ⟨hs.moves.rename f, hs.marker⟩

theorem relabel (hs : s.WellFormed) (label : String) : ({ s with label } : State).WellFormed :=
  ⟨hs.moves, hs.marker⟩

/-- An edit keeps a state well-formed if the state it merges in is so. -/
theorem edit {e : Edit} (hs : s.WellFormed) (ho : ∀ o, e = .mergeMarker o ∨ e = .mergeMoves o →
    o.WellFormed) (h : s.edit e = .ok t) : t.WellFormed := by
  cases e with
  | addMove c target =>
    cases h
    exact hs.addMove c target
  | addDeterministicMove c target =>
    simp only [State.edit, addDeterministicMove] at h
    split at h
    · cases h
    · cases h
      exact hs.addMove c target
  | setMoves c ids =>
    cases h
    exact hs.setMoves c ids
  | setMarker marker =>
    cases h
    exact hs.setMarker marker
  | forget id =>
    cases h
    exact hs.forget id
  | mergeMarker o =>
    cases h
    exact hs.mergeMarker (ho o (Or.inl rfl))
  | mergeMoves o =>
    cases h
    exact hs.mergeMoves (ho o (Or.inr rfl))

theorem foldl_forget : ∀ {ids : List Nat} {s : State}, s.WellFormed →
    (ids.foldl State.forget s).WellFormed
  | [], _, hs => hs
  | id :: ids, _, hs => @foldl_forget ids _ (hs.forget id)

end WellFormed

@[simp] theorem id_foldl_forget : ∀ (ids : List Nat) (s : State), (ids.foldl forget s).id = s.id
  | [], _ => rfl
  | id :: ids, s => id_foldl_forget ids (s.forget id)

@[simp] theorem label_foldl_forget : ∀ (ids : List Nat) (s : State),
    (ids.foldl forget s).label = s.label
  | [], _ => rfl
  | id :: ids, s => label_foldl_forget ids (s.forget id)

@[simp] theorem marker_foldl_forget : ∀ (ids : List Nat) (s : State),
    (ids.foldl forget s).marker = s.marker
  | [], _ => rfl
  | id :: ids, s => marker_foldl_forget ids (s.forget id)

theorem mem_dests_foldl_forget {c : Symbol} {x : Nat} : ∀ {ids : List Nat} {s : State},
    s.WellFormed → (x ∈ (ids.foldl forget s).moves.dests c ↔ x ∈ s.moves.dests c ∧ x ∉ ids)
  | [], s, _ => by simp
  | id :: ids, s, hs => by
    rw [List.foldl_cons, mem_dests_foldl_forget (hs.forget id), List.mem_cons, not_or]
    show x ∈ (s.moves.forget id).dests c ∧ x ∉ ids ↔ _
    rw [Moves.mem_dests_forget hs.moves, and_assoc]

end State

namespace Automaton

structure WellFormed (a : Automaton) : Prop where
  initial_id : a.initial.id = 0
  nodup_ids : a.ids.Nodup
  nodup_labels : a.labels.Nodup
  lt_nextId : ∀ id ∈ a.ids, id < a.nextId
  states : ∀ s ∈ a.states, s.WellFormed

variable {a b : Automaton}

/-- Nothing is kept besides the states and the counter. -/
theorem eq_of_states (h : a.states = b.states) (hnext : a.nextId = b.nextId) : a = b := by
  obtain ⟨hinitial, hothers⟩ := List.cons.inj h
  cases a
  cases b
  simp_all

/-! ### Finding states -/

theorem mem_states_of_state? {id : Nat} {s : State} (h : a.state? id = some s) : s ∈ a.states :=
  List.mem_of_find?_eq_some h

theorem id_of_state? {id : Nat} {s : State} (h : a.state? id = some s) : s.id = id := by
  simpa using List.find?_some h

@[simp] theorem state?_initial (a : Automaton) : a.state? a.initial.id = some a.initial := by
  simp [state?, states]

theorem mem_ids_iff {id : Nat} : id ∈ a.ids ↔ ∃ s, a.state? id = some s := by
  constructor
  · intro h
    obtain ⟨s, hs, he⟩ := List.mem_map.1 h
    have hsome : (a.states.find? (·.id == id)).isSome := by
      rw [List.find?_isSome]
      exact ⟨s, hs, by simpa using he⟩
    exact Option.isSome_iff_exists.1 hsome
  · rintro ⟨s, hs⟩
    exact List.mem_map.2 ⟨s, mem_states_of_state? hs, id_of_state? hs⟩

theorem initial_mem_ids (a : Automaton) : a.initial.id ∈ a.ids :=
  mem_ids_iff.2 ⟨a.initial, state?_initial a⟩

theorem state?_eq_none_iff {id : Nat} : a.state? id = none ↔ id ∉ a.ids := by
  rw [mem_ids_iff]
  cases a.state? id <;> simp

/-- States are found under their own ids. -/
theorem state?_eq_some_iff (h : a.ids.Nodup) {id : Nat} {s : State} :
    a.state? id = some s ↔ s ∈ a.states ∧ s.id = id := by
  constructor
  · intro hs
    exact ⟨mem_states_of_state? hs, id_of_state? hs⟩
  · rintro ⟨hs, rfl⟩
    obtain ⟨t, ht⟩ := mem_ids_iff.1 (List.mem_map_of_mem hs)
    have hid := id_of_state? ht
    rw [ht, List.inj_on_of_nodup_map h (mem_states_of_state? ht) hs hid]

/-- A label tells the id of the state that has it. -/
theorem idOf?_eq_some_iff (ha : a.labels.Nodup) {label : String} {id : Nat} :
    a.idOf? label = some id ↔ ∃ s ∈ a.states, s.label = label ∧ s.id = id := by
  unfold idOf? byLabel?
  rw [Option.map_eq_some_iff]
  constructor
  · rintro ⟨s, hs, hid⟩
    have hlabel : s.label = label := by simpa using List.find?_some hs
    exact ⟨s, List.mem_of_find?_eq_some hs, hlabel, hid⟩
  · rintro ⟨s, hs, rfl, rfl⟩
    have hsome : (a.states.find? (·.label == s.label)).isSome := by
      rw [List.find?_isSome]
      exact ⟨s, hs, by simp⟩
    obtain ⟨t, ht⟩ := Option.isSome_iff_exists.1 hsome
    have hlabel : t.label = s.label := by simpa using List.find?_some ht
    have hsame : t = s := List.inj_on_of_nodup_map ha (List.mem_of_find?_eq_some ht) hs hlabel
    exact ⟨t, ht, by rw [hsame]⟩

theorem ids_cons (a : Automaton) : a.ids = a.initial.id :: a.others.map (·.id) := rfl

theorem labels_cons (a : Automaton) :
    a.labels = a.initial.label :: a.others.map (·.label) := rfl

/-! ### What keeps an automaton well-formed -/

theorem withInitial_wellFormed (label : String) : (withInitial label).WellFormed where
  initial_id := rfl
  nodup_ids := List.nodup_singleton _
  nodup_labels := List.nodup_singleton _
  lt_nextId := fun id hid => by
    rw [List.mem_singleton.1 hid]
    exact Nat.zero_lt_one
  states := fun s hs => by
    rw [List.mem_singleton.1 hs]
    exact .new 0 label

namespace WellFormed

/-- Changing states without changing their ids and labels. -/
theorem mapStates (ha : a.WellFormed) {f : State → State} (hid : ∀ s ∈ a.states, (f s).id = s.id)
    (hlabel : ∀ s ∈ a.states, (f s).label = s.label)
    (hwf : ∀ s ∈ a.states, (f s).WellFormed) :
    ({ a with initial := f a.initial, others := a.others.map f } : Automaton).WellFormed := by
  have hids : (a.states.map f).map (·.id) = a.ids := by
    rw [List.map_map]
    exact List.map_congr_left hid
  have hlabels : (a.states.map f).map (·.label) = a.labels := by
    rw [List.map_map]
    exact List.map_congr_left hlabel
  refine ⟨?_, ?_, ?_, ?_, ?_⟩
  · exact (hid a.initial List.mem_cons_self).trans ha.initial_id
  · show ((a.states.map f).map (·.id)).Nodup
    rw [hids]
    exact ha.nodup_ids
  · show ((a.states.map f).map (·.label)).Nodup
    rw [hlabels]
    exact ha.nodup_labels
  · show ∀ id ∈ (a.states.map f).map (·.id), id < a.nextId
    rw [hids]
    exact ha.lt_nextId
  · intro s hs
    obtain ⟨t, ht, rfl⟩ := List.mem_map.1 (show s ∈ a.states.map f from hs)
    exact hwf t ht

/-- Leaving out states other than the initial one. -/
theorem sublist (ha : a.WellFormed) {others : List State} (h : others.Sublist a.others) :
    ({ a with others } : Automaton).WellFormed := by
  have hs : (a.initial :: others).Sublist a.states := h.cons_cons a.initial
  refine ⟨ha.initial_id, ?_, ?_, ?_, ?_⟩
  · exact ha.nodup_ids.sublist (hs.map _)
  · exact ha.nodup_labels.sublist (hs.map _)
  · exact fun id hid => ha.lt_nextId id ((hs.map _).subset hid)
  · exact fun s hm => ha.states s (hs.subset hm)

/-- Putting a state at the end, under an id and a label that are free. -/
theorem append (ha : a.WellFormed) {s : State} (hs : s.WellFormed) (hid : s.id ∉ a.ids)
    (hlabel : s.label ∉ a.labels) : ({ a with
      others := a.others ++ [s], nextId := max a.nextId (s.id + 1) } : Automaton).WellFormed := by
  have hids : ∀ x, x ∈ (a.states ++ [s]).map (·.id) ↔ x ∈ a.ids ∨ x = s.id := by
    simp [ids, eq_comm]
  refine ⟨ha.initial_id, ?_, ?_, ?_, ?_⟩
  · show ((a.states ++ [s]).map (·.id)).Nodup
    rw [List.map_append, List.nodup_append]
    refine ⟨ha.nodup_ids, List.nodup_singleton _, fun x hx y hy hxy => ?_⟩
    rw [hxy, List.mem_singleton.1 hy] at hx
    exact hid hx
  · show ((a.states ++ [s]).map (·.label)).Nodup
    rw [List.map_append, List.nodup_append]
    refine ⟨ha.nodup_labels, List.nodup_singleton _, fun x hx y hy hxy => ?_⟩
    rw [hxy, List.mem_singleton.1 hy] at hx
    exact hlabel hx
  · intro x hx
    rcases (hids x).1 hx with hx | rfl
    · exact Nat.lt_of_lt_of_le (ha.lt_nextId x hx) (Nat.le_max_left _ _)
    · exact Nat.lt_of_lt_of_le (Nat.lt_succ_self _) (Nat.le_max_right _ _)
  · intro t ht
    rcases List.mem_append.1 (show t ∈ a.states ++ [s] from ht) with ht | ht
    · exact ha.states t ht
    · rw [List.mem_singleton.1 ht]
      exact hs

/-- Another state of the same id and a free label in the initial place. -/
theorem setInitial (ha : a.WellFormed) {s : State} (hs : s.WellFormed) (hid : s.id = a.initial.id)
    (hlabel : s.label = a.initial.label ∨ s.label ∉ a.labels) :
    ({ a with initial := s } : Automaton).WellFormed := by
  refine ⟨hid.trans ha.initial_id, ?_, ?_, ?_, ?_⟩
  · show (s.id :: a.others.map (·.id)).Nodup
    rw [hid]
    exact ha.nodup_ids
  · show (s.label :: a.others.map (·.label)).Nodup
    rcases hlabel with h | h
    · rw [h]
      exact ha.nodup_labels
    · rw [labels_cons, List.mem_cons, not_or] at h
      exact List.nodup_cons.2 ⟨h.2, (List.nodup_cons.1 ha.nodup_labels).2⟩
  · show ∀ id ∈ s.id :: a.others.map (·.id), id < a.nextId
    rw [hid]
    exact ha.lt_nextId
  · intro t ht
    rcases List.mem_cons.1 ht with rfl | ht
    · exact hs
    · exact ha.states t (List.mem_cons_of_mem _ ht)

theorem update (ha : a.WellFormed) {id : Nat} {f : State → State}
    (hf : ∀ s, a.state? id = some s → (f s).id = s.id ∧ (f s).label = s.label ∧ (f s).WellFormed) :
    (a.update id f).WellFormed := by
  have hs : ∀ s ∈ a.states, s.id = id → a.state? id = some s :=
    fun s hm hid => (state?_eq_some_iff ha.nodup_ids).2 ⟨hm, hid⟩
  refine ha.mapStates (f := fun s => if s.id = id then f s else s)
    (fun s hm => ?_) (fun s hm => ?_) (fun s hm => ?_)
  · split
    · exact (hf s (hs s hm ‹_›)).1
    · rfl
  · split
    · exact (hf s (hs s hm ‹_›)).2.1
    · rfl
  · split
    · exact (hf s (hs s hm ‹_›)).2.2
    · exact ha.states s hm

theorem forgetAll (ha : a.WellFormed) (ids : List Nat) : (a.forgetAll ids).WellFormed :=
  (ha.sublist List.filter_sublist).mapStates (fun s _ => State.id_foldl_forget ids s)
    (fun s _ => State.label_foldl_forget ids s) fun s hs => by
      refine State.WellFormed.foldl_forget (ha.states s ?_)
      rcases List.mem_cons.1 hs with rfl | hs
      · exact List.mem_cons_self
      · exact List.mem_cons_of_mem _ (List.mem_filter.1 hs).1

end WellFormed

/-! ### Edits -/

open Change (Keeps)

theorem keeps_insert {s : State} (hs : s.WellFormed) : Keeps WellFormed (insert s) := by
  refine .of_atomic (insert_atomic s) fun a id b ha h => ?_
  obtain ⟨hl, hid, -, rfl⟩ := insert_eq_ok.1 h
  exact ha.append hs hid hl

theorem keeps_adopt {s : State} (hs : s.WellFormed) : Keeps WellFormed (adopt s) :=
  fun a ha => keeps_insert (hs.relabel _) a ha

theorem keeps_addState (label : String) : Keeps WellFormed (addState label) :=
  fun a ha => keeps_insert (.new a.nextId label) a ha

theorem keeps_setMarker (id : Nat) (marker : Option String) : Keeps WellFormed (setMarker id marker) := by
  refine .of_atomic (setMarker_atomic id marker) fun a u b ha h => ?_
  obtain ⟨-, rfl⟩ := setMarker_eq_ok.1 h
  exact ha.update fun s hs => ⟨rfl, rfl, (ha.states s (mem_states_of_state? hs)).setMarker marker⟩

theorem keeps_addFinalState (label token : String) : Keeps WellFormed (addFinalState label token) :=
  (keeps_addState label).bind fun id => (keeps_setMarker id _).bind fun _ => .pure id

theorem keeps_addTransition (source : Nat) (c : Symbol) (target : Nat) :
    Keeps WellFormed (addTransition source c target) := by
  refine .of_atomic (addTransition_atomic source c target) fun a u b ha h => ?_
  obtain ⟨-, -, rfl⟩ := addTransition_eq_ok.1 h
  exact ha.update fun s hs => ⟨rfl, rfl, (ha.states s (mem_states_of_state? hs)).addMove c target⟩

theorem keeps_forgetState (id : Nat) : Keeps WellFormed (forgetState id) := by
  refine .of_atomic (forgetState_atomic id) fun a s b ha h => ?_
  obtain ⟨-, -, rfl⟩ := forgetState_eq_ok.1 h
  exact ha.forgetAll [id]

theorem keeps_replaceInitial {s : State} (hs : s.WellFormed) : Keeps WellFormed (replaceInitial s) := by
  refine .of_atomic (replaceInitial_atomic s) fun a u b ha h => ?_
  obtain ⟨hid, hl, rfl⟩ := replaceInitial_eq_ok.1 h
  exact ha.setInitial hs hid hl

theorem keeps_mergeInitial {s : State} (hs : s.WellFormed) : Keeps WellFormed (mergeInitial s) :=
  fun _ ha => ha.setInitial (((ha.states _ List.mem_cons_self).mergeMarker hs).mergeMoves hs) rfl (Or.inl rfl)

/-- Joining keeps what adopting the states and merging the initial ones keep. -/
theorem keeps_concat_of {P : Automaton → Prop} {other : Automaton}
    (hadopt : ∀ s ∈ other.others, ∀ f, Keeps P (adopt (s.rename f)))
    (hmerge : ∀ f, Keeps P (mergeInitial (other.initial.rename f))) : Keeps P (concat other) := by
  refine .bind .get fun a => ?_
  have hjoin : Keeps P (other.others.forM (fun s => discard (adopt (s.rename (a.joinedId other))))
      >>= fun _ => mergeInitial (other.initial.rename (a.joinedId other))) :=
    .bind (.forM fun s hs => (hadopt s hs _).discard) fun _ => hmerge _
  dsimp only
  split
  · exact .bind (.throw _) fun _ => hjoin
  · exact hjoin

theorem keeps_concat {other : Automaton} (ho : other.WellFormed) : Keeps WellFormed (concat other) :=
  keeps_concat_of (fun s hs f => keeps_adopt ((ho.states s (List.mem_cons_of_mem _ hs)).rename f))
    fun f => keeps_mergeInitial ((ho.states _ List.mem_cons_self).rename f)

theorem keeps_removeDead : Keeps WellFormed removeDead := fun _ ha => ha.forgetAll _

theorem keeps_removeUnreachable : Keeps WellFormed removeUnreachable := fun _ ha => ha.forgetAll _

theorem keeps_prune : Keeps WellFormed prune :=
  keeps_removeDead.bind fun _ => keeps_removeUnreachable.bind fun _ => .pure _

/-- States edited in place keep their ids and labels. -/
theorem keeps_editState (id : Nat) {e : State.Edit} (he : ∀ o, e = .mergeMarker o ∨ e = .mergeMoves o →
    o.WellFormed) : Keeps WellFormed (editState id e) := by
  intro a ha
  rcases editState_after a id e with hsame | ⟨s, t, hs, ht, hafter⟩
  · rw [hsame]
    exact ha
  · rw [hafter]
    refine ha.update fun s' hs' => ?_
    obtain rfl : s = s' := Option.some.inj (hs.symm.trans hs')
    exact ⟨State.id_edit ht, State.label_edit ht, (ha.states s (mem_states_of_state? hs)).edit he ht⟩

end Automaton
end TokenAutomata
