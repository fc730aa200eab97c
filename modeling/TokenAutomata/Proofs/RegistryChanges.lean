/-
# Changes of a registry

A change of a sound registry ends as the same edit of the automaton that it
shows does: with the same answer or the same error. Whichever it is, the
registry that is left is sound and shows what the edit left
(`Registry.Mirrors`). That is shown for each single change, and carries over to
changes made of such.

Key definitions: `Registry.Shows`, `Registry.Mirrors`.
Key theorems: `Registry.Sound.insert`, `Registry.Sound.update`,
`Registry.Sound.relabelInitial`, `Registry.Mirrors.bind`,
`Registry.mirrors_insert`, `Registry.mirrors_replaceInitial`,
`Registry.mirrors_addTransition`, `Registry.mirrors_editState`.
-/
import TokenAutomata.Proofs.RegistryView

namespace TokenAutomata

/-- Among the states only the initial one has the initial id. -/
theorem Automaton.WellFormed.update_initial {a : Automaton} (ha : a.WellFormed) (f : State → State) :
    a.update a.initial.id f = { a with initial := f a.initial } := by
  have hothers : a.others.map (fun s => if s.id = a.initial.id then f s else s) = a.others := by
    refine (List.map_congr_left fun s hs => if_neg fun he => ?_).trans (List.map_id _)
    have hroot := (List.nodup_cons.1 (Automaton.ids_cons a ▸ ha.nodup_ids)).1
    exact hroot (he ▸ List.mem_map_of_mem hs)
  simp only [Automaton.update, if_pos trivial, hothers]

namespace Registry

open EStateM (Result)

variable {α β : Type} {r : Registry} {s : State} {id : Nat}

/-! ### Registries that stay sound -/

theorem withInitial_sound (label : String) : (withInitial label).Sound where
  initial_eq := rfl
  first := rfl
  keyed id s hs := by
    rw [withInitial, state?, OrderedMap.get?_insert] at hs
    split at hs
    · cases hs
      exact Eq.symm ‹_›
    · cases hs
  index label' id := by
    simp only [withInitial, state?, idOf?, OrderedMap.get?_insert, OrderedMap.get?_empty]
    by_cases hl : label' = label
    · subst hl
      by_cases hid : id = 0
      · simp [hid, State.new]
      · simp [hid, Ne.symm hid]
    · by_cases hid : id = 0
      · simp [hl, hid, State.new, Ne.symm hl]
      · simp [hl, hid]
  lt_nextId id hid := by
    rw [List.mem_singleton.1 hid]
    exact Nat.zero_lt_one
  states s hs := by
    rw [List.mem_singleton.1 hs]
    exact .new 0 label

namespace Sound

variable (h : r.Sound)

include h

theorem values_mapWithKey (g : Nat → State → State) :
    (r.states.mapWithKey g).values = r.states.values.map fun s => g s.id s := by
  unfold OrderedMap.values OrderedMap.mapWithKey
  rw [List.map_map, List.map_map]
  refine List.map_congr_left fun e he => ?_
  rw [Function.comp_apply, Function.comp_apply, h.keyed e.1 e.2 (OrderedMap.get?_eq_some_iff.2 he)]

/-- Changing states without changing their ids and labels. -/
theorem mapStates {g : Nat → State → State} (hg : ∀ id s, r.state? id = some s →
    (g id s).id = s.id ∧ (g id s).label = s.label ∧ (g id s).WellFormed) :
    ({ r with states := r.states.mapWithKey g } : Registry).Sound := by
  have hstate : ∀ {id t}, (r.states.mapWithKey g).get? id = some t ↔
      ∃ s, r.state? id = some s ∧ g id s = t := by
    intro id t
    rw [OrderedMap.get?_mapWithKey, Option.map_eq_some_iff, state?]
  refine ⟨h.initial_eq, ?_, fun id t ht => ?_, fun label id => ?_, ?_, fun t ht => ?_⟩
  · show (r.states.mapWithKey g).keys.head? = some r.initial
    rw [OrderedMap.keys_mapWithKey]
    exact h.first
  · obtain ⟨s, hs, rfl⟩ := hstate.1 ht
    exact (hg id s hs).1.trans (h.keyed id s hs)
  · refine (h.index label id).trans ⟨?_, ?_⟩
    · rintro ⟨s, hs, hlabel⟩
      exact ⟨g id s, hstate.2 ⟨s, hs, rfl⟩, (hg id s hs).2.1.trans hlabel⟩
    · rintro ⟨t, ht, hlabel⟩
      obtain ⟨s, hs, rfl⟩ := hstate.1 ht
      exact ⟨s, hs, (hg id s hs).2.1.symm.trans hlabel⟩
  · show ∀ id ∈ (r.states.mapWithKey g).keys, id < r.nextId
    rw [OrderedMap.keys_mapWithKey]
    exact h.lt_nextId
  · obtain ⟨id, hid⟩ := OrderedMap.mem_values_iff.1 ht
    obtain ⟨s, hs, rfl⟩ := hstate.1 hid
    exact (hg id s hs).2.2

theorem update {f : State → State} (hf : ∀ s, r.state? id = some s →
    (f s).id = s.id ∧ (f s).label = s.label ∧ (f s).WellFormed) : (r.update id f).Sound := by
  refine h.mapStates fun id' s hs => ?_
  by_cases hid : id' = id
  · subst hid
    rw [if_pos rfl]
    exact hf s hs
  · rw [if_neg hid]
    exact ⟨rfl, rfl, h.states s (OrderedMap.mem_values_iff.2 ⟨id', hs⟩)⟩

theorem view_update {f : State → State} (hf : (r.update id f).Sound) :
    (r.update id f).view = r.view.update id f := by
  refine Automaton.eq_of_states ?_ rfl
  rw [hf.states_view]
  show (r.states.mapWithKey _).values = r.view.states.map fun s => if s.id = id then f s else s
  rw [h.values_mapWithKey, h.states_view]

/-- Putting a state at the end, under an id and a label that are free. -/
theorem insert (hs : s.WellFormed) (hid : s.id ∉ r.states.keys) (hlabel : s.label ∉ r.labels.keys) :
    Sound { r with nextId := max r.nextId (s.id + 1), labels := r.labels.insert s.label s.id,
                   states := r.states.insert s.id s } := by
  have hkeys : (r.states.insert s.id s).keys = r.states.keys ++ [s.id] :=
    OrderedMap.keys_insert_of_not_mem hid
  refine ⟨h.initial_eq, ?_, fun id t ht => ?_, fun label id => ?_, fun id hm => ?_, fun t ht => ?_⟩
  · show (r.states.insert s.id s).keys.head? = some r.initial
    rw [hkeys, List.head?_append, h.first]
    rfl
  · change (r.states.insert s.id s).get? id = some t at ht
    rw [OrderedMap.get?_insert] at ht
    split at ht
    · cases ht
      exact Eq.symm ‹_›
    · exact h.keyed id t ht
  · show (r.labels.insert s.label s.id).get? label = some id ↔
      ∃ t, (r.states.insert s.id s).get? id = some t ∧ t.label = label
    rw [OrderedMap.get?_insert, OrderedMap.get?_insert]
    by_cases he : id = s.id
    · -- the id was free, so no label had it
      subst he
      have hfree : r.labels.get? label ≠ some s.id := fun hl => by
        obtain ⟨t, ht, -⟩ := (h.index label s.id).1 hl
        exact hid (OrderedMap.mem_keys_iff.2 ⟨t, ht⟩)
      by_cases hl : label = s.label
      · simp [hl]
      · simp [hl, hfree, Ne.symm hl]
    · rw [if_neg he]
      by_cases hl : label = s.label
      · -- the label was free, so no state had it
        subst hl
        have hfree : ¬ ∃ t, r.states.get? id = some t ∧ t.label = s.label := fun ht =>
          hlabel (OrderedMap.mem_keys_iff.2 ⟨id, (h.index s.label id).2 ht⟩)
        simp only [if_true, hfree, iff_false, Option.some.injEq]
        exact fun heq => he heq.symm
      · rw [if_neg hl]
        exact h.index label id
  · change id ∈ (r.states.insert s.id s).keys at hm
    show id < max r.nextId (s.id + 1)
    rw [hkeys, List.mem_append, List.mem_singleton] at hm
    rcases hm with hm | rfl
    · exact Nat.lt_of_lt_of_le (h.lt_nextId id hm) (Nat.le_max_left _ _)
    · exact Nat.lt_of_lt_of_le (Nat.lt_succ_self _) (Nat.le_max_right _ _)
  · change t ∈ (r.states.insert s.id s).values at ht
    rw [OrderedMap.values_insert_of_not_mem hid] at ht
    rcases List.mem_append.1 ht with ht | ht
    · exact h.states t ht
    · rw [List.mem_singleton.1 ht]
      exact hs

theorem replaceFirst :
    (r.states.insert r.initial s).values = s :: (r.states.remove r.initial).values := by
  rw [OrderedMap.insert_of_mem h.initial_mem_keys, OrderedMap.modify, h.values_mapWithKey, h.values_eq,
    List.map_cons, if_pos h.initialState_id]
  refine congrArg _ ((List.map_congr_left fun t ht => if_neg fun he => ?_).trans (List.map_id _))
  obtain ⟨id', hid'⟩ := OrderedMap.mem_values_iff.1 ht
  rw [OrderedMap.get?_remove] at hid'
  split at hid'
  · cases hid'
  · exact absurd ((h.keyed id' t hid').symm.trans he) ‹_›

/-- Another state in the initial place, under the label of the one that was
there or under one that is free. -/
theorem relabelInitial (hs : s.WellFormed) (hid : s.id = r.initial) (hlabel : s.label ∉ r.labels.keys) :
    Sound { r with labels := (r.labels.remove r.initialState.label).insert s.label r.initial,
                   states := r.states.insert r.initial s } := by
  have hroot := h.state?_initial
  have hkeys : (r.states.insert r.initial s).keys = r.states.keys := by
    rw [OrderedMap.insert_of_mem h.initial_mem_keys, OrderedMap.keys_modify]
  have hold : ∀ {label id}, r.labels.get? label = some id ↔ ∃ t, r.states.get? id = some t ∧ t.label = label :=
    fun {label id} => h.index label id
  have hfree : ∀ id, r.labels.get? s.label ≠ some id := fun id he =>
    hlabel (OrderedMap.mem_keys_iff.2 ⟨id, he⟩)
  refine ⟨h.initial_eq, ?_, fun id t ht => ?_, fun label id => ?_, ?_, fun t ht => ?_⟩
  · show (r.states.insert r.initial s).keys.head? = some r.initial
    rw [hkeys]
    exact h.first
  · change (r.states.insert r.initial s).get? id = some t at ht
    rw [OrderedMap.get?_insert] at ht
    split at ht
    · cases ht
      exact hid.trans (Eq.symm ‹_›)
    · exact h.keyed id t ht
  · show ((r.labels.remove r.initialState.label).insert s.label r.initial).get? label = some id ↔
      ∃ t, (r.states.insert r.initial s).get? id = some t ∧ t.label = label
    rw [OrderedMap.get?_insert, OrderedMap.get?_remove, OrderedMap.get?_insert]
    by_cases he : id = r.initial
    · -- the initial id has the new label and no other one
      subst he
      simp only [if_true, Option.some.injEq, exists_eq_left']
      by_cases hl : label = s.label
      · simp [hl]
      · rw [if_neg hl]
        by_cases ho : label = r.initialState.label
        · simp [ho, Ne.symm (ho ▸ hl)]
        · rw [if_neg ho, hold, show r.states.get? r.initial = some r.initialState from hroot]
          simp [Ne.symm ho, Ne.symm hl]
    · rw [if_neg he, ← hold]
      by_cases hl : label = s.label
      · subst hl
        simp only [if_true, hfree id, iff_false, Option.some.injEq]
        exact fun heq => he heq.symm
      · rw [if_neg hl]
        by_cases ho : label = r.initialState.label
        · -- the label that is given up was the one of the initial id
          subst ho
          rw [if_pos rfl, show r.labels.get? r.initialState.label = some r.initial from
            hold.2 ⟨_, hroot, rfl⟩]
          simp [Ne.symm he]
        · rw [if_neg ho]
  · show ∀ id ∈ (r.states.insert r.initial s).keys, id < r.nextId
    rw [hkeys]
    exact h.lt_nextId
  · change t ∈ (r.states.insert r.initial s).values at ht
    rw [h.replaceFirst] at ht
    rcases List.mem_cons.1 ht with rfl | ht
    · exact hs
    · exact h.states t (h.values_eq ▸ List.mem_cons_of_mem _ ht)

end Sound

/-! ### Changes and edits -/

/-- The outcome of a change of a registry shows that of an edit. -/
inductive Shows : Result AutomatonError Registry α → Result AutomatonError Automaton α → Prop
  | ok (v : α) {r : Registry} : r.Sound → Shows (.ok v r) (.ok v r.view)
  | error (e : AutomatonError) {r : Registry} : r.Sound → Shows (.error e r) (.error e r.view)

/-- On sound registries the change does what the edit does on what they show. -/
def Mirrors (change : Change Registry α) (edit : Edit α) : Prop :=
  ∀ r, r.Sound → Shows (change r) (edit r.view)

/-- What a computation with registries gives shows what one with automata gives. -/
inductive Agrees {ε : Type} : Except ε Registry → Except ε Automaton → Prop
  | ok {r : Registry} : r.Sound → Agrees (.ok r) (.ok r.view)
  | error (e : ε) : Agrees (.error e) (.error e)

theorem Shows.ok_of_view {v : α} {a : Automaton} (h : r.Sound) (hv : r.view = a) :
    Shows (.ok v r) (.ok v a) := hv ▸ .ok v h

section Results

variable {x : Change Registry α} {x' : Edit α} {a : Automaton}

theorem Shows.eq_ok {v : α} {y : Result AutomatonError Automaton α} (h : Shows (.ok v r) y) :
    y = .ok v r.view := by
  cases h
  rfl

theorem Shows.eq_error {e : AutomatonError} {y : Result AutomatonError Automaton α}
    (h : Shows (.error e r) y) : y = .error e r.view := by
  cases h
  rfl

theorem Shows.sound {y : Result AutomatonError Automaton α} {v : α} (h : Shows (.ok v r) y) : r.Sound := by
  cases h
  assumption

theorem Shows.sound_of_error {y : Result AutomatonError Automaton α} {e : AutomatonError}
    (h : Shows (.error e r) y) : r.Sound := by
  cases h
  assumption

/-- What comes after a change has to be looked at only where the change ended
well. -/
theorem Shows.bind {f : α → Change Registry β} {f' : α → Edit β} (hx : Shows (x r) (x' a))
    (hf : ∀ v s, x r = .ok v s → s.Sound → Shows (f v s) (f' v s.view)) :
    Shows ((x >>= f) r) ((x' >>= f') a) := by
  cases hr : x r with
  | ok v s =>
    rw [hr] at hx
    rw [Change.bind_of_ok hr, Change.bind_of_ok hx.eq_ok]
    exact hf v s hr hx.sound
  | error e s =>
    rw [hr] at hx
    rw [Change.bind_of_error hr, Change.bind_of_error hx.eq_error]
    exact .error e hx.sound_of_error

theorem Shows.exec (hx : Shows (x r) (x' a)) : Agrees (x.exec r) (x'.exec a) := by
  unfold Change.exec
  generalize x r = result at hx
  generalize x' a = result' at hx
  cases hx with
  | ok v h => exact .ok h
  | error e h => exact .error e

end Results

namespace Mirrors

variable {x : Change Registry α} {x' : Edit α}

theorem pure (v : α) : Mirrors (pure v) (pure v) := fun _ h => .ok v h

theorem throw (e : AutomatonError) : Mirrors (throw e : Change Registry α) (throw e) := fun _ h => .error e h

theorem bind {f : α → Change Registry β} {f' : α → Edit β} (hx : Mirrors x x')
    (hf : ∀ v, Mirrors (f v) (f' v)) : Mirrors (x >>= f) (x' >>= f') :=
  fun r h => (hx r h).bind fun v s _ hs => hf v s hs

/-- A change that looks at the registry first. -/
theorem get_bind {f : Registry → Change Registry β} {f' : Automaton → Edit β}
    (hf : ∀ r, r.Sound → Shows (f r r) (f' r.view r.view)) : Mirrors (get >>= f) (get >>= f') := hf

theorem discard (hx : Mirrors x x') : Mirrors (discard x) (discard x') :=
  hx.bind fun _ => pure ()

theorem forM {ι : Type} {f : ι → Change Registry Unit} {f' : ι → Edit Unit} : ∀ {xs : List ι},
    (∀ x ∈ xs, Mirrors (f x) (f' x)) → Mirrors (xs.forM f) (xs.forM f')
  | [], _ => pure ()
  | x :: xs, h => by
    rw [Change.forM_cons, Change.forM_cons]
    exact (h x List.mem_cons_self).bind fun _ => forM fun y hy => h y (List.mem_cons_of_mem _ hy)

theorem foldlM {ι : Type} {f : β → ι → Change Registry β} {f' : β → ι → Edit β} : ∀ {xs : List ι} {v : β},
    (∀ v, ∀ x ∈ xs, Mirrors (f v x) (f' v x)) → Mirrors (xs.foldlM f v) (xs.foldlM f' v)
  | [], v, _ => pure v
  | x :: xs, v, h => by
    rw [List.foldlM_cons, List.foldlM_cons]
    exact (h v x List.mem_cons_self).bind fun w => foldlM fun u y hy => h u y (List.mem_cons_of_mem _ hy)

theorem exec (hx : Mirrors x x') (h : r.Sound) : Agrees (x.exec r) (x'.exec r.view) := (hx r h).exec

/-- What is left, however the change ends. -/
theorem after (hx : Mirrors x x') (h : r.Sound) :
    (x.after r).Sound ∧ (x.after r).view = x'.after r.view := by
  have hr := hx r h
  unfold Change.after
  generalize x r = result at hr
  generalize x' r.view = result' at hr
  cases hr with
  | ok v hs => exact ⟨hs, rfl⟩
  | error e hs => exact ⟨hs, rfl⟩

end Mirrors

/-! ### Single changes -/

theorem mirrors_insert (hs : s.WellFormed) : Mirrors (insert s) (Automaton.insert s) := by
  intro r h
  unfold insert Automaton.insert
  by_cases hl : s.label ∈ r.view.labels
  · rw [if_pos (h.contains_label_iff.2 hl), if_pos hl]
    exact .error _ h
  · rw [if_neg (mt h.contains_label_iff.1 hl), if_neg hl, h.contains_view]
    by_cases hid : r.contains s.id = true
    · rw [if_pos hid, if_pos hid]
      exact .error _ h
    · rw [if_neg hid, if_neg hid]
      rw [contains, OrderedMap.contains_iff] at hid
      rw [h.mem_labels_view] at hl
      have hsound := h.insert hs hid hl
      refine .ok_of_view hsound (Automaton.eq_of_states ?_ rfl)
      rw [hsound.states_view]
      show (r.states.insert s.id s).values = r.view.states ++ [s]
      rw [OrderedMap.values_insert_of_not_mem hid, h.states_view]

theorem mirrors_addState (label : String) : Mirrors (addState label) (Automaton.addState label) :=
  fun r h => mirrors_insert (.new r.nextId label) r h

/-- One state changed, without changing its id and label. -/
theorem shows_update {u : Unit} {f : State → State} (h : r.Sound) (hf : ∀ s, r.state? id = some s →
    (f s).id = s.id ∧ (f s).label = s.label ∧ (f s).WellFormed) :
    Shows (.ok u (r.update id f)) (.ok u (r.view.update id f)) :=
  .ok_of_view (h.update hf) (h.view_update (h.update hf))

theorem Sound.state_wellFormed (h : r.Sound) (hs : r.state? id = some s) : s.WellFormed :=
  h.states s (OrderedMap.mem_values_iff.2 ⟨id, hs⟩)

theorem mirrors_setMarker (id : Nat) (marker : Option String) :
    Mirrors (setMarker id marker) (Automaton.setMarker id marker) := by
  intro r h
  have hcontains : r.view.contains id = (r.state? id).isSome := h.contains_view id
  unfold setMarker Automaton.setMarker
  rw [hcontains]
  cases hs : r.state? id with
  | none => exact .error _ h
  | some s => exact shows_update h fun t ht => ⟨rfl, rfl, (h.state_wellFormed ht).setMarker marker⟩

theorem mirrors_addFinalState (label token : String) :
    Mirrors (addFinalState label token) (Automaton.addFinalState label token) := by
  intro r h
  refine (mirrors_addState label r h).bind fun id s hadd hs => ?_
  -- the state to be marked was just added
  have hid : s.view.contains id = true := by
    have hrun := mirrors_addState label r h
    rw [hadd] at hrun
    obtain ⟨-, -, hid, hview⟩ := Automaton.insert_eq_ok.1 hrun.eq_ok
    rw [Automaton.contains_iff, ← hview, ← hid]
    exact List.mem_map_of_mem (List.mem_cons_of_mem _ (List.mem_append_right _ (List.mem_singleton_self _)))
  have hmark : Automaton.setMarker id (some token) s.view =
      .ok () (s.view.update id (·.setMarker (some token))) := if_pos hid
  rw [Change.bind_of_ok hmark]
  have hsound : (s.update id (·.setMarker (some token))).Sound :=
    hs.update fun t ht => ⟨rfl, rfl, (hs.state_wellFormed ht).setMarker _⟩
  exact .ok_of_view hsound (hs.view_update hsound)

theorem mirrors_addTransition (source : Nat) (c : Symbol) (target : Nat) :
    Mirrors (addTransition source c target) (Automaton.addTransition source c target) := by
  intro r h
  have hsource : r.view.contains source = (r.state? source).isSome := h.contains_view source
  unfold addTransition Automaton.addTransition
  rw [h.contains_view, hsource]
  split
  · exact .error _ h
  · cases hs : r.state? source with
    | none => exact .error _ h
    | some s => exact shows_update h fun t ht => ⟨rfl, rfl, (h.state_wellFormed ht).addMove c target⟩

theorem mirrors_editState (id : Nat) {e : State.Edit}
    (he : ∀ o, e = .mergeMarker o ∨ e = .mergeMoves o → o.WellFormed) :
    Mirrors (editState id e) (Automaton.editState id e) := by
  intro r h
  unfold editState Automaton.editState
  rw [h.state?_view]
  cases hs : r.state? id with
  | none => exact .ok _ h
  | some s =>
    cases ht : s.edit e with
    | error err =>
      simp only [ht]
      exact .error _ h
    | ok t =>
      simp only [ht]
      refine .ok_of_view (h.update fun s' hs' => ?_) (h.view_update (h.update fun s' hs' => ?_))
      all_goals
        obtain rfl : s = s' := Option.some.inj (hs.symm.trans hs')
        exact ⟨State.id_edit ht, State.label_edit ht, (h.state_wellFormed hs).edit he ht⟩

theorem mirrors_replaceInitial (hs : s.WellFormed) :
    Mirrors (replaceInitial s) (Automaton.replaceInitial s) := by
  intro r h
  have hfirst : ∀ labels, Sound { r with labels, states := r.states.insert r.initial s } → s.id = r.initial →
      Shows (.ok () { r with labels, states := r.states.insert r.initial s })
        (.ok () { r.view with initial := s }) := fun labels hsound hid => by
    refine .ok_of_view hsound (Automaton.eq_of_states ?_ rfl)
    rw [hsound.states_view]
    exact h.replaceFirst
  unfold replaceInitial Automaton.replaceInitial
  rw [show r.view.initial.id = r.initial from h.initialState_id]
  by_cases hid : s.id = r.initial
  · rw [if_neg (not_not_intro hid), if_neg (not_not_intro hid)]
    dsimp only
    by_cases hl : r.initialState.label = s.label
    · rw [if_pos hl, if_neg fun hne => hne.1 hl.symm]
      refine hfirst r.labels ?_ hid
      rw [OrderedMap.insert_of_mem h.initial_mem_keys]
      refine h.update fun t ht => ?_
      obtain rfl : r.initialState = t := Option.some.inj (h.state?_initial.symm.trans ht)
      exact ⟨hid.trans h.initialState_id.symm, hl.symm, hs⟩
    · rw [if_neg hl]
      by_cases htaken : s.label ∈ r.view.labels
      · rw [if_pos (h.contains_label_iff.2 htaken), if_pos ⟨Ne.symm hl, htaken⟩]
        exact .error _ h
      · rw [if_neg (mt h.contains_label_iff.1 htaken), if_neg fun hne => htaken hne.2]
        exact hfirst _ (h.relabelInitial hs hid (mt h.mem_labels_view.2 htaken)) hid
  · rw [if_pos hid, if_pos hid]
    exact .error _ h

end Registry
end TokenAutomata
