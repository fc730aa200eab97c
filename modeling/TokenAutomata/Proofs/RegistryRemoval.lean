/-
# Removing states from a registry

A registry has two ways to remove states. One id is removed by itself: its
state from the map, the label of that state from the index, the id from the
moves. Several are removed at once: the states of the ids from the map, the
labels that lead to such ids from the index, one id after the other from the
moves. In a sound registry both leave what `Registry.without` says, which may be
taken apart and put into any order (`Registry.without_without`,
`Registry.without_perm`).

Key definitions: `Registry.without`.
Key theorems: `Registry.Sound.without`, `Registry.Sound.view_without`,
`Registry.forgetAll_eq`, `Registry.Sound.forgetState_eq`,
`Registry.Sound.removeDead_eq`, `Registry.Sound.removeUnreachable_eq`,
`Registry.mirrors_forgetState`, `Registry.mirrors_prune`.
-/
import TokenAutomata.Proofs.ForgottenStates
import TokenAutomata.Proofs.RegistryChanges
import TokenAutomata.Proofs.RegistrySearches

namespace TokenAutomata

theorem OrderedMap.retain_congr {κ ν : Type} {m : OrderedMap κ ν} {p q : κ → ν → Bool}
    (h : ∀ e ∈ m.entries, p e.1 e.2 = q e.1 e.2) : m.retain p = m.retain q :=
  ext (List.filter_congr h)

theorem OrderedMap.retain_eq_self {κ ν : Type} {m : OrderedMap κ ν} {p : κ → ν → Bool}
    (h : ∀ e ∈ m.entries, p e.1 e.2 = true) : m.retain p = m :=
  ext (List.filter_eq_self.2 h)

namespace Registry

variable {r : Registry} {ids more : List Nat} {id : Nat} {s : State}

/-- What is left without the states of some ids. -/
def without (r : Registry) (ids : List Nat) : Registry :=
  { r with
    states := (r.states.retain fun id _ => id ∉ ids).mapValues fun s => ids.foldl State.forget s
    labels := r.labels.retain fun _ id => id ∉ ids }

/-! ### Several removals -/

theorem without_nil (r : Registry) : r.without [] = r := by
  have hstates :
      (r.states.retain fun id _ => id ∉ []).mapValues (fun s => [].foldl State.forget s) = r.states := by
    rw [OrderedMap.retain_eq_self fun _ _ => by simp]
    exact OrderedMap.ext (List.map_id _)
  have hlabels : (r.labels.retain fun _ id => id ∉ []) = r.labels :=
    OrderedMap.retain_eq_self fun _ _ => by simp
  rw [without, hstates, hlabels]

/-- Removing states in two steps is removing them in one. -/
theorem without_without (r : Registry) (ids more : List Nat) :
    (r.without ids).without more = r.without (ids ++ more) := by
  have hstates : (r.without ids |>.without more).states = (r.without (ids ++ more)).states := by
    refine OrderedMap.ext ?_
    show ((((r.states.entries.filter _).map _).filter _).map _) = (r.states.entries.filter _).map _
    rw [List.filter_map, List.map_map, List.filter_filter]
    refine congr (congrArg _ ?_) (List.filter_congr fun e _ => ?_)
    · funext e
      exact congrArg (Prod.mk e.1) List.foldl_append.symm
    · simp [Bool.and_comm]
  have hlabels : (r.without ids |>.without more).labels = (r.without (ids ++ more)).labels := by
    refine OrderedMap.ext ?_
    show (r.labels.entries.filter _).filter _ = r.labels.entries.filter _
    rw [List.filter_filter]
    refine List.filter_congr fun e _ => ?_
    simp [Bool.and_comm]
  exact congrArg₂ (fun states labels => ({ r with states, labels } : Registry)) hstates hlabels

theorem without_perm (r : Registry) (h : ids.Perm more) : r.without ids = r.without more := by
  have hstrip : ∀ s : State, ids.foldl State.forget s = more.foldl State.forget s := fun s =>
    h.foldl_eq' (fun p _ q _ t => t.forget_comm p q) s
  simp only [without, hstrip, h.mem_iff]

/-! ### Soundness -/

namespace Sound

variable (h : r.Sound)

include h

theorem retain (hroot : r.initial ∉ ids) : Sound { r with
    states := r.states.retain fun id _ => id ∉ ids, labels := r.labels.retain fun _ id => id ∉ ids } := by
  have hstate : ∀ {id s}, (r.states.retain fun id _ => id ∉ ids).get? id = some s ↔
      r.state? id = some s ∧ id ∉ ids := fun {id s} => by
    rw [OrderedMap.get?_retain, decide_eq_true_eq, state?]
  refine ⟨h.initial_eq, ?_, fun id s hs => h.keyed id s (hstate.1 hs).1, fun label id => ?_,
    fun id hid => ?_, fun s hs => ?_⟩
  · have hkeys : (r.states.retain fun id _ => id ∉ ids).keys = r.states.keys.filter (· ∉ ids) := by
      unfold OrderedMap.keys OrderedMap.retain
      rw [List.filter_map]
      rfl
    obtain ⟨rest, hrest⟩ := List.head?_eq_some_iff.1 h.first
    show (r.states.retain fun id _ => id ∉ ids).keys.head? = some r.initial
    rw [hkeys, hrest, List.filter_cons, if_pos (decide_eq_true hroot)]
    rfl
  · show (r.labels.retain fun _ id => id ∉ ids).get? label = some id ↔
      ∃ s, (r.states.retain fun id _ => id ∉ ids).get? id = some s ∧ s.label = label
    rw [OrderedMap.get?_retain, decide_eq_true_eq]
    refine (and_congr_left fun hid => h.index label id).trans ⟨?_, ?_⟩
    · rintro ⟨⟨s, hs, hlabel⟩, hid⟩
      exact ⟨s, hstate.2 ⟨hs, hid⟩, hlabel⟩
    · rintro ⟨s, hs, hlabel⟩
      exact ⟨⟨s, (hstate.1 hs).1, hlabel⟩, (hstate.1 hs).2⟩
  · obtain ⟨s, hs⟩ := OrderedMap.mem_keys_iff.1 hid
    exact h.lt_nextId id (OrderedMap.mem_keys_iff.2 ⟨s, (hstate.1 hs).1⟩)
  · obtain ⟨id, hid⟩ := OrderedMap.mem_values_iff.1 hs
    exact h.state_wellFormed (hstate.1 hid).1

theorem without (hroot : r.initial ∉ ids) : (r.without ids).Sound :=
  (h.retain hroot).mapStates fun _ s hs => ⟨State.id_foldl_forget ids s, State.label_foldl_forget ids s,
    .foldl_forget ((h.retain hroot).state_wellFormed hs)⟩

theorem view_without (hroot : r.initial ∉ ids) : (r.without ids).view = r.view.forgetAll ids := by
  have hroot' : r.view.initial.id ∉ ids := by
    rw [show r.view.initial.id = r.initial from h.initialState_id]
    exact hroot
  have hvalues : (r.states.retain fun id _ => id ∉ ids).values = r.states.values.filter (·.id ∉ ids) := by
    unfold OrderedMap.values OrderedMap.retain
    rw [List.filter_map]
    refine congrArg _ (List.filter_congr fun e he => ?_)
    rw [Function.comp_apply, h.keyed e.1 e.2 (OrderedMap.get?_eq_some_iff.2 he)]
  refine Automaton.eq_of_states ?_ rfl
  rw [(h.without hroot).states_view, Automaton.states_forgetAll hroot', h.states_view, ← hvalues]
  exact (h.retain hroot).values_mapWithKey _

/-! ### The two ways -/

/-- Taking the label of a state from the index is taking what leads to its id. -/
theorem forgetState_eq (hne : id ≠ r.initial) (hs : r.state? id = some s) :
    forgetState id r = .ok s (r.without [id]) := by
  have hstates : r.states.remove id = r.states.retain fun id' _ => id' ∉ [id] :=
    OrderedMap.retain_congr fun e _ => by simp
  have hlabels : r.labels.remove s.label = r.labels.retain fun _ id' => id' ∉ [id] := by
    refine OrderedMap.retain_congr fun e he => ?_
    have hid : r.idOf? e.1 = some e.2 := OrderedMap.get?_eq_some_iff.2 he
    have hiff : e.1 = s.label ↔ e.2 = id := by
      constructor
      · rintro hlabel
        rw [hlabel, (h.index s.label id).2 ⟨s, hs, rfl⟩] at hid
        exact (Option.some.inj hid).symm
      · rintro rfl
        obtain ⟨t, ht, hlabel⟩ := (h.index e.1 e.2).1 hid
        obtain rfl : s = t := Option.some.inj (hs.symm.trans ht)
        exact hlabel.symm
    simp [hiff]
  unfold forgetState
  rw [if_neg hne, hs]
  dsimp only
  rw [hstates, hlabels]
  rfl

end Sound

theorem forgetAll_eq (r : Registry) (ids : List Nat) : forgetAll ids r = .ok ids.length (r.without ids) := by
  cases ids with
  | nil => rw [without_nil]; rfl
  | cons id ids => rfl

theorem mirrors_forgetState (id : Nat) : Mirrors (forgetState id) (Automaton.forgetState id) := by
  intro r h
  have hinitial : r.view.initial.id = r.initial := h.initialState_id
  by_cases hid : id = r.initial
  · unfold forgetState Automaton.forgetState
    rw [hinitial, if_pos hid, if_pos hid]
    exact .error _ h
  · cases hs : r.state? id with
    | none =>
      have hnone : id ∉ r.view.ids := by rw [← Automaton.state?_eq_none_iff, h.state?_view, hs]
      have hfind : r.view.others.find? (·.id == id) = none := by
        rw [Automaton.ids_cons, List.mem_cons, not_or] at hnone
        simpa using hnone.2
      unfold forgetState Automaton.forgetState
      rw [hinitial, if_neg hid, if_neg hid, hs, hfind]
      exact .error _ h
    | some s =>
      have hroot : r.initial ∉ [id] := fun hm => hid (List.mem_singleton.1 hm).symm
      rw [h.forgetState_eq hid hs, Automaton.forgetState_ok ((h.state?_view id).trans hs) (hinitial ▸ hid)]
      exact .ok_of_view (h.without hroot) (h.view_without hroot)

/-! ### Dead and unreachable states -/

namespace Sound

variable (h : r.Sound)

include h

/-- Ids other than the initial one are those of the other states. -/
theorem filter_keys {p : Nat → Bool} (hp : p r.initial = false) :
    r.states.keys.filter p = (r.view.others.map (·.id)).filter p := by
  rw [← h.ids_view, Automaton.ids_cons, List.filter_cons_of_neg]
  rw [show r.view.initial.id = r.initial from h.initialState_id, hp]
  simp

theorem removeDead_eq : removeDead r = .ok r.view.dead.length (r.without r.view.dead) := by
  have hdead : r.states.keys.filter (fun id => id ≠ r.initial ∧ id ∉ r.live) = r.view.dead := by
    rw [h.filter_keys (by simp)]
    refine List.filter_congr fun id hid => ?_
    have hne : id ≠ r.initial := fun he => by
      have hnodup := h.nodup_ids_view
      rw [Automaton.ids_cons, List.nodup_cons, show r.view.initial.id = r.initial from h.initialState_id,
        ← he] at hnodup
      exact hnodup.1 hid
    simp [hne, h.mem_live_view]
  unfold removeDead
  dsimp only
  rw [hdead]
  exact forgetAll_eq r _

theorem initial_mem_reachable : r.initial ∈ r.view.reachable := by
  obtain ⟨rest, hrest⟩ := r.view.reachable_cons
  rw [hrest, show r.view.initial.id = r.initial from h.initialState_id]
  exact List.mem_cons_self

theorem removeUnreachable_eq :
    removeUnreachable r = .ok r.view.unreachable.length (r.without r.view.unreachable) := by
  have hunreachable : r.states.keys.filter (fun id => id ∉ IdSet.ofList r.reachable) = r.view.unreachable := by
    have hroot := h.initial_mem_reachable
    rw [h.reachable_view] at hroot
    rw [h.filter_keys (by simpa [IdSet.mem_ofList] using hroot)]
    refine List.filter_congr fun id _ => ?_
    simp [IdSet.mem_ofList, h.reachable_view]
  unfold removeUnreachable
  dsimp only
  rw [hunreachable]
  exact forgetAll_eq r _

theorem initial_not_mem_dead : r.initial ∉ r.view.dead := by
  rw [← show r.view.initial.id = r.initial from h.initialState_id]
  exact Automaton.initial_not_mem_dead h.view_wellFormed

theorem initial_not_mem_unreachable : r.initial ∉ r.view.unreachable := by
  rw [← show r.view.initial.id = r.initial from h.initialState_id]
  exact Automaton.initial_not_mem_unreachable h.view_wellFormed

end Sound

theorem mirrors_removeDead : Mirrors removeDead Automaton.removeDead := by
  intro r h
  rw [h.removeDead_eq]
  exact .ok_of_view (h.without h.initial_not_mem_dead) (h.view_without h.initial_not_mem_dead)

theorem mirrors_removeUnreachable : Mirrors removeUnreachable Automaton.removeUnreachable := by
  intro r h
  rw [h.removeUnreachable_eq]
  exact .ok_of_view (h.without h.initial_not_mem_unreachable) (h.view_without h.initial_not_mem_unreachable)

theorem mirrors_prune : Mirrors prune Automaton.prune :=
  mirrors_removeDead.bind fun _ => mirrors_removeUnreachable.bind fun _ => .pure _

end Registry
end TokenAutomata
