/-
# Joining registries

The map of new ids that joining makes, entry by entry, gives every state the id
that joining automata counts out for it (`Registry.renames_eq`). So the copies
are the same ones, and joining registries shows joining what they show
(`Registry.mirrors_concat`).

Key theorems: `Registry.get?_foldl_insert`, `Registry.renames_eq`,
`Registry.mirrors_adopt`, `Registry.mirrors_mergeInitial`,
`Registry.mirrors_concat`.
-/
import TokenAutomata.Proofs.RegistryChanges
import TokenAutomata.Registry.Concat

namespace TokenAutomata
namespace Registry

variable {r other : Registry} {s : State}

theorem mirrors_adopt (hs : s.WellFormed) : Mirrors (adopt s) (Automaton.adopt s) := by
  intro r h
  have hlabelled : (if r.uniqueLabel s.label s.id ≠ s.label then { s with label := r.uniqueLabel s.label s.id }
      else s) = { s with label := r.view.uniqueLabel s.label s.id } := by
    rw [h.uniqueLabel_view]
    by_cases hl : r.uniqueLabel s.label s.id = s.label
    · rw [if_neg (not_not_intro hl), hl]
    · rw [if_pos hl]
  show Shows (insert (if r.uniqueLabel s.label s.id ≠ s.label then _ else s) r) (Automaton.insert _ r.view)
  rw [hlabelled]
  exact mirrors_insert (hs.relabel _) r h

theorem mirrors_mergeInitial (hs : s.WellFormed) : Mirrors (mergeInitial s) (Automaton.mergeInitial s) := by
  intro r h
  have hsound : (r.update r.initial fun initial => (initial.mergeMarker s).mergeMoves s).Sound :=
    h.update fun t ht => ⟨rfl, rfl, ((h.state_wellFormed ht).mergeMarker hs).mergeMoves hs⟩
  refine .ok_of_view hsound ?_
  rw [h.view_update hsound, ← show r.view.initial.id = r.initial from h.initialState_id]
  exact h.view_wellFormed.update_initial _

/-! ### New ids -/

/-- The ids counted out to some states, where those of the others stay. -/
theorem get?_foldl_insert {n id : Nat} : ∀ {copied : List State} {k : Nat} {m : OrderedMap Nat Nat},
    (copied.map (·.id)).Nodup →
      ((copied.zipIdx k).foldl (fun m x => m.insert x.1.id (n + x.2)) m).get? id =
        ((copied.findIdx? (·.id == id)).map fun i => n + (k + i)).or (m.get? id)
  | [], _, _, _ => rfl
  | s :: copied, k, m, h => by
    rw [List.map_cons, List.nodup_cons] at h
    rw [List.zipIdx_cons, List.foldl_cons, get?_foldl_insert h.2, OrderedMap.get?_insert, List.findIdx?_cons]
    by_cases hid : s.id = id
    · have hnone : copied.findIdx? (·.id == id) = none := by
        rw [List.findIdx?_eq_none_iff]
        exact fun t ht => beq_false_of_ne fun he => h.1 (hid ▸ he ▸ List.mem_map_of_mem ht)
      rw [hnone]
      simp [hid]
    · cases copied.findIdx? (·.id == id) with
      | none => simp [hid, Ne.symm hid]
      | some i => simp [hid, Nat.add_assoc, Nat.add_comm 1 i]

/-- The states that are copied. -/
theorem Sound.copied_eq (h : r.Sound) : r.states.values.filter (·.id ≠ r.initial) = r.view.others := by
  have hothers : ∀ s ∈ r.view.others, s.id ≠ r.view.initial.id := fun s hs he =>
    (List.nodup_cons.1 (Automaton.ids_cons r.view ▸ h.nodup_ids_view)).1 (he ▸ List.mem_map_of_mem hs)
  rw [show r.view.initial.id = r.initial from h.initialState_id] at hothers
  rw [← h.states_view, Automaton.states, List.filter_cons_of_neg (by simp [view, h.initialState_id]),
    List.filter_eq_self]
  exact fun s hs => decide_eq_true (hothers s hs)

/-- The map gives the ids that are counted out. -/
theorem renames_eq (h : r.Sound) (ho : other.Sound) (id : Nat) :
    ((renames r other other.view.others).get? id).getD id = r.view.joinedId other.view id := by
  have hnodup := ho.nodup_ids_view
  rw [Automaton.ids_cons, List.nodup_cons] at hnodup
  unfold renames Automaton.joinedId
  rw [get?_foldl_insert hnodup.2, OrderedMap.get?_insert, OrderedMap.get?_empty,
    show r.view.initial.id = r.initial from h.initialState_id,
    show other.view.initial.id = other.initial from ho.initialState_id]
  by_cases hid : id = other.initial
  · have hnone : other.view.others.findIdx? (·.id == id) = none := by
      rw [List.findIdx?_eq_none_iff]
      refine fun t ht => beq_false_of_ne fun he => hnodup.1 ?_
      rw [show other.view.initial.id = other.initial from ho.initialState_id, ← hid, ← he]
      exact List.mem_map_of_mem ht
    rw [hnone]
    simp [hid]
  · cases other.view.others.findIdx? (·.id == id) with
    | none => simp [hid]
    | some k => simp [hid]; rfl

/-! ### As a whole -/

/-- Nothing is copied if the initial labels differ. -/
theorem concat_of_ne (hl : r.initialState.label ≠ other.initialState.label) :
    concat other r = .error (.mismatchedRoots r.initialState.label other.initialState.label) r := by
  unfold concat
  refine (Change.bind_of_ok (show (get : Change Registry Registry) r = .ok r r from rfl)).trans ?_
  dsimp only
  rw [if_pos hl]
  rfl

theorem mirrors_concat (ho : other.Sound) : Mirrors (concat other) (Automaton.concat other.view) := by
  refine .get_bind fun r h => ?_
  dsimp only
  rw [ho.copied_eq]
  by_cases hl : r.initialState.label ≠ other.initialState.label
  · rw [if_pos hl, if_pos (show r.view.initial.label ≠ other.view.initial.label from hl)]
    exact .error _ h
  · rw [if_neg hl, if_neg (show ¬ r.view.initial.label ≠ other.view.initial.label from hl)]
    simp only [renames_eq h ho]
    refine Mirrors.bind (.forM fun s hs => (mirrors_adopt ?_).discard) (fun _ => mirrors_mergeInitial ?_) r h
    · exact (ho.view_wellFormed.states s (List.mem_cons_of_mem _ hs)).rename _
    · exact (ho.view_wellFormed.states _ List.mem_cons_self).rename _

end Registry
end TokenAutomata
