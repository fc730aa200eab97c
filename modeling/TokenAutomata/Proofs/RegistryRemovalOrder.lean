/-
# Removing at once is removing one by one

The states that are removed at once, because they are dead or cannot be reached,
can as well be forgotten one by one, in any order. Each of them can be forgotten
when its turn comes, whatever went before, and the registry left in the end is
the same in all its fields: the states in their order, each with its symbols in
their order, the index, and the counter (`Registry.remove_in_any_order`).

Key theorems: `Registry.forgetState_each`, `Registry.forgetState_each_order`,
`Registry.remove_in_any_order`.
-/
import TokenAutomata.Proofs.RegistryRuns

namespace TokenAutomata
namespace Registry

variable {r : Registry} {ids : List Nat} {id : Nat}

theorem mem_keys_without : id ∈ (r.without ids).states.keys ↔ id ∈ r.states.keys ∧ id ∉ ids := by
  have hkeys : (r.without ids).states.keys = r.states.keys.filter (· ∉ ids) := by
    show ((r.states.entries.filter _).map _).map _ = (r.states.entries.map _).filter _
    rw [List.map_map, List.filter_map]
    rfl
  rw [hkeys, List.mem_filter, decide_eq_true_eq]

/-- One by one, distinct states other than the initial one can all be forgotten,
with the outcome of removing them at once. -/
theorem forgetState_each : ∀ {ids : List Nat} {r : Registry}, r.Sound → ids.Nodup → ids ⊆ r.states.keys →
    r.initial ∉ ids → ∃ removed, ids.mapM forgetState r = .ok removed (r.without ids) ∧ removed.map (·.id) = ids
  | [], r, _, _, _, _ => ⟨[], by rw [without_nil]; rfl, rfl⟩
  | id :: ids, r, h, hnodup, hsub, hroot => by
    rw [List.nodup_cons] at hnodup
    rw [List.mem_cons, not_or] at hroot
    obtain ⟨s, hs⟩ := OrderedMap.mem_keys_iff.1 (hsub List.mem_cons_self)
    have hone : r.initial ∉ [id] := fun hm => hroot.1 (List.mem_singleton.1 hm)
    have hrest : ids ⊆ (r.without [id]).states.keys := fun p hp => by
      rw [mem_keys_without, List.mem_singleton]
      exact ⟨hsub (List.mem_cons_of_mem id hp), fun he => hnodup.1 (he ▸ hp)⟩
    obtain ⟨removed, hrun, hremoved⟩ := forgetState_each (h.without hone) hnodup.2 hrest hroot.2
    rw [without_without, List.singleton_append] at hrun
    refine ⟨s :: removed, ?_, by rw [List.map_cons, hremoved, h.keyed id s hs]⟩
    rw [List.mapM_cons, Change.bind_of_ok (h.forgetState_eq (Ne.symm hroot.1) hs), Change.bind_of_ok hrun]
    rfl

/-- Removing at once is removing one by one in whatever order. -/
theorem forgetState_each_order {order : List Nat} (h : r.Sound) (hids : ids.Nodup) (hsub : ids ⊆ r.states.keys)
    (hroot : r.initial ∉ ids) (horder : order.Nodup) (hmem : ∀ p, p ∈ order ↔ p ∈ ids) :
    ∃ removed, order.mapM forgetState r = .ok removed (r.without ids) ∧ removed.map (·.id) = order ∧
      order.length = ids.length := by
  have hperm : order.Perm ids := (List.perm_ext_iff_of_nodup horder hids).2 hmem
  obtain ⟨removed, hrun, hremoved⟩ := forgetState_each h horder (fun p hp => hsub ((hmem p).1 hp))
    (fun hp => hroot ((hmem _).1 hp))
  rw [without_perm r hperm] at hrun
  exact ⟨removed, hrun, hremoved, hperm.length_eq⟩

/-- Instead of removing the dead states at once one can forget them one by one,
in any order: each can be forgotten, and the registry left is the same. So it
is with the states that cannot be reached. -/
theorem remove_in_any_order (hr : r.Built) :
    (∃ n s, removeDead r = .ok n s ∧ ∀ order : List Nat, order.Nodup →
      (∀ p, p ∈ order ↔ p ∈ r.states.keys ∧ p ≠ r.initial ∧ ¬ r.view.CanFinish p) →
        ∃ removed, order.mapM forgetState r = .ok removed s ∧ removed.map (·.id) = order ∧
          order.length = n) ∧
    ∃ n s, removeUnreachable r = .ok n s ∧ ∀ order : List Nat, order.Nodup →
      (∀ p, p ∈ order ↔ p ∈ r.states.keys ∧ ¬ ∃ w, r.view.Reaches w p) →
        ∃ removed, order.mapM forgetState r = .ok removed s ∧ removed.map (·.id) = order ∧
          order.length = n := by
  have h := hr.sound
  have hwf := h.view_wellFormed
  have hinitial : r.view.initial.id = r.initial := h.initialState_id
  have hothers : (r.view.others.map (·.id)).Nodup :=
    (List.nodup_cons.1 (Automaton.ids_cons r.view ▸ hwf.nodup_ids)).2
  refine ⟨⟨_, _, h.removeDead_eq, fun order horder hmem => ?_⟩, _, _, h.removeUnreachable_eq,
    fun order horder hmem => ?_⟩
  · refine forgetState_each_order h (hothers.filter _) (fun p hp => ?_) h.initial_not_mem_dead horder
      fun p => ?_
    · rw [← h.ids_view]
      exact ((Automaton.mem_dead_iff hwf).1 hp).1.1
    · rw [hmem, Automaton.mem_dead_iff_canFinish hwf, hinitial, h.ids_view]
  · refine forgetState_each_order h (hothers.filter _) (fun p hp => ?_) h.initial_not_mem_unreachable horder
      fun p => ?_
    · rw [← h.ids_view]
      exact ((Automaton.mem_unreachable_iff hwf).1 hp).1.1
    · rw [hmem, Automaton.mem_unreachable_iff hwf, Automaton.mem_reachable_iff hwf, and_assoc, h.ids_view]
      -- the initial state is reached by the empty word
      refine and_congr_right fun _ => (and_iff_right_of_imp fun hnot he => hnot ⟨[], ?_⟩).symm
      exact Automaton.reaches_nil_iff.2 he

/-- The states 1 and 2 lead to no marker, and nothing leads to 4 and 5. -/
def deadAndStranded : Registry := new.afterAll [.addState "A", .addState "B", .addFinalState "C" "C",
  .addFinalState "E" "E", .addFinalState "F" "F", .addTransition 0 'a' 2, .addTransition 0 'a' 3,
  .addTransition 2 'x' 1, .addTransition 4 'o' 2, .addTransition 5 'o' 3]

theorem built_deadAndStranded : deadAndStranded.Built :=
  Built.afterAll (.made (.withInitial Automaton.rootLabel)) (by simp [Operation.Allowed])

theorem mem_dead_deadAndStranded (p : Nat) : p ∈ [1, 2] ↔
    p ∈ deadAndStranded.states.keys ∧ p ≠ deadAndStranded.initial ∧ ¬ deadAndStranded.view.CanFinish p := by
  have hone : ¬ deadAndStranded.view.CanFinish 1 :=
    Automaton.not_canFinish_of_no_move (by decide) fun _ => rfl
  have htwo : ¬ deadAndStranded.view.CanFinish 2 := by
    rintro ⟨w, q, hw, hf⟩
    cases hw with
    | nil => exact absurd hf (by decide)
    | cons hq hw =>
      have hnext := (Automaton.mem_successors built_deadAndStranded.view.wellFormed).2 ⟨_, hq⟩
      obtain rfl := List.mem_singleton.1 (show _ ∈ [1] from hnext)
      exact hone ⟨_, _, hw, hf⟩
  have hfinish : ∀ p ∈ [3, 4, 5], deadAndStranded.view.CanFinish p := fun p hp =>
    ⟨[], p, .nil p, by revert p; decide⟩
  constructor
  · intro hp
    refine ⟨by revert p; decide, by revert p; decide, ?_⟩
    rcases List.mem_pair.1 hp with rfl | rfl
    · exact hone
    · exact htwo
  · rintro ⟨hid, hne, hnot⟩
    have hcases : ∀ p ∈ deadAndStranded.states.keys, p = 0 ∨ p ∈ [1, 2] ∨ p ∈ [3, 4, 5] := by decide
    exact ((hcases p hid).resolve_left hne).resolve_right fun hp => hnot (hfinish p hp)

theorem mem_stranded_deadAndStranded (p : Nat) : p ∈ [5, 4] ↔
    p ∈ deadAndStranded.states.keys ∧ ¬ ∃ w, deadAndStranded.view.Reaches w p := by
  have hreached : ∀ p ∈ [0, 1, 2, 3], ∃ w, deadAndStranded.view.Reaches w p := by
    intro p hp
    simp only [List.mem_cons, List.not_mem_nil, or_false] at hp
    rcases hp with rfl | rfl | rfl | rfl
    · exact ⟨[], .nil 0⟩
    · exact ⟨['a', 'x'], .cons (q := 2) (by decide) (Automaton.path_singleton_iff.2 (by decide))⟩
    · exact ⟨['a'], Automaton.path_singleton_iff.2 (by decide)⟩
    · exact ⟨['a'], Automaton.path_singleton_iff.2 (by decide)⟩
  constructor
  · intro hp
    exact ⟨by revert p; decide,
      Automaton.not_reaches_of_not_mem_targets (by revert p; decide) (by revert p; decide)⟩
  · rintro ⟨hid, hnot⟩
    have hcases : ∀ p ∈ deadAndStranded.states.keys, p ∈ [5, 4] ∨ p ∈ [0, 1, 2, 3] := by decide
    exact (hcases p hid).resolve_right fun hp => hnot (hreached p hp)

theorem deadAndStranded_in_any_order : deadAndStranded.Built ∧
    (∃ n s, removeDead deadAndStranded = .ok n s ∧ s.idOf? "A" = none ∧ s.idOf? "C" = some 3 ∧
      (∃ removed, [1, 2].mapM forgetState deadAndStranded = .ok removed s) ∧
      ∃ removed, [2, 1].mapM forgetState deadAndStranded = .ok removed s) ∧
    ∃ n s, removeUnreachable deadAndStranded = .ok n s ∧
      ∃ removed, [5, 4].mapM forgetState deadAndStranded = .ok removed s := by
  obtain ⟨⟨n, s, hs, heach⟩, m, t, ht, heach'⟩ := remove_in_any_order built_deadAndStranded
  obtain ⟨u, hu, -⟩ := heach [1, 2] (by decide) mem_dead_deadAndStranded
  obtain ⟨u', hu', -⟩ := heach [2, 1] (by decide) fun p => by
    rw [← mem_dead_deadAndStranded, List.mem_pair, List.mem_pair, or_comm]
  obtain ⟨u'', hu'', -⟩ := heach' [5, 4] (by decide) mem_stranded_deadAndStranded
  have hleft : s = ([1, 2].mapM forgetState).after deadAndStranded := (Change.after_of_ok hu).symm
  have hgone : s.idOf? "A" = none := by
    rw [hleft]
    decide
  have hkept : s.idOf? "C" = some 3 := by
    rw [hleft]
    decide
  exact ⟨built_deadAndStranded, ⟨n, s, hs, hgone, hkept, ⟨u, hu⟩, u', hu'⟩, m, t, ht, u'', hu''⟩

end Registry
end TokenAutomata
