/-
# Pruning

A state is live if some path leads from it to a marker, and reachable if some
path leads to it from the initial state; the two searches find just these
(`Automaton.mem_live_iff`, `Automaton.mem_reachable_iff`). Pruning removes the
others, except the initial state, and the moves to them. What is left reads
every word to the same markers as before (`Automaton.pruned_word_iff`).

The words that lead back to the initial state stay as well if it is live
(`Automaton.pruned_returns_iff`). If it is not, only moves from it to itself are
left, and these read single symbols (`Automaton.pruned_reaches_of_not_live`).

Key theorems: `Automaton.mem_dests_forgetAll`, `Automaton.mem_live_iff`,
`Automaton.mem_reachable_iff`, `Automaton.pruned_word_iff`,
`Automaton.pruned_returns_iff`, `Automaton.pruned_reaches_of_not_live`.
-/
import Mathlib.Data.List.Induction
import TokenAutomata.Proofs.Path
import TokenAutomata.Proofs.Search

namespace TokenAutomata
namespace Automaton

variable {a : Automaton} {ids : List Nat} {p q : Nat} {x : Symbol} {t : String} {w : List Symbol}

/-! ### What is left -/

section Forgetting

variable (ha : a.WellFormed) (hroot : a.initial.id ∉ ids)

include hroot in
theorem states_forgetAll : (a.forgetAll ids).states =
    (a.states.filter (·.id ∉ ids)).map (ids.foldl State.forget) := by
  have hinitial : a.states.filter (·.id ∉ ids) = a.initial :: a.others.filter (·.id ∉ ids) :=
    List.filter_cons_of_pos (by simpa using hroot)
  rw [hinitial]
  rfl

include hroot in
theorem mem_states_forgetAll {s : State} : s ∈ (a.forgetAll ids).states ↔
    ∃ s' ∈ a.states, s'.id ∉ ids ∧ ids.foldl State.forget s' = s := by
  rw [states_forgetAll hroot, List.mem_map]
  simp only [List.mem_filter, decide_eq_true_eq, and_assoc]

include hroot in
theorem ids_forgetAll : (a.forgetAll ids).ids = a.ids.filter (· ∉ ids) := by
  rw [Automaton.ids, states_forgetAll hroot, List.map_map, Automaton.ids, List.filter_map]
  exact List.map_congr_left fun s _ => State.id_foldl_forget ids s

include hroot in
theorem mem_ids_forgetAll : p ∈ (a.forgetAll ids).ids ↔ p ∈ a.ids ∧ p ∉ ids := by
  rw [ids_forgetAll hroot, List.mem_filter, decide_eq_true_eq]

include ha hroot in
/-- The moves left are those from and to states that are left. -/
theorem mem_dests_forgetAll :
    q ∈ (a.forgetAll ids).dests p x ↔ q ∈ a.dests p x ∧ p ∉ ids ∧ q ∉ ids := by
  rw [mem_dests_iff_states (ha.forgetAll ids).nodup_ids, mem_dests_iff_states ha.nodup_ids]
  constructor
  · rintro ⟨s, hs, rfl, hq⟩
    obtain ⟨s', hs', hkept, rfl⟩ := (mem_states_forgetAll hroot).1 hs
    rw [State.mem_dests_foldl_forget (ha.states s' hs')] at hq
    rw [State.id_foldl_forget]
    exact ⟨⟨s', hs', rfl, hq.1⟩, hkept, hq.2⟩
  · rintro ⟨⟨s, hs, rfl, hq⟩, hkept, hq'⟩
    exact ⟨_, (mem_states_forgetAll hroot).2 ⟨s, hs, hkept, rfl⟩, State.id_foldl_forget ids s,
      (State.mem_dests_foldl_forget (ha.states s hs)).2 ⟨hq, hq'⟩⟩

include ha hroot in
theorem markerOf?_forgetAll :
    (a.forgetAll ids).markerOf? p = some t ↔ a.markerOf? p = some t ∧ p ∉ ids := by
  simp only [markerOf?_eq_some_iff, state?_eq_some_iff (ha.forgetAll ids).nodup_ids,
    state?_eq_some_iff ha.nodup_ids]
  constructor
  · rintro ⟨s, ⟨hs, rfl⟩, ht⟩
    obtain ⟨s', hs', hkept, rfl⟩ := (mem_states_forgetAll hroot).1 hs
    rw [State.marker_foldl_forget] at ht
    rw [State.id_foldl_forget]
    exact ⟨⟨s', ⟨hs', rfl⟩, ht⟩, hkept⟩
  · rintro ⟨⟨s, ⟨hs, rfl⟩, ht⟩, hkept⟩
    refine ⟨_, ⟨(mem_states_forgetAll hroot).2 ⟨s, hs, hkept, rfl⟩, State.id_foldl_forget ids s⟩, ?_⟩
    rw [State.marker_foldl_forget]
    exact ht

include ha hroot in
theorem final_forgetAll :
    ((a.forgetAll ids).markerOf? p).isSome ↔ (a.markerOf? p).isSome ∧ p ∉ ids := by
  simp only [Option.isSome_iff_exists, markerOf?_forgetAll ha hroot, exists_and_right]

include ha hroot in
theorem closed_forgetAll (hc : a.Closed) : (a.forgetAll ids).Closed := by
  refine closed_of_dests (ha.forgetAll ids) fun p x q hq => ?_
  obtain ⟨hq, -, hkept⟩ := (mem_dests_forgetAll ha hroot).1 hq
  exact (mem_ids_forgetAll hroot).2 ⟨hc.mem_ids hq, hkept⟩

include ha hroot in
theorem path_of_forgetAll (h : (a.forgetAll ids).Path p w q) : a.Path p w q := by
  induction h with
  | nil p => exact .nil p
  | cons hq _ ih => exact .cons ((mem_dests_forgetAll ha hroot).1 hq).1 ih

end Forgetting

/-! ### The searches -/

theorem mem_successors (ha : a.WellFormed) : q ∈ a.successors p ↔ ∃ x, q ∈ a.dests p x := by
  unfold successors dests
  cases hs : a.state? p with
  | none => simp
  | some s => exact Moves.mem_targets_iff (ha.states s (mem_states_of_state? hs)).moves

theorem mem_predecessors (ha : a.WellFormed) : p ∈ a.predecessors q ↔ ∃ x, q ∈ a.dests p x := by
  simp only [mem_predecessors_iff, mem_dests_iff_states ha.nodup_ids]
  constructor
  · rintro ⟨s, hs, hq, rfl⟩
    obtain ⟨x, hx⟩ := (Moves.mem_targets_iff (ha.states s hs).moves).1 hq
    exact ⟨x, s, hs, rfl, hx⟩
  · rintro ⟨x, s, hs, rfl, hx⟩
    exact ⟨s, hs, Moves.mem_targets_of_mem_dests hx, rfl⟩

/-- Just what some word leads to is found forward. -/
theorem mem_reachable_iff (ha : a.WellFormed) : q ∈ a.reachable ↔ ∃ w, a.Reaches w q := by
  constructor
  · intro h
    refine search_induction (P := fun q => ∃ w, a.Reaches w q) (fun p hp => ?_) (fun p hp q hq => ?_) q h
    · exact ⟨[], reaches_nil_iff.2 (List.mem_singleton.1 hp)⟩
    · obtain ⟨w, hw⟩ := hp
      obtain ⟨x, hx⟩ := (mem_successors ha).1 hq
      exact ⟨w ++ [x], reaches_snoc_iff.2 ⟨p, hw, hx⟩⟩
  · rintro ⟨w, hw⟩
    induction w using List.reverseRecOn generalizing q with
    | nil => exact mem_search_of_start (List.mem_singleton.2 (reaches_nil_iff.1 hw))
    | append_singleton w x ih =>
      obtain ⟨p, hp, hq⟩ := reaches_snoc_iff.1 hw
      exact mem_search_of_next (ih hp) ((mem_successors ha).2 ⟨x, hq⟩)

/-- Just what some word leads from to a marker is found backward. -/
theorem mem_live_iff (ha : a.WellFormed) :
    p ∈ a.live ↔ ∃ w q, a.Path p w q ∧ (a.markerOf? q).isSome := by
  unfold live
  rw [IdSet.mem_ofList]
  constructor
  · intro h
    refine search_induction (P := fun p => ∃ w q, a.Path p w q ∧ (a.markerOf? q).isSome)
      (fun p hp => ?_) (fun q hq p hp => ?_) p h
    · obtain ⟨s, hs, rfl⟩ := List.mem_map.1 hp
      obtain ⟨hs, hf⟩ := List.mem_filter.1 hs
      refine ⟨[], s.id, .nil _, ?_⟩
      rw [markerOf?_of_mem_states ha.nodup_ids hs]
      exact hf
    · obtain ⟨w, r, hw, hf⟩ := hq
      obtain ⟨x, hx⟩ := (mem_predecessors ha).1 hp
      exact ⟨x :: w, r, .cons hx hw, hf⟩
  · rintro ⟨w, q, hw, hf⟩
    induction hw with
    | nil p =>
      obtain ⟨s, hs, rfl⟩ := List.mem_map.1 (mem_ids_of_markerOf? hf)
      rw [markerOf?_of_mem_states ha.nodup_ids hs] at hf
      exact mem_search_of_start (List.mem_map_of_mem (List.mem_filter.2 ⟨hs, hf⟩))
    | cons hq _ ih => exact mem_search_of_next (ih hf) ((mem_predecessors ha).2 ⟨_, hq⟩)

theorem mem_live_of_final (ha : a.WellFormed) (hf : (a.markerOf? p).isSome) : p ∈ a.live :=
  (mem_live_iff ha).2 ⟨[], p, .nil p, hf⟩

/-! ### Pruning -/

section Pruning

variable (ha : a.WellFormed)

include ha

theorem mem_others_ids : p ∈ a.others.map (·.id) ↔ p ∈ a.ids ∧ p ≠ a.initial.id := by
  have hnodup := List.nodup_cons.1 (ids_cons a ▸ ha.nodup_ids)
  rw [ids_cons, List.mem_cons]
  constructor
  · intro hp
    exact ⟨Or.inr hp, fun he => hnodup.1 (he ▸ hp)⟩
  · rintro ⟨hp, hne⟩
    exact hp.resolve_left hne

theorem mem_dead_iff : p ∈ a.dead ↔ (p ∈ a.ids ∧ p ≠ a.initial.id) ∧ p ∉ a.live := by
  rw [dead, List.mem_filter, mem_others_ids ha, decide_eq_true_eq]

theorem mem_unreachable_iff :
    p ∈ a.unreachable ↔ (p ∈ a.ids ∧ p ≠ a.initial.id) ∧ p ∉ a.reachable := by
  rw [unreachable, List.mem_filter, mem_others_ids ha, decide_eq_true_eq]

theorem initial_not_mem_dead : a.initial.id ∉ a.dead := fun h =>
  ((mem_dead_iff ha).1 h).1.2 rfl

theorem initial_not_mem_unreachable : a.initial.id ∉ a.unreachable := fun h =>
  ((mem_unreachable_iff ha).1 h).1.2 rfl

theorem withoutDead_wellFormed : a.withoutDead.WellFormed := ha.forgetAll a.dead

omit ha in
theorem initial_id_withoutDead : a.withoutDead.initial.id = a.initial.id :=
  State.id_foldl_forget a.dead a.initial

omit ha in
theorem initial_id_pruned : a.pruned.initial.id = a.initial.id :=
  (State.id_foldl_forget _ _).trans (State.id_foldl_forget _ _)

/-- A path to a live state loses nothing with the dead states. -/
theorem path_withoutDead (hw : a.Path p w q) (hq : q ∈ a.live) : a.withoutDead.Path p w q := by
  have hkept : ∀ {r : Nat}, r ∈ a.live → r ∉ a.dead := fun hr hd => ((mem_dead_iff ha).1 hd).2 hr
  induction hw with
  | nil p => exact .nil p
  | @cons p r q x w hr hw ih =>
    obtain ⟨v, s, hv, hf⟩ := (mem_live_iff ha).1 hq
    have hlive : r ∈ a.live := (mem_live_iff ha).2 ⟨w ++ v, s, hw.append hv, hf⟩
    have hplive : p ∈ a.live := (mem_live_iff ha).2 ⟨x :: (w ++ v), s, .cons hr (hw.append hv), hf⟩
    exact .cons ((mem_dests_forgetAll ha (initial_not_mem_dead ha)).2 ⟨hr, hkept hplive, hkept hlive⟩)
      (ih hq)

/-- A path from the initial state loses nothing with the states that cannot be
reached. -/
theorem reaches_withoutUnreachable : a.withoutUnreachable.Reaches w q ↔ a.Reaches w q := by
  have hroot := initial_not_mem_unreachable ha
  have hinitial : a.withoutUnreachable.initial.id = a.initial.id := State.id_foldl_forget _ _
  have hkept : ∀ {u r}, a.Reaches u r → r ∉ a.unreachable := fun hr hm =>
    ((mem_unreachable_iff ha).1 hm).2 ((mem_reachable_iff ha).2 ⟨_, hr⟩)
  constructor
  · intro h
    rw [Reaches, hinitial] at h
    exact path_of_forgetAll ha hroot h
  · intro h
    induction w using List.reverseRecOn generalizing q with
    | nil => exact reaches_nil_iff.2 ((reaches_nil_iff.1 h).trans hinitial.symm)
    | append_singleton w x ih =>
      obtain ⟨p, hp, hq⟩ := reaches_snoc_iff.1 h
      exact reaches_snoc_iff.2 ⟨p, ih hp, (mem_dests_forgetAll ha hroot).2 ⟨hq, hkept hp, hkept h⟩⟩

/-- A path from a state that a word leads to loses nothing with them either. -/
theorem path_withoutUnreachable {u : List Symbol} (hp : a.Reaches u p) (hw : a.Path p w q) :
    a.withoutUnreachable.Path p w q := by
  have hroot := initial_not_mem_unreachable ha
  have hkept : ∀ {u r}, a.Reaches u r → r ∉ a.unreachable := fun hr hm =>
    ((mem_unreachable_iff ha).1 hm).2 ((mem_reachable_iff ha).2 ⟨_, hr⟩)
  induction hw generalizing u with
  | nil p => exact .nil p
  | @cons p r q x w hr _ ih =>
    have hnext : a.Reaches (u ++ [x]) r := reaches_snoc_iff.2 ⟨p, hp, hr⟩
    exact .cons ((mem_dests_forgetAll ha hroot).2 ⟨hr, hkept hp, hkept hnext⟩) (ih hnext)

/-- What has a marker is not dead, so it keeps it where a word leads to it. -/
theorem markerOf?_pruned (hq : a.withoutDead.Reaches w q) (ht : a.markerOf? q = some t) :
    a.pruned.markerOf? q = some t := by
  have hd := withoutDead_wellFormed ha
  have hlive : q ∈ a.live := mem_live_of_final ha (by rw [ht]; rfl)
  have hdead : q ∉ a.dead := fun hm => ((mem_dead_iff ha).1 hm).2 hlive
  have hkept : q ∉ a.withoutDead.unreachable := fun hm =>
    ((mem_unreachable_iff hd).1 hm).2 ((mem_reachable_iff hd).2 ⟨w, hq⟩)
  have ht' := (markerOf?_forgetAll ha (initial_not_mem_dead ha)).2 ⟨ht, hdead⟩
  exact (markerOf?_forgetAll hd (initial_not_mem_unreachable hd)).2 ⟨ht', hkept⟩

/-- The same words lead to a state with a marker `t` as before. -/
theorem pruned_word_iff : (∃ q, a.pruned.Reaches w q ∧ a.pruned.markerOf? q = some t) ↔
    ∃ q, a.Reaches w q ∧ a.markerOf? q = some t := by
  have hd := withoutDead_wellFormed ha
  have hroot := initial_not_mem_dead ha
  have hroot' := initial_not_mem_unreachable hd
  constructor
  · rintro ⟨q, hq, ht⟩
    have hq' := (reaches_withoutUnreachable hd).1 hq
    rw [Reaches, initial_id_withoutDead] at hq'
    have ht' := ((markerOf?_forgetAll hd hroot').1 ht).1
    exact ⟨q, path_of_forgetAll ha hroot hq', ((markerOf?_forgetAll ha hroot).1 ht').1⟩
  · rintro ⟨q, hq, ht⟩
    have hlive : q ∈ a.live := mem_live_of_final ha (by rw [ht]; rfl)
    have hq' : a.withoutDead.Reaches w q := by
      rw [Reaches, initial_id_withoutDead]
      exact path_withoutDead ha hq hlive
    exact ⟨q, (reaches_withoutUnreachable hd).2 hq', markerOf?_pruned ha hq' ht⟩

/-- What leads back to the initial state is what did so before, if the initial
state is live. -/
theorem pruned_returns_iff (hlive : a.initial.id ∈ a.live) :
    a.pruned.Reaches w a.pruned.initial.id ↔ a.Reaches w a.initial.id := by
  have hd := withoutDead_wellFormed ha
  show a.withoutDead.withoutUnreachable.Reaches w _ ↔ _
  rw [reaches_withoutUnreachable hd, initial_id_pruned, Reaches, initial_id_withoutDead]
  exact ⟨path_of_forgetAll ha (initial_not_mem_dead ha), fun hw => path_withoutDead ha hw hlive⟩

/-- A move from the initial state to itself is not removed. -/
theorem pruned_loop {x : Symbol} (hx : a.initial.id ∈ a.dests a.initial.id x) :
    a.initial.id ∈ a.pruned.dests a.initial.id x := by
  have hd := withoutDead_wellFormed ha
  have hdead := initial_not_mem_dead ha
  have hunreachable : a.initial.id ∉ a.withoutDead.unreachable := by
    have hroot := initial_not_mem_unreachable hd
    rw [initial_id_withoutDead] at hroot
    exact hroot
  have hx' : a.initial.id ∈ a.withoutDead.dests a.initial.id x :=
    (mem_dests_forgetAll ha hdead).2 ⟨hx, hdead, hdead⟩
  exact (mem_dests_forgetAll hd (initial_not_mem_unreachable hd)).2 ⟨hx', hunreachable, hunreachable⟩

/-- If the initial state is not live, nothing is left but moves from it to
itself. -/
theorem pruned_reaches_of_not_live (hc : a.Closed) (hlive : a.initial.id ∉ a.live)
    (h : a.pruned.Reaches w q) : q = a.initial.id ∧ ∀ x ∈ w, a.Reaches [x] a.initial.id := by
  have hd := withoutDead_wellFormed ha
  have hroot := initial_not_mem_dead ha
  replace h := (reaches_withoutUnreachable hd).1 h
  induction w using List.reverseRecOn generalizing q with
  | nil =>
    refine ⟨(reaches_nil_iff.1 h).trans initial_id_withoutDead, fun x hx => ?_⟩
    cases hx
  | append_singleton w x ih =>
    obtain ⟨p, hp, hq⟩ := reaches_snoc_iff.1 h
    obtain ⟨rfl, hall⟩ := ih hp
    obtain ⟨hmove, -, hkept⟩ := (mem_dests_forgetAll ha hroot).1 hq
    -- a state left that is not the initial one is live, and so would be what leads to it
    obtain rfl : q = a.initial.id := by
      by_contra hne
      have hq' : q ∈ a.live := by
        by_contra hn
        exact hkept ((mem_dead_iff ha).2 ⟨⟨hc.mem_ids hmove, hne⟩, hn⟩)
      obtain ⟨v, r, hv, hf⟩ := (mem_live_iff ha).1 hq'
      exact hlive ((mem_live_iff ha).2 ⟨x :: v, r, .cons hmove hv, hf⟩)
    refine ⟨rfl, fun y hy => ?_⟩
    rcases List.mem_append.1 hy with hy | hy
    · exact hall y hy
    · rw [List.mem_singleton.1 hy]
      exact path_singleton_iff.2 hmove

theorem pruned_closed (hc : a.Closed) : a.pruned.Closed :=
  closed_forgetAll (withoutDead_wellFormed ha) (initial_not_mem_unreachable (withoutDead_wellFormed ha))
    (closed_forgetAll ha (initial_not_mem_dead ha) hc)

end Pruning
end Automaton
end TokenAutomata
