/-
# Determinization reads what can be reached

The sets that determinization reaches hold nothing but states that can be
reached (`Automaton.mem_reachable_of_mem_reachedSets`). So two automata that
have these states in common (`Automaton.SameReached`) reach the same sets in the
same order, and make the same state of each (`Automaton.determinize_congr`).

A state that can be reached leads to such states only, so it is left as it is
when the others are removed, and all its moves with it
(`Automaton.sameReached_withoutUnreachable`). What is removed has then no part
in the result, neither in its numbering nor in its labels
(`Automaton.determinize_withoutUnreachable`).

Key definitions: `Automaton.SameReached`.
Key theorems: `State.foldl_forget_eq_self`,
`Automaton.mem_reachable_of_mem_reachedSets`, `Automaton.reachedSets_congr`,
`Automaton.determinize_congr`, `Automaton.sameReached_withoutUnreachable`,
`Automaton.determinize_withoutUnreachable`.
-/
import TokenAutomata.Proofs.DeterminizedStates
import TokenAutomata.Proofs.PrunedStates

namespace TokenAutomata

/-! ### Nothing to forget -/

theorem IdSet.erase_of_not_mem {s : IdSet} {x : Nat} (h : x ∉ s) : s.erase x = s := by
  ext q
  rw [mem_erase]
  exact ⟨And.left, fun hq => ⟨hq, fun he => h (he ▸ hq)⟩⟩

/-- Moves that do not lead to `id` are not changed by its removal. -/
theorem Moves.forget_eq_self {m : Moves} (hm : m.WellFormed) {id : Nat} (h : id ∉ m.targets) :
    m.forget id = m := by
  have herase : m.entries.map (fun e => (e.1, e.2.erase id)) = m.entries := by
    refine (List.map_congr_left fun e he => ?_).trans (List.map_id _)
    rw [IdSet.erase_of_not_mem fun hid => h (List.mem_flatMap.2 ⟨e, he, hid⟩)]
    rfl
  have hkept : m.entries.filter (!·.2.isEmpty) = m.entries := by
    refine List.filter_eq_self.2 fun e he => ?_
    rw [Bool.not_eq_true', ← Bool.not_eq_true, IdSet.isEmpty_iff]
    exact hm.nonempty e he
  rw [forget, herase, hkept]

theorem State.foldl_forget_eq_self {s : State} (hs : s.WellFormed) : ∀ {ids : List Nat},
    (∀ id ∈ ids, id ∉ s.moves.targets) → ids.foldl forget s = s
  | [], _ => rfl
  | id :: ids, h => by
    have hstep : s.forget id = s := by
      rw [forget, Moves.forget_eq_self hs.moves (h id List.mem_cons_self)]
    rw [List.foldl_cons, hstep]
    exact foldl_forget_eq_self hs fun q hq => h q (List.mem_cons_of_mem _ hq)

namespace Automaton

variable {a b d : Automaton} {set : IdSet} {p q : Nat}

/-! ### Automata with the same reachable states -/

/-- The states that can be reached in `a` are there in `b`, the initial one
among them in its place. -/
structure SameReached (a b : Automaton) : Prop where
  initial_id : b.initial.id = a.initial.id
  state : ∀ q ∈ a.reachable, b.state? q = a.state? q

theorem initial_mem_reachable (a : Automaton) : a.initial.id ∈ a.reachable :=
  mem_search_of_start (List.mem_singleton_self _)

theorem SameReached.initial_eq (h : SameReached a b) : b.initial = a.initial := by
  have hroot := h.state _ a.initial_mem_reachable
  rw [state?_initial, ← h.initial_id, state?_initial] at hroot
  exact Option.some.inj hroot

theorem mem_reachable_of_mem_reachedSets (ha : a.WellFormed) (hset : set ∈ a.reachedSets) (hq : q ∈ set) :
    q ∈ a.reachable := by
  obtain ⟨-, w, rfl⟩ := (mem_reachedSets_iff ha).1 hset
  exact (mem_reachable_iff ha).2 ⟨w, mem_statesAfter.1 hq⟩

section Congr

variable (ha : a.WellFormed) (h : SameReached a b)

include ha h

/-- A set that is reached has the same states in both. -/
theorem statesOf_congr (hset : set ∈ a.reachedSets) : b.statesOf set = a.statesOf set :=
  List.filterMap_congr fun _ hq => h.state _ (mem_reachable_of_mem_reachedSets ha hset hq)

theorem jointMoves_congr (hset : set ∈ a.reachedSets) : b.jointMoves set = a.jointMoves set := by
  rw [jointMoves, statesOf_congr ha h hset, jointMoves]

theorem reachedSets_congr : b.reachedSets = a.reachedSets := by
  rw [reachedSets, h.initial_id]
  refine search_congr fun set hset => ?_
  rw [successorSets, jointMoves_congr ha h hset, successorSets]

theorem subsetState_congr (hset : set ∈ a.reachedSets) (sets : List IdSet) (id : Nat) :
    b.subsetState sets set id = a.subsetState sets set id := by
  rw [subsetState, statesOf_congr ha h hset, jointMoves_congr ha h hset, subsetState]

/-- Determinization makes the same of both. -/
theorem determinize_congr (hva : a.validate = .ok ()) (hvb : b.validate = .ok ()) :
    b.determinize = a.determinize := by
  have hstates : addSubsetStates b a.reachedSets = addSubsetStates a a.reachedSets := by
    refine Change.forM_congr fun x hx => ?_
    have hset : x.1 ∈ a.reachedSets := List.fst_mem_of_mem_zipIdx hx
    dsimp only
    rw [subsetState_congr ha h hset]
  rw [determinize, determinize, hva, hvb, reachedSets_congr ha h, hstates, h.initial_eq]

end Congr

/-! ### Without what cannot be reached -/

/-- A state that can be reached stays, with all its moves. -/
theorem sameReached_withoutUnreachable (ha : a.WellFormed) (hc : a.Closed) :
    SameReached a a.withoutUnreachable where
  initial_id := State.id_foldl_forget _ _
  state q hq := by
    have hroot := initial_not_mem_unreachable ha
    have hkept : ∀ {r}, r ∈ a.reachable → r ∉ a.unreachable := fun hr hm =>
      ((mem_unreachable_iff ha).1 hm).2 hr
    obtain ⟨w, hw⟩ := (mem_reachable_iff ha).1 hq
    obtain ⟨s, hs⟩ := mem_ids_iff.1 (hw.mem_ids hc)
    have hmem := mem_states_of_state? hs
    -- the moves of a reachable state lead to reachable states
    have hstrip : a.unreachable.foldl State.forget s = s := by
      refine State.foldl_forget_eq_self (ha.states s hmem) fun r hr htarget => hkept ?_ hr
      refine mem_search_of_next hq ?_
      rw [successors, hs]
      exact htarget
    have hid := id_of_state? hs
    have hstays : s ∈ a.withoutUnreachable.states :=
      (mem_states_forgetAll hroot).2 ⟨s, hmem, hid.symm ▸ hkept hq, hstrip⟩
    rw [hs]
    exact (state?_eq_some_iff (ha.forgetAll a.unreachable).nodup_ids).2 ⟨hstays, hid⟩

theorem mem_ids_withoutUnreachable (ha : a.WellFormed) (hc : a.Closed) :
    p ∈ a.withoutUnreachable.ids ↔ ∃ w, a.Reaches w p := by
  have hgone : ∀ p, p ∈ a.unreachable ↔ p ∈ a.ids ∧ p ≠ a.initial.id ∧ ¬ ∃ w, a.Reaches w p := fun p => by
    rw [mem_unreachable_iff ha, mem_reachable_iff ha, and_assoc]
  rw [withoutUnreachable, mem_ids_of_removal hgone fun p ⟨w, hw⟩ => hw.mem_ids hc]
  refine or_iff_right_of_imp fun he => ⟨[], ?_⟩
  exact reaches_nil_iff.2 he

/-- The states that no word leads to have no part in the determinized
automaton: it is the same after they have been removed. -/
theorem determinize_withoutUnreachable (ha : Built a) (hv : a.validate = .ok ()) :
    ∃ n b d, removeUnreachable a = .ok n b ∧ (∀ p, p ∈ b.ids ↔ ∃ w, a.Reaches w p) ∧
      a.determinize = .ok d ∧ b.determinize = .ok d := by
  have hwf := ha.wellFormed
  have hc : a.Closed := validate_eq_ok_iff.1 hv
  have hclosed : a.withoutUnreachable.Closed := closed_forgetAll hwf (initial_not_mem_unreachable hwf) hc
  obtain ⟨d, hd, -⟩ := determinize_states hv
  refine ⟨a.unreachable.length, a.withoutUnreachable, d, rfl,
    fun p => mem_ids_withoutUnreachable hwf hc, hd, ?_⟩
  rw [determinize_congr hwf (sameReached_withoutUnreachable hwf hc) hv (validate_eq_ok_iff.2 hclosed), hd]

/-- On `a` it leads to 1 and to 2, which together are named `q1`. So is the
state 3, to which nothing leads, and which has a move to 1. -/
def nameOffReach : Automaton :=
  (addTransition 3 'b' 1).after <| (addTransition 0 'a' 2).after <| (addTransition 0 'a' 1).after <|
    (addFinalState "q1" "C").after <| (addFinalState "B" "B").after <| (addState "A").after
      (withInitial rootLabel)

theorem nameOffReach_determinize : Built nameOffReach ∧ nameOffReach.validate = .ok () ∧
    ∃ n b d, removeUnreachable nameOffReach = .ok n b ∧ 3 ∉ b.ids ∧
      nameOffReach.determinize = .ok d ∧ b.determinize = .ok d := by
  have hbuilt : Built nameOffReach := .addTransition 3 'b' 1 <| .addTransition 0 'a' 2 <|
    .addTransition 0 'a' 1 <| .addFinalState "q1" "C" <| .addFinalState "B" "B" <| .addState "A" <|
      .withInitial rootLabel
  have hvalid : nameOffReach.validate = .ok () := by decide
  obtain ⟨n, b, d, hb, hids, hd, hd'⟩ := determinize_withoutUnreachable hbuilt hvalid
  refine ⟨hbuilt, hvalid, n, b, d, hb, fun hthree => ?_, hd, hd'⟩
  obtain ⟨w, hw⟩ := (hids 3).1 hthree
  rcases w.eq_nil_or_concat with rfl | ⟨v, x, rfl⟩
  · exact absurd (reaches_nil_iff.1 hw) (by decide)
  · rw [List.concat_eq_append] at hw
    obtain ⟨q, -, hq⟩ := reaches_snoc_iff.1 hw
    exact absurd (mem_targets_of_mem_dests hq) (by decide)

end Automaton
end TokenAutomata
