/-
# Ids in ascending order

A new state gets an id above all ids in use and comes behind all states, so in
an automaton made from a definition the ids ascend (`Automaton.ascending_kept`),
also after pruning has left gaps. Joining numbers the states on in their order.
So it puts all ids of the joined automaton above those that were there
(`Automaton.lt_joinedId`) and keeps their order (`Automaton.joinedId_lt`).

Key definitions: `Automaton.Ascending`.
Key theorems: `Automaton.ascending_kept`, `Automaton.lt_joinedId`,
`Automaton.joinedId_lt`.
-/
import TokenAutomata.Proofs.Joining
import TokenAutomata.Proofs.KeptBySteps

namespace TokenAutomata
namespace Automaton

/-- The states are listed in the order of their ids. -/
def Ascending (a : Automaton) : Prop := a.ids.Pairwise (· < ·)

variable {a b : Automaton} {p q : Nat}

/-! ### Steps that keep the order -/

theorem ids_forgetAll_sublist (a : Automaton) (ids : List Nat) : (a.forgetAll ids).ids.Sublist a.ids := by
  have hothers : (a.forgetAll ids).others.map (·.id) = (a.others.filter (·.id ∉ ids)).map (·.id) := by
    show ((a.others.filter (·.id ∉ ids)).map (ids.foldl State.forget)).map (·.id) = _
    rw [List.map_map]
    exact List.map_congr_left fun s _ => State.id_foldl_forget ids s
  have hinitial : (a.forgetAll ids).initial.id = a.initial.id := State.id_foldl_forget ids a.initial
  rw [ids_cons, ids_cons, hothers, hinitial]
  exact (List.filter_sublist.map _).cons_cons _

/-- A new state comes last and gets the highest id, so every step keeps the
order. -/
theorem ascending_kept : KeptBySteps Ascending where
  addState ha hids h := by
    obtain ⟨rfl, -, hnew, -⟩ := addState_effect ha h
    unfold Ascending
    rw [hnew]
    refine List.pairwise_append.2 ⟨hids, List.pairwise_singleton _ _, fun p hp q hq => ?_⟩
    rw [List.mem_singleton.1 hq]
    exact ha.lt_nextId p hp
  setMarker _ hids h := by
    obtain ⟨-, hsame, -⟩ := setMarker_effect h
    unfold Ascending
    rw [hsame]
    exact hids
  addTransition _ hids h := by
    obtain ⟨-, -, hsame, -⟩ := addTransition_effect h
    unfold Ascending
    rw [hsame]
    exact hids
  forgetAll _ hids _ := hids.sublist (ids_forgetAll_sublist _ _)

/-! ### Joining -/

/-- The joined automaton gets ids above those in use … -/
theorem lt_joinedId (ha : a.WellFormed) (hb : b.WellFormed) (hp : p ∈ a.ids) (hq : q ∈ b.ids)
    (hne : q ≠ b.initial.id) : p < a.joinedId b q := by
  have hlt := ha.lt_nextId p hp
  rcases mem_ids_cases hq with he | ⟨k, s, hs, rfl⟩
  · exact absurd he hne
  · rw [joinedId_others hb.nodup_ids hs]
    omega

/-- … in its own order. -/
theorem joinedId_lt (ha : a.WellFormed) (hb : b.WellFormed) (hids : b.Ascending) (hp : p ∈ b.ids)
    (hq : q ∈ b.ids) (hlt : p < q) : a.joinedId b p < a.joinedId b q := by
  have hroot := hb.initial_id
  rcases mem_ids_cases hq with rfl | ⟨k, t, ht, rfl⟩
  · omega
  rcases mem_ids_cases hp with rfl | ⟨j, s, hs, rfl⟩
  · rw [joinedId_initial]
    exact lt_joinedId ha hb (initial_mem_ids a) hq (by omega)
  · rw [joinedId_others hb.nodup_ids hs, joinedId_others hb.nodup_ids ht]
    -- the place of a state among the others is the order of its id
    have hothers : (b.others.map (·.id)).Pairwise (· < ·) := by
      unfold Ascending at hids
      rw [ids_cons] at hids
      exact (List.pairwise_cons.1 hids).2
    by_contra hle
    obtain ⟨hj, rfl⟩ := List.getElem?_eq_some_iff.1 hs
    obtain ⟨hk, rfl⟩ := List.getElem?_eq_some_iff.1 ht
    by_cases he : k = j
    · subst he
      omega
    · have hsorted := List.pairwise_iff_getElem.1 hothers k j (by simpa using hk) (by simpa using hj)
        (by omega)
      simp only [List.getElem_map] at hsorted
      omega

end Automaton
end TokenAutomata
