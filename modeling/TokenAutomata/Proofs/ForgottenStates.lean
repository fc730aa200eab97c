/-
# Forgetting states

A state is forgotten with every move to it, and the others stay as they are. So
a word is read afterwards along the states along which it was read before, if
the forgotten one is not among them (`Automaton.acceptingRun_forgetAll`).

Which of two destinations is dropped first makes no difference, since a symbol
goes out of use when the last of its destinations does (`State.forget_comm`).

Key definitions: `Automaton.AcceptingRun`.
Key theorems: `State.forget_comm`, `Automaton.accepts_iff_run`,
`Automaton.acceptingRun_forgetAll`, `Automaton.forgetState_avoids`.
-/
import TokenAutomata.Proofs.PrunedStates

namespace TokenAutomata

/-! ### Without two destinations -/

theorem IdSet.erase_comm (s : IdSet) (p q : Nat) : (s.erase p).erase q = (s.erase q).erase p := by
  ext x
  rw [mem_erase, mem_erase, mem_erase, mem_erase, and_right_comm]

/-- An entry without destinations is dropped sooner or later. -/
theorem Moves.filter_map_erase (q : Nat) : ∀ entries : List (Symbol × IdSet),
    ((entries.filter (!·.2.isEmpty)).map fun e => (e.1, e.2.erase q)).filter (!·.2.isEmpty) =
      (entries.map fun e => (e.1, e.2.erase q)).filter (!·.2.isEmpty)
  | [] => rfl
  | (x, ids) :: rest => by
    have ih := filter_map_erase q rest
    by_cases hids : ids = ∅
    · subst hids
      have hempty : (∅ : IdSet).erase q = ∅ := IdSet.ext fun p => by simp
      rw [List.map_cons, hempty, List.filter_cons_of_neg (by simp [IdSet.isEmpty]),
        List.filter_cons_of_neg (by simp [IdSet.isEmpty]), ih]
    · have hused : ids.isEmpty = false := by
        rw [← Bool.not_eq_true, IdSet.isEmpty_iff]
        exact hids
      rw [List.filter_cons_of_pos (by simp [hused]), List.map_cons, List.map_cons, List.filter_cons,
        List.filter_cons, ih]

/-- Destinations can be dropped in either order; the symbols left keep theirs. -/
theorem Moves.forget_comm (m : Moves) (p q : Nat) : (m.forget p).forget q = (m.forget q).forget p := by
  have hboth : ∀ p q, ((m.forget p).forget q).entries =
      (m.entries.map fun e => (e.1, (e.2.erase p).erase q)).filter (!·.2.isEmpty) := by
    intro p q
    rw [forget, forget, filter_map_erase, List.map_map]
    rfl
  have hentries : ((m.forget p).forget q).entries = ((m.forget q).forget p).entries := by
    simp only [hboth, IdSet.erase_comm _ p q]
  exact congrArg mk hentries

theorem State.forget_comm (s : State) (p q : Nat) : (s.forget p).forget q = (s.forget q).forget p := by
  simp only [forget, Moves.forget_comm s.moves p q]

namespace Automaton

variable {a : Automaton} {ids more : List Nat} {id p : Nat} {w : List Symbol}

/-! ### Runs to a marker -/

/-- The word can be read along the states `ids`, from the initial one to one
with a marker. -/
structure AcceptingRun (a : Automaton) (w : List Symbol) (ids : List Nat) : Prop where
  run : a.Run a.initial.id w ids
  exist : ∀ p ∈ ids, p ∈ a.ids
  final : ∃ q, ids.getLast? = some q ∧ (a.markerOf? q).isSome

/-- A run leads on from existing states only, so where its end exists, all of it
does. -/
theorem Run.mem_ids {q : Nat} (h : a.Run p w ids) (hlast : ids.getLast? = some q) (hq : q ∈ a.ids) :
    ∀ r ∈ ids, r ∈ a.ids := by
  induction h with
  | nil p =>
    obtain rfl : p = q := Option.some.inj hlast
    exact fun r hr => List.mem_singleton.1 hr ▸ hq
  | @cons p p' x w ids hx hrun ih =>
    have hrest : ids.getLast? = some q := by
      cases hrun with
      | nil => exact hlast
      | cons => exact hlast
    intro r hr
    rcases List.mem_cons.1 hr with rfl | hr
    · exact mem_ids_of_mem_dests hx
    · exact ih hrest r hr

theorem accepts_iff_run : a.accepts w = true ↔ ∃ ids, a.AcceptingRun w ids := by
  rw [accepts_iff]
  constructor
  · rintro ⟨q, hq, hf⟩
    obtain ⟨ids, hrun, hlast⟩ := path_iff_run.1 hq
    exact ⟨ids, hrun, hrun.mem_ids hlast (mem_ids_of_markerOf? hf), q, hlast, hf⟩
  · rintro ⟨ids, hrun, -, q, hlast, hf⟩
    exact ⟨q, path_iff_run.2 ⟨ids, hrun, hlast⟩, hf⟩

section Avoiding

variable (ha : a.WellFormed) (hroot : a.initial.id ∉ more)

include ha hroot

theorem run_forgetAll (hp : p ∉ more) :
    (a.forgetAll more).Run p w ids ↔ a.Run p w ids ∧ ∀ q ∈ ids, q ∉ more := by
  constructor
  · intro h
    induction h with
    | nil p => exact ⟨.nil p, fun q hq => List.mem_singleton.1 hq ▸ hp⟩
    | cons hx _ ih =>
      obtain ⟨hx, hp, hnext⟩ := (mem_dests_forgetAll ha hroot).1 hx
      obtain ⟨hrun, havoid⟩ := ih hnext
      refine ⟨.cons hx hrun, fun q hq => ?_⟩
      rcases List.mem_cons.1 hq with rfl | hq
      · exact hp
      · exact havoid q hq
  · rintro ⟨h, havoid⟩
    induction h with
    | nil p => exact .nil p
    | cons hx hrun ih =>
      have hrest := fun q hq => havoid q (List.mem_cons_of_mem _ hq)
      -- a run passes through the state it starts from
      have hnext := hrest _ (by cases hrun <;> exact List.mem_cons_self)
      exact .cons ((mem_dests_forgetAll ha hroot).2 ⟨hx, hp, hnext⟩) (ih hnext hrest)

/-- What is read without some states is read along the others. -/
theorem acceptingRun_forgetAll :
    (a.forgetAll more).AcceptingRun w ids ↔ a.AcceptingRun w ids ∧ ∀ q ∈ ids, q ∉ more := by
  have hinitial : (a.forgetAll more).initial.id = a.initial.id := State.id_foldl_forget more a.initial
  constructor
  · rintro ⟨hrun, hexist, q, hlast, hf⟩
    rw [hinitial, run_forgetAll ha hroot hroot] at hrun
    have hmem := fun p hp => (mem_ids_forgetAll hroot).1 (hexist p hp)
    exact ⟨⟨hrun.1, fun p hp => (hmem p hp).1, q, hlast, ((final_forgetAll ha hroot).1 hf).1⟩, hrun.2⟩
  · rintro ⟨⟨hrun, hexist, q, hlast, hf⟩, havoid⟩
    refine ⟨?_, fun p hp => (mem_ids_forgetAll hroot).2 ⟨hexist p hp, havoid p hp⟩, q, hlast, ?_⟩
    · rw [hinitial]
      exact (run_forgetAll ha hroot hroot).2 ⟨hrun, havoid⟩
    · exact (final_forgetAll ha hroot).2 ⟨hf, havoid q (List.mem_of_getLast? hlast)⟩

end Avoiding

/-! ### One state -/

theorem forgetState_ok {s : State} (hs : a.state? id = some s) (hne : id ≠ a.initial.id) :
    forgetState id a = .ok s (a.forgetAll [id]) := by
  refine forgetState_eq_ok.2 ⟨hne, ?_, rfl⟩
  rw [state?, states, List.find?_cons_of_neg (by simpa using hne.symm)] at hs
  exact hs

/-- A state other than the initial one can be forgotten. Then the words are
accepted that were before, along states among which it is not. The other states
stay in their order, each without its moves to the one that is gone. -/
theorem forgetState_avoids (ha : Built a) (hid : id ∈ a.ids) (hne : id ≠ a.initial.id) :
    ∃ s b, forgetState id a = .ok s b ∧ a.state? id = some s ∧
      (∀ w, b.accepts w = true ↔ ∃ ids, a.AcceptingRun w ids ∧ id ∉ ids) ∧
      List.Forall₂ (State.Stripped (· = id)) (a.states.filter (·.id ≠ id)) b.states := by
  have hwf := ha.wellFormed
  have hroot : a.initial.id ∉ [id] := fun h => hne (List.mem_singleton.1 h).symm
  obtain ⟨s, hs⟩ := mem_ids_iff.1 hid
  refine ⟨s, a.forgetAll [id], forgetState_ok hs hne, hs, fun w => ?_, ?_⟩
  · rw [accepts_iff_run]
    refine exists_congr fun ids => ?_
    rw [acceptingRun_forgetAll hwf hroot]
    refine and_congr_right fun _ => ?_
    simp only [List.mem_singleton]
    exact ⟨fun h hmem => h id hmem rfl, fun h q hq he => h (he ▸ hq)⟩
  · have hstripped := forgetAll_stripped hwf hroot
    simpa only [List.mem_singleton] using hstripped

/-- On `a` it leads to 1 and to 2, and on from each of them to 3. A move of 1
leads to a missing state. -/
def twoWays : Automaton :=
  (editState 1 (.addMove 'x' 9)).after <| (addTransition 2 'c' 3).after <| (addTransition 1 'b' 3).after <|
    (addTransition 0 'a' 2).after <| (addTransition 0 'a' 1).after <| (addFinalState "C" "C").after <|
      (addState "B").after <| (addState "A").after (withInitial rootLabel)

theorem twoWays_avoids : Built twoWays ∧ 2 ∈ twoWays.ids ∧ 2 ≠ twoWays.initial.id ∧
    ∃ s b, forgetState 2 twoWays = .ok s b ∧ b.accepts ['a', 'b'] = true ∧ b.accepts ['a', 'c'] = false := by
  have hbuilt : Built twoWays := .editState 1 (.addMove 'x' 9) (.addTransition 2 'c' 3 <|
    .addTransition 1 'b' 3 <| .addTransition 0 'a' 2 <| .addTransition 0 'a' 1 <| .addFinalState "C" "C" <|
      .addState "B" <| .addState "A" <| .withInitial rootLabel) (by rintro o (h | h) <;> cases h)
  have hid : 2 ∈ twoWays.ids := by decide
  have hne : 2 ≠ twoWays.initial.id := by decide
  obtain ⟨s, b, hb, -, haccepts, -⟩ := forgetState_avoids hbuilt hid hne
  have hother : twoWays.AcceptingRun ['a', 'b'] [0, 1, 3] :=
    ⟨.cons (by decide) (.cons (by decide) (.nil 3)), by decide, 3, rfl, by decide⟩
  refine ⟨hbuilt, hid, hne, s, b, hb, (haccepts _).2 ⟨[0, 1, 3], hother, by decide⟩, ?_⟩
  obtain ⟨-, -, rfl⟩ := forgetState_eq_ok.1 hb
  decide

end Automaton
end TokenAutomata
