/-
# Properties kept by single steps

The edits are made of few steps: a state is added, a marker set, a move added,
and states other than the initial one are removed with the moves to them. A
property of well-formed automata that each of these keeps where it succeeds
(`Automaton.KeptBySteps`) is kept by the edits made of them, however they end.

Key definitions: `Automaton.KeptBySteps`.
Key theorems: `Automaton.KeptBySteps.compiling`,
`Automaton.KeptBySteps.keeps_forgetState`, `Automaton.closed_kept`.
-/
import TokenAutomata.Proofs.Built
import TokenAutomata.Proofs.EditEffects
import TokenAutomata.Proofs.Pruning

namespace TokenAutomata
namespace Automaton

open Change (Keeps)

/-- Kept by every step that succeeds on a well-formed automaton. -/
structure KeptBySteps (Q : Automaton → Prop) : Prop where
  addState : ∀ {a b : Automaton} {label : String} {id : Nat}, a.WellFormed → Q a →
    addState label a = .ok id b → Q b
  setMarker : ∀ {a b : Automaton} {id : Nat} {marker : Option String} {u : Unit}, a.WellFormed →
    Q a → setMarker id marker a = .ok u b → Q b
  addTransition : ∀ {a b : Automaton} {source target : Nat} {x : Symbol} {u : Unit}, a.WellFormed →
    Q a → addTransition source x target a = .ok u b → Q b
  forgetAll : ∀ {a : Automaton} {ids : List Nat}, a.WellFormed → Q a → a.initial.id ∉ ids →
    Q (a.forgetAll ids)

namespace KeptBySteps

variable {Q : Automaton → Prop} (hQ : KeptBySteps Q)

include hQ

theorem keeps_addState (label : String) :
    Keeps (fun a => a.WellFormed ∧ Q a) (Automaton.addState label) := by
  refine .of_atomic (addState_atomic label) fun a id b h hrun => ?_
  exact ⟨(Automaton.keeps_addState label).ok h.1 hrun, hQ.addState h.1 h.2 hrun⟩

theorem keeps_setMarker (id : Nat) (marker : Option String) :
    Keeps (fun a => a.WellFormed ∧ Q a) (Automaton.setMarker id marker) := by
  refine .of_atomic (setMarker_atomic id marker) fun a u b h hrun => ?_
  exact ⟨(Automaton.keeps_setMarker id marker).ok h.1 hrun, hQ.setMarker h.1 h.2 hrun⟩

theorem keeps_addTransition (source : Nat) (x : Symbol) (target : Nat) :
    Keeps (fun a => a.WellFormed ∧ Q a) (Automaton.addTransition source x target) := by
  refine .of_atomic (addTransition_atomic source x target) fun a u b h hrun => ?_
  exact ⟨(Automaton.keeps_addTransition source x target).ok h.1 hrun, hQ.addTransition h.1 h.2 hrun⟩

theorem keeps_addFinalState (label token : String) :
    Keeps (fun a => a.WellFormed ∧ Q a) (addFinalState label token) :=
  (hQ.keeps_addState label).bind fun id => (hQ.keeps_setMarker id (some token)).bind fun _ => .pure id

theorem keeps_forgetState (id : Nat) : Keeps (fun a => a.WellFormed ∧ Q a) (forgetState id) := by
  refine .of_atomic (forgetState_atomic id) fun a s b h hrun => ?_
  obtain ⟨hne, -, rfl⟩ := forgetState_eq_ok.1 hrun
  have hroot : a.initial.id ∉ [id] := fun hm => hne (List.mem_singleton.1 hm).symm
  exact ⟨h.1.forgetAll [id], hQ.forgetAll h.1 h.2 hroot⟩

theorem keeps_removeDead : Keeps (fun a => a.WellFormed ∧ Q a) removeDead := fun a h =>
  ⟨h.1.forgetAll a.dead, hQ.forgetAll h.1 h.2 (initial_not_mem_dead h.1)⟩

theorem keeps_removeUnreachable : Keeps (fun a => a.WellFormed ∧ Q a) removeUnreachable := fun a h =>
  ⟨h.1.forgetAll a.unreachable, hQ.forgetAll h.1 h.2 (initial_not_mem_unreachable h.1)⟩

theorem keeps_prune : Keeps (fun a => a.WellFormed ∧ Q a) prune :=
  hQ.keeps_removeDead.bind fun _ => hQ.keeps_removeUnreachable.bind fun _ => .pure _

/-- So definitions are made into automata of which it holds. -/
theorem compiling : KeptByCompiling fun a => a.WellFormed ∧ Q a where
  addState := hQ.keeps_addState
  addFinalState := hQ.keeps_addFinalState
  addTransition := hQ.keeps_addTransition
  setMarker := hQ.keeps_setMarker
  prune := hQ.keeps_prune

end KeptBySteps

/-- No step makes a move that leads to a missing state. -/
theorem closed_kept : KeptBySteps Closed where
  addState {a b label id} ha hc h := by
    obtain ⟨-, -, hids, hdests, -⟩ := addState_effect ha h
    refine closed_of_dests ((keeps_addState label).ok ha h) fun p x q hq => ?_
    rw [hdests] at hq
    rw [hids]
    exact List.mem_append_left _ (hc.mem_ids hq)
  setMarker {a b id marker u} ha hc h := by
    obtain ⟨-, hids, hdests, -⟩ := setMarker_effect h
    refine closed_of_dests ((keeps_setMarker id marker).ok ha h) fun p x q hq => ?_
    rw [hdests] at hq
    rw [hids]
    exact hc.mem_ids hq
  addTransition {a b source target x u} ha hc h := by
    obtain ⟨-, htarget, hids, hdests, -⟩ := addTransition_effect h
    refine closed_of_dests ((keeps_addTransition source x target).ok ha h) fun p y q hq => ?_
    rw [hids]
    rcases (hdests p y q).1 hq with hq | ⟨-, -, rfl⟩
    · exact hc.mem_ids hq
    · exact htarget
  forgetAll ha hc hroot := closed_forgetAll ha hroot hc

end Automaton
end TokenAutomata
