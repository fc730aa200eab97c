/-
# Runs of operations

A caller changes an automaton by one operation after the other, and goes on
after an operation that failed (`Automaton.afterAll`). What is given to an
operation was built before (`Operation.Allowed`).

No operation lowers the counter `nextId`, and a state that was not there gets
an id from the counter on (`Automaton.NumbersOn`). So an id that was forgotten
does not come back (`Automaton.NumbersOn.not_mem_ids`).

Key definitions: `Automaton.Operation`, `Automaton.afterAll`,
`Automaton.NumbersOn`.
Key theorems: `Automaton.KeptBySteps.operation`, `Automaton.Operation.numbersOn`,
`Automaton.numbersOn_afterAll`, `Automaton.NumbersOn.not_mem_ids`.
-/
import TokenAutomata.Proofs.Joining
import TokenAutomata.Proofs.KeptBySteps

namespace TokenAutomata
namespace Automaton

open Change (Keeps)

/-- A change in place that a caller can make. -/
inductive Operation where
  | addState (label : String)
  | addFinalState (label token : String)
  | addTransition (source : Nat) (x : Symbol) (target : Nat)
  | setMarker (id : Nat) (marker : Option String)
  | forgetState (id : Nat)
  | concat (other : Automaton)
  | removeDead
  | removeUnreachable
  | prune
  | editState (id : Nat) (e : State.Edit)

namespace Operation

/-- The edit; what it returns plays no part. -/
def edit : Operation → Edit Unit
  | .addState label => discard (Automaton.addState label)
  | .addFinalState label token => discard (Automaton.addFinalState label token)
  | .addTransition source x target => Automaton.addTransition source x target
  | .setMarker id marker => Automaton.setMarker id marker
  | .forgetState id => discard (Automaton.forgetState id)
  | .concat other => Automaton.concat other
  | .removeDead => discard Automaton.removeDead
  | .removeUnreachable => discard Automaton.removeUnreachable
  | .prune => discard Automaton.prune
  | .editState id e => discard (Automaton.editState id e)

/-- What is joined or merged in was built. -/
def Allowed : Operation → Prop
  | .concat other => other.Built
  | .editState _ e => ∀ o, e = .mergeMarker o ∨ e = .mergeMoves o → o.Built
  | _ => True

end Operation

/-- What a run of operations leaves behind; a run goes on after failures. -/
def afterAll (a : Automaton) (ops : List Operation) : Automaton :=
  ops.foldl (fun a op => op.edit.after a) a

variable {a b c : Automaton} {op : Operation} {ops : List Operation}

theorem Built.operate (ha : Built a) (hop : op.Allowed) : Built (op.edit.after a) := by
  cases op with
  | addState label => simpa only [Operation.edit, Change.after_discard] using ha.addState label
  | addFinalState label token => simpa only [Operation.edit, Change.after_discard] using ha.addFinalState label token
  | addTransition source x target => exact ha.addTransition source x target
  | setMarker id marker => exact ha.setMarker id marker
  | forgetState id => simpa only [Operation.edit, Change.after_discard] using ha.forgetState id
  | concat other => exact ha.concat hop
  | removeDead => simpa only [Operation.edit, Change.after_discard] using ha.removeDead
  | removeUnreachable => simpa only [Operation.edit, Change.after_discard] using ha.removeUnreachable
  | prune => simpa only [Operation.edit, Change.after_discard] using ha.prune
  | editState id e => simpa only [Operation.edit, Change.after_discard] using ha.editState id e hop

/-- What single steps keep is kept by an operation if joining and editing a
state keep it. -/
theorem KeptBySteps.operation {Q : Automaton → Prop} (hQ : KeptBySteps Q) (ha : a.WellFormed) (h : Q a)
    (hconcat : ∀ other, op = .concat other → Q ((Automaton.concat other).after a))
    (hedit : ∀ id e, op = .editState id e → Q ((editState id e).after a)) : Q (op.edit.after a) := by
  cases op with
  | addState label => exact ((hQ.keeps_addState label).discard a ⟨ha, h⟩).2
  | addFinalState label token => exact ((hQ.keeps_addFinalState label token).discard a ⟨ha, h⟩).2
  | addTransition source x target => exact (hQ.keeps_addTransition source x target a ⟨ha, h⟩).2
  | setMarker id marker => exact (hQ.keeps_setMarker id marker a ⟨ha, h⟩).2
  | forgetState id => exact ((hQ.keeps_forgetState id).discard a ⟨ha, h⟩).2
  | concat other => exact hconcat other rfl
  | removeDead => exact (hQ.keeps_removeDead.discard a ⟨ha, h⟩).2
  | removeUnreachable => exact (hQ.keeps_removeUnreachable.discard a ⟨ha, h⟩).2
  | prune => exact (hQ.keeps_prune.discard a ⟨ha, h⟩).2
  | editState id e =>
    rw [Operation.edit, Change.after_discard]
    exact hedit id e rfl

/-! ### Numbering on -/

/-- The counter was not lowered from `a` to `b`, and the ids that `b` has and
`a` has not are from the counter of `a` on. -/
structure NumbersOn (a b : Automaton) : Prop where
  nextId_le : a.nextId ≤ b.nextId
  mem_ids : ∀ id ∈ b.ids, id ∈ a.ids ∨ a.nextId ≤ id

theorem NumbersOn.refl (a : Automaton) : NumbersOn a a := ⟨Nat.le_refl _, fun _ hid => Or.inl hid⟩

theorem NumbersOn.trans (hab : NumbersOn a b) (hbc : NumbersOn b c) : NumbersOn a c := by
  refine ⟨Nat.le_trans hab.nextId_le hbc.nextId_le, fun id hid => ?_⟩
  rcases hbc.mem_ids id hid with hid | hle
  · exact hab.mem_ids id hid
  · exact Or.inr (Nat.le_trans hab.nextId_le hle)

theorem numbersOn_kept (a : Automaton) : KeptBySteps (NumbersOn a) where
  addState {b c label id} hb h hrun := by
    obtain ⟨rfl, -, hids, -⟩ := addState_effect hb hrun
    obtain ⟨-, -, -, rfl⟩ := insert_eq_ok.1
      (show insert (.new b.nextId label) b = .ok b.nextId c from hrun)
    refine ⟨Nat.le_trans h.nextId_le (Nat.le_max_left _ _), fun id hid => ?_⟩
    rw [hids, List.mem_append, List.mem_singleton] at hid
    rcases hid with hid | rfl
    · exact h.mem_ids id hid
    · exact Or.inr h.nextId_le
  setMarker _ h hrun := by
    obtain ⟨-, hids, -⟩ := setMarker_effect hrun
    obtain ⟨-, rfl⟩ := setMarker_eq_ok.1 hrun
    exact ⟨h.nextId_le, fun id hid => h.mem_ids id (hids ▸ hid)⟩
  addTransition _ h hrun := by
    obtain ⟨-, -, hids, -⟩ := addTransition_effect hrun
    obtain ⟨-, -, rfl⟩ := addTransition_eq_ok.1 hrun
    exact ⟨h.nextId_le, fun id hid => h.mem_ids id (hids ▸ hid)⟩
  forgetAll _ h hroot := ⟨h.nextId_le, fun id hid => h.mem_ids id ((mem_ids_forgetAll hroot).1 hid).1⟩

theorem keeps_nextId_adopt (n : Nat) (s : State) : Keeps (fun a => n ≤ a.nextId) (adopt s) := by
  have hinsert : ∀ t, Keeps (fun a => n ≤ a.nextId) (insert t) := fun t => by
    refine .of_atomic (insert_atomic t) fun a id b hn hrun => ?_
    obtain ⟨-, -, -, rfl⟩ := insert_eq_ok.1 hrun
    exact Nat.le_trans hn (Nat.le_max_left _ _)
  exact fun a hn => hinsert _ a hn

theorem keeps_nextId_concat (n : Nat) (other : Automaton) :
    Keeps (fun a => n ≤ a.nextId) (concat other) :=
  keeps_concat_of (fun _ _ _ => keeps_nextId_adopt n _) fun _ _ hn => hn

theorem numbersOn_concat (ha : a.WellFormed) (hb : b.WellFormed) :
    NumbersOn a ((concat b).after a) := by
  refine ⟨keeps_nextId_concat a.nextId b a (Nat.le_refl _), fun id hid => ?_⟩
  rcases concat_after ha hb with hsame | hjoined
  · rw [hsame] at hid
    exact Or.inl hid
  · rcases (hjoined.mem_ids id).1 hid with hid | ⟨p, hp, rfl⟩
    · exact Or.inl hid
    · -- a copy is numbered on; the initial state of `b` takes the place of the one of `a`
      rcases mem_ids_cases hp with rfl | ⟨k, s, hs, rfl⟩
      · rw [joinedId_initial]
        exact Or.inl (initial_mem_ids a)
      · rw [joinedId_others hb.nodup_ids hs]
        exact Or.inr (Nat.le_add_right _ _)

theorem numbersOn_editState (a : Automaton) (id : Nat) (e : State.Edit) :
    NumbersOn a ((editState id e).after a) := by
  rcases editState_after a id e with hsame | ⟨s, t, hs, ht, hafter⟩
  · rw [hsame]
    exact .refl a
  · rw [hafter]
    have hid : t.id = id := (State.id_edit ht).trans (id_of_state? hs)
    refine ⟨Nat.le_refl _, fun p hp => Or.inl ?_⟩
    rw [ids_update fun _ _ => hid] at hp
    exact hp

/-- One operation numbers on. -/
theorem Operation.numbersOn (ha : a.WellFormed) (hop : op.Allowed) : NumbersOn a (op.edit.after a) := by
  refine (numbersOn_kept a).operation ha (.refl a) (fun other he => ?_) fun id e _ => ?_
  · subst he
    exact numbersOn_concat ha hop.wellFormed
  · exact numbersOn_editState a id e

/-- So does a run of them. -/
theorem numbersOn_afterAll (ha : Built a) (hops : ∀ op ∈ ops, op.Allowed) :
    NumbersOn a (a.afterAll ops) := by
  induction ops generalizing a with
  | nil => exact .refl a
  | cons op ops ih =>
    have hop := hops op List.mem_cons_self
    have hrest : ∀ op' ∈ ops, op'.Allowed := fun op' hop' => hops op' (List.mem_cons_of_mem op hop')
    exact (Operation.numbersOn ha.wellFormed hop).trans (ih (ha.operate hop) hrest)

/-- An id that is no longer in use is below the counter, so it stays out of use. -/
theorem NumbersOn.not_mem_ids {id : Nat} (ha : a.WellFormed) (hab : NumbersOn a b)
    (hbc : NumbersOn b c) (hid : id ∈ a.ids) (hforgotten : id ∉ b.ids) : id ∉ c.ids := by
  intro hc
  have hlt : id < a.nextId := ha.lt_nextId id hid
  have hle : a.nextId ≤ b.nextId := hab.nextId_le
  rcases hbc.mem_ids id hc with hb | hb
  · exact hforgotten hb
  · -- it would be new in `c`, so from the counter of `b` on
    omega

end Automaton
end TokenAutomata
