/-
# When a file has an automaton

Edits that make the automaton of a definition leave the label of the initial
state as it is (`Automaton.label_kept`), so the initial states of all these
automata have the same label and can be joined (`Automaton.define_joined`). A
file therefore has an automaton if no line is wrong and each definition has one
(`Automaton.ofLines_ok_iff`); what the definitions have in common does not
matter.

What joining the automaton of one more definition keeps holds of the automaton
of a file and of the definitions of its lines (`Automaton.ofLines_induction`).

Key theorems: `Automaton.label_kept`, `Automaton.define_joined`,
`Automaton.ofLines_ok_iff`, `Automaton.ofLines_induction`.
-/
import TokenAutomata.Proofs.FileDefinitions
import TokenAutomata.Proofs.Joining
import TokenAutomata.Proofs.KeptBySteps

namespace TokenAutomata
namespace Automaton

open Change (Keeps)

variable {a b c : Automaton} {d : Definition} {label : String}

/-! ### The label of the initial state -/

theorem label_keeps_insert (s : State) : Keeps (·.initial.label = label) (insert s) := by
  refine .of_atomic (insert_atomic s) fun a id b ha h => ?_
  obtain ⟨-, -, -, rfl⟩ := insert_eq_ok.1 h
  exact ha

theorem label_update {id : Nat} {f : State → State} (hf : ∀ s, (f s).label = s.label)
    (ha : a.initial.label = label) : (a.update id f).initial.label = label := by
  show (if a.initial.id = id then f a.initial else a.initial).label = label
  by_cases hid : a.initial.id = id
  · rw [if_pos hid, hf, ha]
  · rw [if_neg hid, ha]

/-- No step changes it. -/
theorem label_kept (label : String) : KeptBySteps (·.initial.label = label) where
  addState {a b name id} _ ha h := (label_keeps_insert (.new a.nextId name)).ok ha h
  setMarker _ ha h := by
    obtain ⟨-, rfl⟩ := setMarker_eq_ok.1 h
    exact label_update (fun _ => rfl) ha
  addTransition _ ha h := by
    obtain ⟨-, -, rfl⟩ := addTransition_eq_ok.1 h
    exact label_update (fun _ => rfl) ha
  forgetAll {a ids} _ ha _ := (State.label_foldl_forget ids a.initial).trans ha

theorem label_keeps_concat (other : Automaton) : Keeps (·.initial.label = label) (concat other) :=
  keeps_concat_of (fun _ _ _ a ha => label_keeps_insert _ a ha) fun _ _ ha => ha

/-! ### Joining definitions -/

/-- Joining the automaton of a definition never fails. -/
theorem define_joined (hwf : a.WellFormed) (hl : a.initial.label = rootLabel)
    (h : d.automaton = .ok b) : ∃ c, define a d = .ok c ∧ Joined a b (a.joinedId b) c ∧
      c.initial.label = rootLabel := by
  have hlabel : b.initial.label = rootLabel := ((label_kept rootLabel).compiling.definition ⟨withInitial_wellFormed _, rfl⟩ h).2
  obtain ⟨c, hrun, hjoined⟩ := concat_joined hwf (definition_wellFormed h) (hl.trans hlabel.symm)
  refine ⟨c, ?_, hjoined, (label_keeps_concat b).ok hl hrun⟩
  have hexec : (concat b).exec a = .ok c := Change.exec_eq_ok.2 ⟨(), hrun⟩
  exact except_bind_eq_ok.2 ⟨b, h, mapError_eq_ok.2 hexec⟩

theorem foldlM_define_ok_iff : ∀ {definitions : List (Located Definition)} {a : Automaton},
    a.WellFormed → a.initial.label = rootLabel → ((∃ c, definitions.foldlM
      (fun a d => (define a d.value).mapError (·.foundAt d.line)) a = .ok c) ↔
    ∀ d ∈ definitions.map Located.value, ∃ b : Automaton, d.automaton = .ok b)
  | [], a, _, _ => ⟨fun _ d hd => absurd hd List.not_mem_nil, fun _ => ⟨a, rfl⟩⟩
  | d :: rest, a, hwf, hl => by
    constructor
    · rintro ⟨c, h⟩
      rw [List.foldlM_cons] at h
      obtain ⟨a', ha', hrest⟩ := except_bind_eq_ok.1 h
      have hdefine := mapError_eq_ok.1 ha'
      obtain ⟨b, hb, -⟩ := except_bind_eq_ok.1 hdefine
      obtain ⟨c', hc', -, hl'⟩ := define_joined hwf hl hb
      obtain rfl : a' = c' := Except.ok.inj (hdefine.symm.trans hc')
      have hall := (foldlM_define_ok_iff (define_wellFormed hwf hdefine) hl').1 ⟨c, hrest⟩
      rw [List.map_cons, List.forall_mem_cons]
      exact ⟨⟨b, hb⟩, hall⟩
    · intro hall
      rw [List.map_cons, List.forall_mem_cons] at hall
      obtain ⟨⟨b, hb⟩, hrest⟩ := hall
      obtain ⟨a', ha', -, hl'⟩ := define_joined hwf hl hb
      obtain ⟨c, hc⟩ := (foldlM_define_ok_iff (define_wellFormed hwf ha') hl').2 hrest
      refine ⟨c, ?_⟩
      rw [List.foldlM_cons]
      exact except_bind_eq_ok.2 ⟨a', mapError_eq_ok.2 ha', hc⟩

/-- A file has an automaton if no line is wrong and every definition has one. -/
theorem ofLines_ok_iff {lines : List (List Char)} : (∃ n : Automaton, ofLines lines = .ok n) ↔
    (DefinitionFile.read lines).fault = none ∧
      ∀ d ∈ (DefinitionFile.read lines).definitions.map Located.value, ∃ b : Automaton, d.automaton = .ok b := by
  rw [← foldlM_define_ok_iff (withInitial_wellFormed rootLabel) rfl]
  constructor
  · rintro ⟨n, h⟩
    obtain ⟨c, hfold, hlast⟩ := except_bind_eq_ok.1 h
    cases hfault : (DefinitionFile.read lines).fault with
    | none => exact ⟨rfl, c, hfold⟩
    | some fault =>
      rw [hfault] at hlast
      cases hlast
  · rintro ⟨hfault, c, hfold⟩
    refine ⟨c, except_bind_eq_ok.2 ⟨c, hfold, ?_⟩⟩
    rw [hfault]
    rfl

/-- The same where the definitions are known. -/
theorem exists_ofLines {lines : List (List Char)} {definitions : List Definition}
    (hfault : (DefinitionFile.read lines).fault = none)
    (hread : (DefinitionFile.read lines).definitions.map Located.value = definitions)
    (hautomata : ∀ d ∈ definitions, ∃ b : Automaton, d.automaton = .ok b) : ∃ n : Automaton, ofLines lines = .ok n := by
  rw [← hread] at hautomata
  exact ofLines_ok_iff.2 ⟨hfault, hautomata⟩

/-! ### Definition by definition -/

section Induction

variable {P : List Definition → Automaton → Prop}
  (hstep : ∀ definitions a b c d, P definitions a → d.WellFormed → d.automaton = .ok b →
    a.WellFormed → Joined a b (a.joinedId b) c → P (definitions ++ [d]) c)

include hstep

theorem foldlM_define_induction : ∀ {rest : List (Located Definition)} {definitions : List Definition}
    {a c : Automaton}, P definitions a → a.WellFormed → a.initial.label = rootLabel →
    (∀ d ∈ rest.map Located.value, d.WellFormed) →
    rest.foldlM (fun a d => (define a d.value).mapError (·.foundAt d.line)) a = .ok c →
    P (definitions ++ rest.map Located.value) c
  | [], definitions, a, c, ha, _, _, _, h => by
    cases h
    simpa using ha
  | d :: rest, definitions, a, c, ha, hwf, hl, hall, h => by
    rw [List.map_cons, List.forall_mem_cons] at hall
    obtain ⟨hd, hrest⟩ := hall
    rw [List.foldlM_cons] at h
    obtain ⟨a', ha', hfold⟩ := except_bind_eq_ok.1 h
    have hdefine := mapError_eq_ok.1 ha'
    obtain ⟨b, hb, -⟩ := except_bind_eq_ok.1 hdefine
    obtain ⟨c', hc', hjoined, hl'⟩ := define_joined hwf hl hb
    obtain rfl : a' = c' := Except.ok.inj (hdefine.symm.trans hc')
    have hfirst : P (definitions ++ [d.value]) a' := hstep _ a b a' _ ha hd hb hwf hjoined
    have hlast := foldlM_define_induction hfirst hjoined.wellFormed hl' hrest hfold
    rw [List.append_assoc] at hlast
    exact hlast

theorem ofLines_induction (hnew : P [] new) {lines : List (List Char)} {n : Automaton}
    (h : ofLines lines = .ok n) :
    ∃ kinds, lines.map Line.classify = kinds.map .ok ∧ P (definitionsIn kinds) n := by
  obtain ⟨a, hfold, hlast⟩ := except_bind_eq_ok.1 h
  cases hfault : (DefinitionFile.read lines).fault with
  | some fault =>
    rw [hfault] at hlast
    cases hlast
  | none =>
    rw [hfault] at hlast
    cases hlast
    obtain ⟨kinds, hkinds, hread, hall⟩ := DefinitionFile.map_value_read hfault
    rw [← hread] at hall
    have hfile := foldlM_define_induction hstep hnew (withInitial_wellFormed _) rfl hall hfold
    rw [hread] at hfile
    exact ⟨kinds, hkinds, hfile⟩

end Induction
end Automaton
end TokenAutomata
