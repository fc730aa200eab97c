/-
# Automata without edited states

Moves may lead to missing states only where states were edited in place. What is
made without that (`Automaton.Sealed`) is closed: each way to make an automaton
closes it, and each other operation keeps it closed.

Key definitions: `Automaton.Made`, `Automaton.Sealed`.
Key theorems: `Automaton.Made.closed`, `Automaton.Operation.closed`,
`Automaton.Sealed.closed`.
-/
import TokenAutomata.Proofs.Operations
import TokenAutomata.Proofs.Trim

namespace TokenAutomata
namespace Automaton

variable {a d : Automaton} {op : Operation}

/-- Made in one go, from nothing, a text, rules, lines or a file. -/
inductive Made : Automaton → Prop
  | withInitial (label : String) : Made (.withInitial label)
  | ofLiteral {token : String} {literal : List Symbol} {a : Automaton} :
      ofLiteral token literal = .ok a → Made a
  | ofWord {word : List Symbol} {a : Automaton} : ofWord word = .ok a → Made a
  | ofRules {rules : List Rule} {a : Automaton} : ofRules rules = .ok a → Made a
  | ofRuleLines {lines : List (List Char)} {a : Automaton} : ofRuleLines lines = .ok a → Made a
  | ofLines {lines : List (List Char)} {a : Automaton} : ofLines lines = .ok a → Made a
  | load {file : Json.Bytes} {a : Automaton} : load file = .ok a → Made a

/-- What a caller can get without editing states in place. -/
inductive Sealed : Automaton → Prop
  | made {a : Automaton} : Made a → Sealed a
  | determinize {a d : Automaton} : Sealed a → a.determinize = .ok d → Sealed d
  | operate {a : Automaton} {op : Operation} : Sealed a → (∀ id e, op ≠ .editState id e) →
      (∀ other, op = .concat other → Sealed other) → Sealed (op.edit.after a)

theorem Made.built (h : Made a) : Built a := by
  cases h with
  | withInitial label => exact .withInitial label
  | ofLiteral h => exact .ofLiteral h
  | ofWord h => exact .ofWord h
  | ofRules h => exact .ofRules h
  | ofRuleLines h => exact .ofRuleLines h
  | ofLines h => exact .ofLines h
  | load h => exact .load h

theorem Sealed.built (h : Sealed a) : Built a := by
  induction h with
  | made h => exact h.built
  | determinize _ h ih => exact .determinize ih h
  | @operate a op _ hedit _ ih iho =>
    refine ih.operate ?_
    cases op with
    | concat other => exact iho other rfl
    | editState id e => exact absurd rfl (hedit id e)
    | _ => trivial

theorem validate_of_table {t : StoredTable} (h : t.automaton = .ok a) : a.validate = .ok () := by
  unfold StoredTable.automaton at h
  split at h
  · cases h
  · obtain ⟨b, -, h⟩ := except_bind_eq_ok.1 h
    obtain ⟨u, hv, h⟩ := except_bind_eq_ok.1 h
    cases h
    exact mapError_eq_ok.1 hv

theorem Made.closed (h : Made a) : a.Closed := by
  have hnew : new.WellFormed ∧ new.Closed := ⟨withInitial_wellFormed _, withInitial_closed _⟩
  have hcompiling := closed_kept.compiling
  cases h with
  | withInitial label => exact withInitial_closed label
  | ofLiteral h => exact (hcompiling.ofLiteral hnew h).2
  | ofWord h => exact (hcompiling.ofLiteral hnew h).2
  | ofRules h => exact (hcompiling.ofRules hnew h).2
  | ofRuleLines h =>
    obtain ⟨rules, -, ha⟩ := except_bind_eq_ok.1 h
    exact (hcompiling.ofRules hnew ha).2
  | ofLines h => exact (ofLines_trim h).1
  | load h =>
    unfold Automaton.load at h
    split at h
    · cases h
    · exact validate_eq_ok_iff.1 (validate_of_table h)

/-- One operation that edits no state in place. -/
theorem Operation.closed (ha : a.WellFormed) (hc : a.Closed) (hedit : ∀ id e, op ≠ .editState id e)
    (hother : ∀ other, op = .concat other → other.WellFormed ∧ other.Closed) :
    (op.edit.after a).Closed := by
  refine closed_kept.operation ha hc (fun other he => ?_) fun id e he => absurd he (hedit id e)
  obtain ⟨hwf, hclosed⟩ := hother other he
  rcases concat_after ha hwf with hsame | hjoined
  · rw [hsame]
    exact hc
  · exact hjoined.closed hc hclosed

/-- No move leads to a missing state. -/
theorem Sealed.closed (h : Sealed a) : a.Closed := by
  induction h with
  | made h => exact h.closed
  | determinize ha h _ => exact closed_of_determinize ha.built.wellFormed h
  | operate ha hedit hother ih iho =>
    exact Operation.closed ha.built.wellFormed ih hedit fun other he =>
      ⟨(hother other he).built.wellFormed, iho other he⟩

end Automaton
end TokenAutomata
