/-
# Automata without dead ends

An automaton is trim if every state that a word leads to leads on to a marker,
the initial state apart (`Automaton.Trim`). A pruned automaton is trim, and so
is the path of a text. In a joined automaton a state other than the initial
one leads on as it did in the one it comes from, so joining keeps this, and
the automaton of a file is trim (`Automaton.ofLines_trim`).

A state of the determinized automaton stands for a set. If that is not the set
of the initial state alone, it holds another state, and from there a word leads
to a marker (`Automaton.live_of_determinize`).

Key definitions: `Automaton.Trim`.
Key theorems: `Automaton.Joined.trim`, `Automaton.trim_pruned`,
`Automaton.addPath_live`, `Automaton.ofLines_trim`,
`Automaton.live_of_determinize`.
-/
import TokenAutomata.Proofs.DeterminizedStates
import TokenAutomata.Proofs.FileLanguage
import TokenAutomata.Proofs.PrunedStates

namespace TokenAutomata
namespace Automaton

/-- What a word leads to, the initial state apart, is live. -/
def Trim (a : Automaton) : Prop := ∀ w p, a.Reaches w p → p ≠ a.initial.id → p ∈ a.live

variable {a b c d : Automaton} {f : Nat → Nat} {p q : Nat} {w : List Symbol}

/-! ### Joined automata -/

namespace Joined

variable (h : Joined a b f c)

include h

theorem live_left (ha : a.WellFormed) (hp : p ∈ a.live) : p ∈ c.live := by
  obtain ⟨v, q, hv, hf⟩ := (mem_live_iff ha).1 hp
  exact (mem_live_iff h.wellFormed).2 ⟨v, q, h.path_left hv, h.final_left hf⟩

theorem live_right (hb : b.WellFormed) (hp : p ∈ b.live) : f p ∈ c.live := by
  obtain ⟨v, q, hv, hf⟩ := (mem_live_iff hb).1 hp
  exact (mem_live_iff h.wellFormed).2 ⟨v, f q, h.path_right hv, h.final_right hf⟩

theorem trim (ha : a.WellFormed) (hb : b.WellFormed) (hac : a.Closed) (hbc : b.Closed)
    (hta : a.Trim) (htb : b.Trim) : c.Trim := by
  intro w p hp hne
  rw [h.initial_id] at hne
  obtain ⟨u, -, v, -, hv | ⟨q, hv, rfl⟩⟩ := (h.reaches_iff hac hbc).1 hp
  · exact h.live_left ha (hta v p hv hne)
  · have hq : q ≠ b.initial.id := fun he => hne (he ▸ h.map_initial)
    exact h.live_right hb (htb v q hv hq)

end Joined

/-! ### Pruned automata -/

theorem trim_pruned (ha : a.WellFormed) (hc : a.Closed) : a.pruned.Trim := by
  intro w p hp hne
  rw [initial_id_pruned] at hne
  have hmem : p ∈ a.pruned.ids := hp.mem_ids (pruned_closed ha hc)
  have huseful : a.Useful p := ((mem_ids_pruned ha).1 hmem).resolve_left hne
  exact (mem_live_iff (pruned_wellFormed ha)).2 (useful_pruned ha huseful).2

/-! ### Texts -/

/-- What is needed of the last state of a path: it is new, without moves and
with a marker. -/
def FinishesFinal (finish : Nat → Edit (Nat × Nat)) : Prop :=
  ∀ k a target k' b, a.WellFormed → finish k a = .ok (target, k') b → b.WellFormed ∧
    b.ids = a.ids ++ [target] ∧ (∀ p x, b.dests p x = a.dests p x) ∧ (b.markerOf? target).isSome

/-- Moves stay when a path is added, and the new states and the one it starts
from lead on to a marker. -/
theorem addPath_live {stem : String} {finish : Nat → Edit (Nat × Nat)} (hfinish : FinishesFinal finish) :
    ∀ {symbols : List Symbol} {a b : Automaton} {source k k' : Nat}, symbols ≠ [] → a.WellFormed →
      addPath stem finish source symbols k a = .ok k' b →
      b.WellFormed ∧ (∀ p x q, q ∈ a.dests p x → q ∈ b.dests p x) ∧ source ∈ b.live ∧
        ∀ p ∈ b.ids, p ∈ a.ids ∨ p ∈ b.live
  | [], _, _, _, _, _, hne, _, _ => absurd rfl hne
  | [x], a, b, source, k, k', _, ha, hrun => by
    obtain ⟨⟨target, k1⟩, a1, hf, hrest⟩ := Change.bind_eq_ok.1 hrun
    obtain ⟨u, a2, hmove, hlast⟩ := Change.bind_eq_ok.1 hrest
    obtain ⟨rfl, rfl⟩ := Change.pure_eq_ok.1 hlast
    obtain ⟨hwf, hids, hdests, hmarker⟩ := hfinish k a target k1 a1 ha hf
    obtain ⟨-, -, hids', hdests', hmarker'⟩ := addTransition_effect hmove
    have hwf' := (keeps_addTransition source x target).ok hwf hmove
    have hfinal : (a2.markerOf? target).isSome := by
      rw [hmarker']
      exact hmarker
    have htarget : target ∈ a2.live := mem_live_of_final hwf' hfinal
    have hsource : source ∈ a2.live :=
      (mem_live_iff hwf').2 ⟨[x], target, path_singleton_iff.2 ((hdests' _ _ _).2 (by simp)), hfinal⟩
    refine ⟨hwf', fun p y q hq => (hdests' p y q).2 (Or.inl (hdests p y ▸ hq)), hsource, fun p hp => ?_⟩
    rw [hids', hids, List.mem_append, List.mem_singleton] at hp
    exact hp.imp_right fun he : p = target => he ▸ htarget
  | x :: y :: rest, a, b, source, k, k', _, ha, hrun => by
    obtain ⟨target, a1, hadd, hrest⟩ := Change.bind_eq_ok.1 hrun
    obtain ⟨u, a2, hmove, hlast⟩ := Change.bind_eq_ok.1 hrest
    obtain ⟨-, -, hids, hdests, -⟩ := addState_effect ha hadd
    obtain ⟨-, -, hids', hdests', -⟩ := addTransition_effect hmove
    have hwf := (keeps_addTransition source x target).ok ((keeps_addState _).ok ha hadd) hmove
    obtain ⟨hb, hkept, htarget, hnew⟩ := addPath_live hfinish (List.cons_ne_nil y rest) hwf hlast
    obtain ⟨v, q, hv, hf⟩ := (mem_live_iff hb).1 htarget
    have hfirst : target ∈ b.dests source x := hkept _ _ _ ((hdests' _ _ _).2 (by simp))
    have hsource : source ∈ b.live := (mem_live_iff hb).2 ⟨x :: v, q, .cons hfirst hv, hf⟩
    refine ⟨hb, fun p z q hq => hkept p z q ((hdests' p z q).2 (Or.inl (hdests p z ▸ hq))), hsource,
      fun p hp => ?_⟩
    rcases hnew p hp with hp | hp
    · rw [hids', hids, List.mem_append, List.mem_singleton] at hp
      exact hp.imp_right fun he : p = target => he ▸ htarget
    · exact Or.inr hp

theorem trim_ofLiteral {token : String} {literal : List Symbol} (htoken : token ≠ "")
    (hne : literal ≠ []) (h : ofLiteral token literal = .ok b) : b.Trim := by
  have hfinish : FinishesFinal fun k => addFinalState token token >>= fun target => pure (target, k) := by
    intro k a target k' b ha hf
    obtain ⟨id, b', hadd, hlast⟩ := Change.bind_eq_ok.1 hf
    obtain ⟨he, rfl⟩ := Change.pure_eq_ok.1 hlast
    cases he
    obtain ⟨hids, hdests, hmarker⟩ := addFinalState_effect ha htoken hadd
    exact ⟨(keeps_addFinalState _ _).ok ha hadd, hids, hdests, by rw [hmarker]; rfl⟩
  obtain ⟨v, hrun⟩ := Change.exec_eq_ok.1 h
  obtain ⟨hwf, -, -, hnew⟩ := addPath_live hfinish hne (withInitial_wellFormed _) hrun
  intro w p hp hroot
  refine (hnew p (hp.mem_ids (ofLiteral_denotes htoken hne h).closed)).resolve_left fun hinitial => ?_
  exact hroot ((List.mem_singleton.1 hinitial).trans hwf.initial_id.symm)

/-! ### Files -/

theorem trim_definition {d : Definition} (hd : d.WellFormed) (h : d.automaton = .ok b) : b.Trim := by
  cases d with
  | block rules =>
    cases rules with
    | nil => exact absurd rfl hd.1
    | cons first rest =>
      obtain ⟨declared, role, a, ha, -, rfl⟩ :=
        ofRules_compiled (fun rule hrule => (hd.2 rule hrule).proper) h
      exact trim_pruned ha.spells.wellFormed ha.closed
  | tokenRule token literal =>
    exact trim_ofLiteral (ne_empty_of_isTokenName hd.1) hd.2 (mapError_eq_ok.1 h)
  | sentence word => exact trim_ofLiteral (Text.uppercase_ne_empty hd) hd (mapError_eq_ok.1 h)

/-- The automaton of a file has no dead ends, and no move leads to a missing
state. -/
theorem ofLines_trim {lines : List (List Char)} {n : Automaton} (h : ofLines lines = .ok n) :
    n.Closed ∧ n.Trim := by
  let P (_ : List Definition) (a : Automaton) : Prop := a.Closed ∧ a.Trim
  have hnew : P [] new := by
    refine ⟨withInitial_closed rootLabel, fun w p hp hne => ?_⟩
    obtain rfl := eq_nil_of_reaches_new hp
    exact absurd (reaches_nil_iff.1 hp) hne
  have hstep : ∀ (definitions : List Definition) (a b c : Automaton) (d : Definition), P definitions a →
      d.WellFormed → d.automaton = .ok b → a.WellFormed → Joined a b (a.joinedId b) c →
      P (definitions ++ [d]) c := by
    intro definitions a b c d ha hd hb hwf hjoined
    have hbc : b.Closed := (Definition.automaton_denotes hd hb).closed
    exact ⟨hjoined.closed ha.1 hbc,
      hjoined.trim hwf (definition_wellFormed hb) ha.1 hbc ha.2 (trim_definition hd hb)⟩
  obtain ⟨kinds, -, hn⟩ := ofLines_induction hstep hnew h
  exact hn

/-! ### Determinized automata -/

/-- A state other than the initial one leads on to a marker. -/
theorem live_of_determinize (ha : a.WellFormed) (ht : a.Trim) (h : a.determinize = .ok d)
    (hq : q ∈ d.ids) (hne : q ≠ d.initial.id) : q ∈ d.live := by
  have hd := represents_of_determinize h
  obtain ⟨w, hw⟩ := exists_reaches_of_determinize ha h hq
  obtain ⟨hset, rfl⟩ := (hd.reaches_iff ha).1 hw
  -- the set holds a state other than the initial one
  obtain ⟨p, hp, hpne⟩ : ∃ p ∈ a.statesAfter w, p ≠ a.initial.id := by
    by_contra hall
    simp only [not_exists, not_and, not_not] at hall
    have hsingle : a.statesAfter w = .singleton a.initial.id := by
      obtain ⟨p, hp⟩ := IdSet.ne_empty_iff.1 hset
      ext r
      rw [IdSet.mem_singleton]
      exact ⟨hall r, fun he => he ▸ hall p hp ▸ hp⟩
    apply hne
    have hroot := ((hd.reaches_iff ha).1 (reaches_nil_iff.2 rfl : d.Reaches [] d.initial.id)).2
    rw [hsingle, hroot]
    rfl
  obtain ⟨v, r, hv, hf⟩ := (mem_live_iff ha).1 (ht w p (mem_statesAfter.1 hp) hpne)
  have haccepts : d.accepts (w ++ v) = true := by
    rw [hd.accepts_eq ha]
    exact accepts_iff.2 ⟨r, (mem_statesAfter.1 hp).append hv, hf⟩
  obtain ⟨s, hs, hfs⟩ := accepts_iff.1 haccepts
  obtain ⟨q', hq', hv'⟩ := path_append_iff.1 hs
  have hsame := ((hd.reaches_iff ha).1 hq').2
  rw [← hsame]
  exact (mem_live_iff (determinize_wellFormed ha h)).2 ⟨v, s, hv', hfs⟩

end Automaton
end TokenAutomata
