/-
# The language of a joined automaton

In an automaton joined from `a` and `b` a path can change from the one to the
other only at the initial state that they share. So a word it reads is cut,
at the visits to that state, into words that lead `a` or `b` from the initial
state back to it, and a last word that one of the two reads
(`Automaton.Joined.reaches_iff`). With `returns` for the words of the first
kind, the languages are those of regular expressions:

    returns c = (returns a + returns b)∗
    language c = (returns a + returns b)∗ (language a + language b)

Key definitions: `Automaton.language`, `Automaton.returns`.
Key theorems: `Automaton.Joined.reaches_iff`, `Automaton.Joined.returns_eq`,
`Automaton.Joined.language_eq`, `Automaton.concat_language`.
-/
import Mathlib.Computability.Language
import Mathlib.Data.List.Induction
import TokenAutomata.Proofs.Built
import TokenAutomata.Proofs.Joining

namespace TokenAutomata
namespace Automaton

open scoped Computability

/-- The words that are accepted. -/
def language (a : Automaton) : Language Symbol := {w | a.accepts w = true}

/-- The words that lead from the initial state back to it. -/
def returns (a : Automaton) : Language Symbol := {u | a.Reaches u a.initial.id}

variable {a b c : Automaton} {f : Nat → Nat} {p q : Nat} {u v w : List Symbol}

theorem mem_language : w ∈ a.language ↔ a.accepts w = true := Iff.rfl

theorem mem_returns : u ∈ a.returns ↔ a.Reaches u a.initial.id := Iff.rfl

/-- What leads back to the initial state can be put in front of any path. -/
theorem Reaches.append_returns (hu : u ∈ a.returns) (hv : a.Reaches v q) : a.Reaches (u ++ v) q :=
  Path.append hu hv

theorem Reaches.append_kstar (hu : u ∈ a.returns∗) (hv : a.Reaches v q) : a.Reaches (u ++ v) q := by
  obtain ⟨us, rfl, hus⟩ := Language.mem_kstar.1 hu
  clear hu
  induction us with
  | nil => exact hv
  | cons u us ih =>
    have hrest : ∀ y ∈ us, y ∈ a.returns := fun y hy => hus y (List.mem_cons_of_mem u hy)
    have htail := ih hrest
    rw [List.flatten_cons, List.append_assoc]
    exact Reaches.append_returns (hus u List.mem_cons_self) htail

theorem append_mem_kstar {l : Language Symbol} (hu : u ∈ l∗) (hv : v ∈ l) : u ++ v ∈ l∗ := by
  have hle : l∗ * l ≤ l∗ := kstar_mul_le_kstar
  exact hle (Language.append_mem_mul hu hv)

theorem mem_kstar_of_mem {l : Language Symbol} (hu : u ∈ l) : u ∈ l∗ :=
  Language.mem_kstar.2 ⟨[u], List.flatten_singleton.symm, fun _ hy => List.mem_singleton.1 hy ▸ hu⟩

theorem mem_kstar_of_forall {l l' : Language Symbol} (h : ∀ u ∈ l, u ∈ l'∗) (hw : w ∈ l∗) : w ∈ l'∗ := by
  obtain ⟨us, rfl, hus⟩ := Language.mem_kstar.1 hw
  have hflatten : us.flatten ∈ l'∗∗ := Language.join_mem_kstar fun u hu => h u (hus u hu)
  rw [kstar_idem] at hflatten
  exact hflatten

/-- Words that are all empty make no longer ones. -/
theorem kstar_eq_one_of_nil {l : Language Symbol} (h : ∀ u ∈ l, u = []) : l∗ = 1 :=
  kstar_eq_one.2 fun u hu => (Language.mem_one u).2 (h u hu)

namespace Joined

variable (h : Joined a b f c)

include h

/-! ### Paths of the two in the result -/

theorem path_left (hp : a.Path p w q) : c.Path p w q := by
  induction hp with
  | nil p => exact .nil p
  | cons hq _ ih => exact .cons ((h.mem_dests _ _ _).2 (Or.inl hq)) ih

theorem path_right (hp : b.Path p w q) : c.Path (f p) w (f q) := by
  induction hp with
  | nil p => exact .nil _
  | cons hq _ ih => exact .cons ((h.mem_dests _ _ _).2 (Or.inr ⟨_, _, rfl, hq, rfl⟩)) ih

theorem reaches_left (hp : a.Reaches w q) : c.Reaches w q := by
  rw [Reaches, h.initial_id]
  exact h.path_left hp

theorem reaches_right (hp : b.Reaches w q) : c.Reaches w (f q) := by
  rw [Reaches, h.initial_id, ← h.map_initial]
  exact h.path_right hp

theorem returns_left (hu : u ∈ a.returns) : u ∈ c.returns := by
  rw [mem_returns, h.initial_id]
  exact h.reaches_left hu

theorem returns_right (hu : u ∈ b.returns) : u ∈ c.returns := by
  rw [mem_returns, h.initial_id, ← h.map_initial]
  exact h.reaches_right hu

theorem mem_kstar_returns (hu : u ∈ (a.returns + b.returns)∗) : u ∈ c.returns∗ := by
  obtain ⟨us, rfl, hus⟩ := Language.mem_kstar.1 hu
  exact Language.join_mem_kstar fun y hy => (hus y hy).elim h.returns_left h.returns_right

/-! ### Cutting a path at the shared state -/

/-- What is reached by a word of the result is reached, in `a` or in `b`, by
its part after the last visit to the shared state at which the path changes
from one to the other. -/
theorem reaches_iff (ha : a.Closed) (hb : b.Closed) : c.Reaches w q ↔
    ∃ u ∈ (a.returns + b.returns)∗, ∃ v, u ++ v = w ∧
      (a.Reaches v q ∨ ∃ q', b.Reaches v q' ∧ f q' = q) := by
  constructor
  · intro hw
    induction w using List.reverseRecOn generalizing q with
    | nil =>
      rw [reaches_nil_iff, h.initial_id] at hw
      exact ⟨[], Language.nil_mem_kstar _, [], rfl, Or.inl (reaches_nil_iff.2 hw)⟩
    | append_singleton w x ih =>
      obtain ⟨p, hp, hq⟩ := reaches_snoc_iff.1 hw
      obtain ⟨u, hu, v, rfl, hv | ⟨p', hv, rfl⟩⟩ := ih hp
      · rcases (h.mem_dests _ _ _).1 hq with hmove | ⟨p', q', rfl, hmove, rfl⟩
        · exact ⟨u, hu, v ++ [x], (List.append_assoc _ _ _).symm,
            Or.inl (reaches_snoc_iff.2 ⟨p, hv, hmove⟩)⟩
        · -- the path changes from `a` to `b`
          obtain rfl := h.shared p' (mem_ids_of_mem_dests hmove) (hv.mem_ids ha)
          rw [h.map_initial] at hv
          exact ⟨u ++ v, append_mem_kstar hu (Or.inl hv), [x], rfl,
            Or.inr ⟨q', path_singleton_iff.2 hmove, rfl⟩⟩
      · have hp' : p' ∈ b.ids := hv.mem_ids hb
        rcases (h.mem_dests _ _ _).1 hq with hmove | ⟨p'', q', hf, hmove, rfl⟩
        · -- the path changes from `b` to `a`
          obtain rfl := h.shared p' hp' (mem_ids_of_mem_dests hmove)
          rw [h.map_initial] at hmove
          exact ⟨u ++ v, append_mem_kstar hu (Or.inr hv), [x], rfl,
            Or.inl (path_singleton_iff.2 hmove)⟩
        · obtain rfl := h.injective p'' (mem_ids_of_mem_dests hmove) p' hp' hf
          exact ⟨u, hu, v ++ [x], (List.append_assoc _ _ _).symm,
            Or.inr ⟨q', reaches_snoc_iff.2 ⟨p'', hv, hmove⟩, rfl⟩⟩
  · rintro ⟨u, hu, v, rfl, hv | ⟨q', hv, rfl⟩⟩
    · exact Reaches.append_kstar (h.mem_kstar_returns hu) (h.reaches_left hv)
    · exact Reaches.append_kstar (h.mem_kstar_returns hu) (h.reaches_right hv)

theorem returns_eq (ha : a.Closed) (hb : b.Closed) : c.returns = (a.returns + b.returns)∗ := by
  ext w
  rw [mem_returns, h.initial_id, h.reaches_iff ha hb]
  constructor
  · rintro ⟨u, hu, v, rfl, hv | ⟨q', hv, hq⟩⟩
    · exact append_mem_kstar hu (Or.inl hv)
    · obtain rfl := h.shared q' (hv.mem_ids hb) (hq ▸ initial_mem_ids a)
      exact append_mem_kstar hu (Or.inr hv)
  · intro hw
    exact ⟨w, hw, [], List.append_nil w, Or.inl (reaches_nil_iff.2 rfl)⟩

/-! ### Markers -/

theorem final_initial : (c.markerOf? a.initial.id).isSome ↔
    (a.markerOf? a.initial.id).isSome ∨ (b.markerOf? b.initial.id).isSome := by
  rw [h.marker_initial]
  cases a.markerOf? a.initial.id with
  | some token => simp
  | none => simp

theorem final_left (hf : (a.markerOf? p).isSome) : (c.markerOf? p).isSome := by
  by_cases hp : p = a.initial.id
  · subst hp
    exact h.final_initial.2 (Or.inl hf)
  · rw [h.marker_left p (mem_ids_of_markerOf? hf) hp]
    exact hf

theorem final_right (hf : (b.markerOf? p).isSome) : (c.markerOf? (f p)).isSome := by
  by_cases hp : p = b.initial.id
  · subst hp
    rw [h.map_initial]
    exact h.final_initial.2 (Or.inr hf)
  · rw [h.marker_right p (mem_ids_of_markerOf? hf) hp]
    exact hf

theorem language_eq (ha : a.Closed) (hb : b.Closed) :
    c.language = (a.returns + b.returns)∗ * (a.language + b.language) := by
  ext w
  rw [Language.mem_mul, mem_language, accepts_iff]
  constructor
  · rintro ⟨q, hq, hf⟩
    obtain ⟨u, hu, v, rfl, hv | ⟨q', hv, rfl⟩⟩ := (h.reaches_iff ha hb).1 hq
    · by_cases hroot : q = a.initial.id
      · subst hroot
        rcases h.final_initial.1 hf with hf | hf
        · exact ⟨u, hu, v, Or.inl (accepts_iff.2 ⟨_, hv, hf⟩), rfl⟩
        · refine ⟨u ++ v, append_mem_kstar hu (Or.inl hv), [], Or.inr ?_, List.append_nil _⟩
          exact accepts_iff.2 ⟨_, reaches_nil_iff.2 rfl, hf⟩
      · rw [h.marker_left q (hv.mem_ids ha) hroot] at hf
        exact ⟨u, hu, v, Or.inl (accepts_iff.2 ⟨q, hv, hf⟩), rfl⟩
    · by_cases hroot : q' = b.initial.id
      · subst hroot
        rw [h.map_initial] at hf
        rcases h.final_initial.1 hf with hf | hf
        · refine ⟨u ++ v, append_mem_kstar hu (Or.inr hv), [], Or.inl ?_, List.append_nil _⟩
          exact accepts_iff.2 ⟨_, reaches_nil_iff.2 rfl, hf⟩
        · exact ⟨u, hu, v, Or.inr (accepts_iff.2 ⟨_, hv, hf⟩), rfl⟩
      · rw [h.marker_right q' (hv.mem_ids hb) hroot] at hf
        exact ⟨u, hu, v, Or.inr (accepts_iff.2 ⟨q', hv, hf⟩), rfl⟩
  · rintro ⟨u, hu, v, hv | hv, rfl⟩
    · obtain ⟨q, hq, hf⟩ := accepts_iff.1 hv
      exact ⟨q, Reaches.append_kstar (h.mem_kstar_returns hu) (h.reaches_left hq), h.final_left hf⟩
    · obtain ⟨q, hq, hf⟩ := accepts_iff.1 hv
      exact ⟨f q, Reaches.append_kstar (h.mem_kstar_returns hu) (h.reaches_right hq), h.final_right hf⟩

/-- No move of the result leads to a missing state. -/
theorem closed (ha : a.Closed) (hb : b.Closed) : c.Closed := by
  refine closed_of_dests h.wellFormed fun p x q hq => (h.mem_ids q).2 ?_
  rcases (h.mem_dests _ _ _).1 hq with hmove | ⟨p', q', -, hmove, rfl⟩
  · exact Or.inl (ha.mem_ids hmove)
  · exact Or.inr ⟨q', hb.mem_ids hmove, rfl⟩

end Joined

/-! ### Joining built automata -/

theorem mem_joined_language : w ∈ (a.returns + b.returns)∗ * (a.language + b.language) ↔
    ∃ (us : List (List Symbol)) (v : List Symbol), w = us.flatten ++ v ∧ (∀ u ∈ us, u ∈ a.returns ∨ u ∈ b.returns) ∧
      (a.accepts v = true ∨ b.accepts v = true) := by
  rw [Language.mem_mul]
  constructor
  · rintro ⟨u, hu, v, hv, rfl⟩
    obtain ⟨us, rfl, hus⟩ := Language.mem_kstar.1 hu
    exact ⟨us, v, rfl, hus, hv⟩
  · rintro ⟨us, v, rfl, hus, hv⟩
    exact ⟨us.flatten, Language.join_mem_kstar hus, v, hv, rfl⟩

/-- Nothing but the empty word leads back to an initial state that no move
leads to. -/
theorem returns_of_not_target (ha : a.initial.id ∉ a.targets) (hu : u ∈ a.returns) : u = [] := by
  cases u using List.reverseRecOn with
  | nil => rfl
  | append_singleton u x =>
    obtain ⟨p, -, hq⟩ := reaches_snoc_iff.1 hu
    exact absurd (mem_targets_of_mem_dests hq) ha

/-- Joining two built automata whose initial states agree in label succeeds,
whatever other labels they share. The result accepts the words that consist
of words that lead one of the two back to its initial state and of a last
word that one of the two accepts. -/
theorem concat_language (ha : Built a) (hb : Built b) (hva : a.validate = .ok ())
    (hvb : b.validate = .ok ()) (hl : a.initial.label = b.initial.label) :
    ∃ c, concat b a = .ok () c ∧ c.validate = .ok () ∧
      (∀ w, c.accepts w = true ↔ ∃ (us : List (List Symbol)) (v : List Symbol), w = us.flatten ++ v ∧
        (∀ u ∈ us, a.Reaches u a.initial.id ∨ b.Reaches u b.initial.id) ∧
        (a.accepts v = true ∨ b.accepts v = true)) ∧
      (a.initial.id ∉ a.targets → b.initial.id ∉ b.targets →
        ∀ w, c.accepts w = (a.accepts w || b.accepts w)) ∧
      (b = a → ∀ w, c.accepts w = a.accepts w) := by
  have hca := validate_eq_ok_iff.1 hva
  have hcb := validate_eq_ok_iff.1 hvb
  obtain ⟨c, hrun, hc⟩ := concat_joined ha.wellFormed hb.wellFormed hl
  have hlanguage : ∀ w, c.accepts w = true ↔ ∃ (us : List (List Symbol)) (v : List Symbol),
      w = us.flatten ++ v ∧ (∀ u ∈ us, a.Reaches u a.initial.id ∨ b.Reaches u b.initial.id) ∧
        (a.accepts v = true ∨ b.accepts v = true) := fun w => by
    rw [← mem_language, hc.language_eq hca hcb, mem_joined_language]
    rfl
  refine ⟨c, hrun, validate_eq_ok_iff.2 (hc.closed hca hcb), hlanguage, fun hna hnb w => ?_,
    fun hba w => ?_⟩
  · rw [Bool.eq_iff_iff, hlanguage, Bool.or_eq_true]
    constructor
    · rintro ⟨us, v, rfl, hus, hv⟩
      have hempty : us.flatten = [] := List.flatten_eq_nil_iff.2 fun u hu => (hus u hu).elim
        (fun h => returns_of_not_target hna h) fun h => returns_of_not_target hnb h
      rw [hempty]
      exact hv
    · exact fun hv => ⟨[], w, rfl, fun _ hu => absurd hu List.not_mem_nil, hv⟩
  · subst hba
    rw [Bool.eq_iff_iff, hlanguage]
    constructor
    · rintro ⟨us, v, rfl, hus, hv⟩
      obtain ⟨q, hq, hf⟩ := accepts_iff.1 (hv.elim id id)
      have hreturns : us.flatten ∈ b.returns∗ :=
        Language.join_mem_kstar fun u hu => (hus u hu).elim id id
      exact accepts_iff.2 ⟨q, Reaches.append_kstar hreturns hq, hf⟩
    · exact fun hv => ⟨[], w, rfl, fun _ hu => absurd hu List.not_mem_nil, Or.inl hv⟩

/-- Accepts the words `a…ab`. -/
def manyThenOne : Automaton :=
  (addTransition 0 'b' 1).after ((addTransition 0 'a' 0).after
    ((addFinalState "B" "B").after (withInitial rootLabel)))

/-- Accepts the word `c`. -/
def oneSymbol : Automaton :=
  (addTransition 0 'c' 1).after ((addFinalState "B" "B").after (withInitial rootLabel))

/-- A word that neither of the two accepts. -/
theorem concat_manyThenOne : ∃ c, concat oneSymbol manyThenOne = .ok () c ∧
    manyThenOne.accepts ['a', 'c'] = false ∧ oneSymbol.accepts ['a', 'c'] = false ∧
    c.accepts ['a', 'c'] = true := by
  have ha : Built manyThenOne :=
    .addTransition 0 'b' 1 (.addTransition 0 'a' 0 (.addFinalState "B" "B" (.withInitial rootLabel)))
  have hb : Built oneSymbol := .addTransition 0 'c' 1 (.addFinalState "B" "B" (.withInitial rootLabel))
  obtain ⟨c, hc, -, hlanguage, -⟩ := concat_language ha hb (by decide) (by decide) (by decide)
  have hloop : manyThenOne.Reaches ['a'] 0 := mem_statesAfter.1 (by decide)
  refine ⟨c, hc, by decide, by decide, (hlanguage _).2 ⟨[['a']], ['c'], rfl, ?_, Or.inr (by decide)⟩⟩
  intro u hu
  rw [List.mem_singleton.1 hu]
  exact Or.inl hloop

end Automaton
end TokenAutomata
