/-
# Automata that spell rules

Every state of an automaton under construction gets a role. The automaton
spells the rules if its moves are steps between roles and its markers are
those of the roles (`Automaton.Spells`): so it reads nothing that the rules do
not derive (`Spells.reading`). Each edit that adds to it a state, a move or a
marker that roles allow keeps this, and it keeps what there is
(`Automaton.Grown`), so that a path once added for an alternative stays.

Key definitions: `Automaton.Spells`, `Automaton.Grown`, `Automaton.Ending`.
Key theorems: `Automaton.Spells.reading`, `Automaton.Spells.addState`,
`Automaton.Spells.addTransition`, `Automaton.Spells.addPath`.
-/
import Mathlib.Data.List.Induction
import Mathlib.Logic.Function.Basic
import TokenAutomata.Grammar.Compile
import TokenAutomata.Proofs.Built
import TokenAutomata.Proofs.Derivation
import TokenAutomata.Proofs.EditEffects

namespace TokenAutomata
namespace Automaton

/-- The moves and markers of `a` are those of the roles of its states. -/
structure Spells (rules : List Rule) (role : Nat → Role) (a : Automaton) : Prop where
  wellFormed : a.WellFormed
  closed : ∀ p c q, q ∈ a.dests p c → q ∈ a.ids
  move : ∀ p c q, q ∈ a.dests p c → Role.Step rules (role p) c (role q)
  marker : ∀ p t, a.markerOf? p = some t → Role.Final rules (role p) t

/-- `b` spells the rules and has all that `a` has, in the same roles. -/
structure Grown (rules : List Rule) (role role' : Nat → Role) (a b : Automaton) : Prop where
  spells : Spells rules role' b
  ids : ∀ p ∈ a.ids, p ∈ b.ids
  role : ∀ p ∈ a.ids, role' p = role p
  dests : ∀ p c q, q ∈ a.dests p c → q ∈ b.dests p c
  marker : ∀ p t, a.markerOf? p = some t → b.markerOf? p = some t

variable {rules : List Rule} {role role' role'' : Nat → Role} {a b c : Automaton} {p q id : Nat}
  {x : Symbol} {w : List Symbol}

/-- What is read from the state of a nonterminal is derived from it. -/
theorem Spells.reading (h : Spells rules role a) {n : String} (hp : role p = .nonterminal n)
    (hw : a.Path p w q) : Reading rules n w (role q) := by
  induction w using List.reverseRecOn generalizing q with
  | nil =>
    obtain rfl := path_nil_iff.1 hw
    rw [hp]
    exact .refl n
  | append_singleton w x ih =>
    obtain ⟨r, hr, hq⟩ := path_append_iff.1 hw
    exact (ih hr).step (h.move r x q (path_singleton_iff.1 hq))

namespace Grown

theorem refl (h : Spells rules role a) : Grown rules role role a a :=
  ⟨h, fun _ hp => hp, fun _ _ => rfl, fun _ _ _ hq => hq, fun _ _ ht => ht⟩

theorem trans (h : Grown rules role role' a b) (h' : Grown rules role' role'' b c) :
    Grown rules role role'' a c :=
  ⟨h'.spells, fun p hp => h'.ids p (h.ids p hp),
    fun p hp => (h'.role p (h.ids p hp)).trans (h.role p hp),
    fun p x q hq => h'.dests p x q (h.dests p x q hq),
    fun p t ht => h'.marker p t (h.marker p t ht)⟩

theorem path (h : Grown rules role role' a b) (hw : a.Path p w q) : b.Path p w q := by
  induction hw with
  | nil p => exact .nil p
  | cons hq _ ih => exact .cons (h.dests _ _ _ hq) ih

end Grown

/-! ### Single edits -/

namespace Spells

variable (h : Spells rules role a)

include h

/-- A new state may have any role, as it has no moves. -/
theorem addState {label : String} (hadd : addState label a = .ok id b) (r : Role) :
    id ∈ b.ids ∧ Grown rules role (Function.update role id r) a b := by
  obtain ⟨-, hnew, hids, hdests, hmarker⟩ := addState_effect h.wellFormed hadd
  have hold : ∀ p ∈ a.ids, Function.update role id r p = role p := fun p hp =>
    Function.update_of_ne (fun he : p = id => hnew (he ▸ hp)) _ _
  have hsub : ∀ p ∈ a.ids, p ∈ b.ids := fun p hp => hids ▸ List.mem_append_left _ hp
  refine ⟨hids ▸ List.mem_append_right _ List.mem_cons_self, ⟨?_, fun p y q hq => ?_, fun p y q hq => ?_,
    fun p t ht => ?_⟩, hsub, hold, fun p y q hq => ?_, fun p t ht => ?_⟩
  · exact (keeps_addState label).ok h.wellFormed hadd
  · exact hsub q (h.closed p y q (hdests p y ▸ hq))
  · rw [hdests] at hq
    rw [hold p (mem_ids_of_mem_dests hq), hold q (h.closed p y q hq)]
    exact h.move p y q hq
  · rw [hmarker] at ht
    rw [hold p (mem_ids_of_markerOf? (ht ▸ rfl))]
    exact h.marker p t ht
  · rw [hdests]
    exact hq
  · rw [hmarker]
    exact ht

/-- A move may lead where the roles lead. -/
theorem addTransition {u : Unit} (hadd : addTransition p x q a = .ok u b)
    (hstep : Role.Step rules (role p) x (role q)) :
    q ∈ b.dests p x ∧ Grown rules role role a b := by
  obtain ⟨-, hq, hids, hdests, hmarker⟩ := addTransition_effect hadd
  refine ⟨(hdests p x q).2 (Or.inr ⟨rfl, rfl, rfl⟩), ⟨?_, fun p' y q' hm => ?_, fun p' y q' hm => ?_,
    fun p' t ht => ?_⟩, fun p' hp' => hids ▸ hp', fun _ _ => rfl, fun p' y q' hm => ?_,
    fun p' t ht => ?_⟩
  · exact (keeps_addTransition p x q).ok h.wellFormed hadd
  · rw [hids]
    rcases (hdests p' y q').1 hm with hm | ⟨-, -, rfl⟩
    · exact h.closed p' y q' hm
    · exact hq
  · rcases (hdests p' y q').1 hm with hm | ⟨rfl, rfl, rfl⟩
    · exact h.move p' y q' hm
    · exact hstep
  · exact h.marker p' t (hmarker p' ▸ ht)
  · exact (hdests p' y q').2 (Or.inl hm)
  · rw [hmarker]
    exact ht

theorem marker_ne_empty {t : String} (ht : a.markerOf? p = some t) : t ≠ "" := by
  rintro rfl
  obtain ⟨s, hs, hm⟩ := markerOf?_eq_some_iff.1 ht
  exact (h.wellFormed.states s (mem_states_of_state? hs)).marker hm

/-- A state may get the marker of its role. -/
theorem setMarker {name : String} {u : Unit} (hset : setMarker id (some name) a = .ok u b)
    (hf : Role.Final rules (role id) name) :
    (name ≠ "" → b.markerOf? id = some name) ∧ Grown rules role role a b := by
  obtain ⟨-, hids, hdests, hmarker⟩ := setMarker_effect hset
  have hnew : name ≠ "" → b.markerOf? id = some name := fun hne => by
    rw [hmarker, if_pos rfl]
    simp [Option.filter, hne]
  refine ⟨hnew, ⟨?_, fun p y q hq => ?_, fun p y q hq => ?_, fun p t ht => ?_⟩,
    fun p hp => hids ▸ hp, fun _ _ => rfl, fun p y q hq => ?_, fun p t ht => ?_⟩
  · exact (keeps_setMarker id _).ok h.wellFormed hset
  · exact hids ▸ h.closed p y q (hdests p y ▸ hq)
  · exact h.move p y q (hdests p y ▸ hq)
  · rw [hmarker] at ht
    by_cases hp : p = id
    · rw [if_pos hp] at ht
      obtain ⟨he, -⟩ := Option.filter_eq_some_iff.1 ht
      rw [hp, ← Option.some.inj he]
      exact hf
    · rw [if_neg hp] at ht
      exact h.marker p t ht
  · rw [hdests]
    exact hq
  · by_cases hp : p = id
    · -- a marker that is there already is that of the role, too
      subst hp
      have ht' : t = name := (h.marker p t ht).eq_name.trans hf.eq_name.symm
      rw [ht']
      exact hnew (ht' ▸ h.marker_ne_empty ht)
    · rw [hmarker, if_neg hp]
      exact ht

/-- A new state may have the marker of the role it gets. -/
theorem addFinalState {label token : String} (hadd : addFinalState label token a = .ok id b) {r : Role}
    (hf : Role.Final rules r token) : id ∈ b.ids ∧ (token ≠ "" → b.markerOf? id = some token) ∧
      Grown rules role (Function.update role id r) a b := by
  obtain ⟨id', a', hstate, hrest⟩ := Change.bind_eq_ok.1 hadd
  obtain ⟨u, b', hset, hrest⟩ := Change.bind_eq_ok.1 hrest
  obtain ⟨rfl, rfl⟩ := Change.pure_eq_ok.1 hrest
  obtain ⟨hid, hgrown⟩ := h.addState hstate r
  have hf' : Role.Final rules (Function.update role id' r id') token := by
    rw [Function.update_self]
    exact hf
  obtain ⟨hmarker, hgrown'⟩ := hgrown.spells.setMarker hset hf'
  exact ⟨hgrown'.ids id' hid, hmarker, hgrown.trans hgrown'⟩

end Spells

/-! ### Paths -/

/-- However far `a` has grown, `finish` gives a state of role `r` for which
`post` holds. -/
def Ending (rules : List Rule) (role : Nat → Role) (a : Automaton)
    (finish : Nat → Edit (Nat × Nat)) (r : Role) (post : Automaton → Nat → Prop) : Prop :=
  ∀ role' a' k target k' b, Grown rules role role' a a' → finish k a' = .ok (target, k') b →
    ∃ role'', Grown rules role' role'' a' b ∧ target ∈ b.ids ∧ role'' target = r ∧ post b target

theorem Ending.grown {finish : Nat → Edit (Nat × Nat)} {r : Role} {post : Automaton → Nat → Prop}
    (h : Ending rules role a finish r post) (hg : Grown rules role role' a b) :
    Ending rules role' b finish r post :=
  fun _ _ k target k' _ hg' hf => h _ _ k target k' _ (hg.trans hg') hf

/-- What holds of a state goes on holding when the automaton grows. -/
def Lasting (rules : List Rule) (post : Automaton → Nat → Prop) : Prop :=
  ∀ role role' a b q, Grown rules role role' a b → post a q → post b q

/-- A path that reads what an alternative has left after `before` is added
from a state at that place. -/
theorem Spells.addPath {stem name : String} {next : Option String} {finish : Nat → Edit (Nat × Nat)}
    {post : Automaton → Nat → Prop} (hpost : Lasting rules post) :
    ∀ {symbols before : List Symbol} {role : Nat → Role} {a b : Automaton} {source k k' : Nat},
      Spells rules role a →
      Ending rules role a finish (.place name (before ++ symbols) [] next) post →
      source ∈ a.ids →
      (∀ x after, symbols = x :: after →
        Role.Step rules (role source) x (.place name (before ++ [x]) after next)) →
      addPath stem finish source symbols k a = .ok k' b →
      ∃ role', Grown rules role role' a b ∧
        (symbols ≠ [] → ∃ target, b.Path source symbols target ∧ post b target)
  | [], before, role, a, b, source, k, k', ha, _, _, _, hrun => by
    obtain ⟨rfl, rfl⟩ := Change.pure_eq_ok.1 hrun
    exact ⟨role, .refl ha, fun hne => absurd rfl hne⟩
  | [x], before, role, a, b, source, k, k', ha, hfinish, hsource, hstep, hrun => by
    obtain ⟨⟨target, k1⟩, a1, hf, hrun⟩ := Change.bind_eq_ok.1 hrun
    obtain ⟨u, a2, hmove, hrun⟩ := Change.bind_eq_ok.1 hrun
    obtain ⟨rfl, rfl⟩ := Change.pure_eq_ok.1 hrun
    obtain ⟨role1, hg1, -, hrole, hp⟩ := hfinish role a k target k1 a1 (.refl ha) hf
    have hstep1 : Role.Step rules (role1 source) x (role1 target) := by
      rw [hg1.role source hsource, hrole]
      exact hstep x [] rfl
    obtain ⟨hdest, hg2⟩ := hg1.spells.addTransition hmove hstep1
    exact ⟨role1, hg1.trans hg2, fun _ => ⟨target, path_singleton_iff.2 hdest, hpost _ _ _ _ _ hg2 hp⟩⟩
  | x :: y :: rest, before, role, a, b, source, k, k', ha, hfinish, hsource, hstep, hrun => by
    obtain ⟨target, a1, hadd, hrun⟩ := Change.bind_eq_ok.1 hrun
    obtain ⟨u, a2, hmove, hrun⟩ := Change.bind_eq_ok.1 hrun
    -- the new state is at the place behind `x`
    let r : Role := .inside name (before ++ [x]) (y :: rest) next
    obtain ⟨htarget, hg1⟩ := ha.addState hadd r
    have hrole : Function.update role target r target = r := Function.update_self _ _ _
    have hstep1 : Role.Step rules (Function.update role target r source) x
        (Function.update role target r target) := by
      rw [hg1.role source hsource, hrole]
      exact hstep x (y :: rest) rfl
    obtain ⟨hdest, hg2⟩ := hg1.spells.addTransition hmove hstep1
    have hg12 := hg1.trans hg2
    have hplace : before ++ x :: y :: rest = (before ++ [x]) ++ y :: rest := by
      rw [List.append_assoc, List.singleton_append]
    have hfinish2 := hfinish.grown hg12
    rw [hplace] at hfinish2
    obtain ⟨role', hg3, hpath⟩ := addPath hpost hg12.spells hfinish2 (hg2.ids target htarget)
      (fun z after he => by
        rw [hrole]
        show Role.Step rules (.inside name (before ++ [x]) (y :: rest) next) z _
        rw [he]
        exact .next) hrun
    refine ⟨role', hg12.trans hg3, fun _ => ?_⟩
    obtain ⟨last, hw, hp⟩ := hpath (List.cons_ne_nil y rest)
    exact ⟨last, .cons (hg3.dests _ _ _ hdest) hw, hp⟩

end Automaton
end TokenAutomata
