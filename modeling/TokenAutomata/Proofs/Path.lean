/-
# Paths through an automaton

A path spells a word with the moves it takes. It may end at an id that no
state has, but goes no further from there. The set that an automaton keeps
while it reads a word holds the ends of all paths that spell it from the
initial state (`Automaton.mem_statesAfter`); so it accepts a word just if one
of these ends has a marker (`Automaton.accepts_iff`).

If no move leads to a missing state (`Automaton.Closed`), all ends of paths
from the initial state are states.

Key definitions: `Automaton.dests`, `Automaton.markerOf?`, `Automaton.Path`,
`Automaton.Run`, `Automaton.Reaches`, `Automaton.Closed`.
Key theorems: `Automaton.path_append_iff`, `Automaton.path_iff_run`,
`Automaton.mem_statesAfter`, `Automaton.accepts_iff`,
`Automaton.validate_eq_ok_iff`.
-/
import TokenAutomata.Automaton.Accept
import TokenAutomata.Proofs.WellFormed

namespace TokenAutomata
namespace Automaton

/-- Where the state of an id leads on a symbol; nowhere if there is no such
state. -/
def dests (a : Automaton) (id : Nat) (c : Symbol) : IdSet :=
  match a.state? id with
  | some s => s.moves.dests c
  | none => ∅

/-- The marker of the state of an id, if there is such a state and it has
one. -/
def markerOf? (a : Automaton) (id : Nat) : Option String := (a.state? id).bind (·.marker)

/-- `a.Path p w q`: some moves lead from `p` to `q` and spell `w`. -/
inductive Path (a : Automaton) : Nat → List Symbol → Nat → Prop
  | nil (p : Nat) : Path a p [] p
  | cons {p q r : Nat} {c : Symbol} {w : List Symbol} :
      q ∈ a.dests p c → Path a q w r → Path a p (c :: w) r

/-- `a.Run p w ids`: some moves lead from `p` on, spell `w` and pass through
`ids`, both ends included. -/
inductive Run (a : Automaton) : Nat → List Symbol → List Nat → Prop
  | nil (p : Nat) : Run a p [] [p]
  | cons {p q : Nat} {c : Symbol} {w : List Symbol} {ids : List Nat} :
      q ∈ a.dests p c → Run a q w ids → Run a p (c :: w) (p :: ids)

/-- `w` can lead from the initial state to `q`. -/
def Reaches (a : Automaton) (w : List Symbol) (q : Nat) : Prop := a.Path a.initial.id w q

variable {a : Automaton} {p q r : Nat} {c : Symbol} {u v w : List Symbol}

theorem dests_of_state? {s : State} (h : a.state? p = some s) : a.dests p c = s.moves.dests c := by
  rw [dests, h]

theorem markerOf?_of_state? {s : State} (h : a.state? p = some s) : a.markerOf? p = s.marker := by
  rw [markerOf?, h]
  rfl

theorem mem_dests_iff : q ∈ a.dests p c ↔ ∃ s, a.state? p = some s ∧ q ∈ s.moves.dests c := by
  unfold dests
  cases a.state? p with
  | none => simp
  | some s => simp

theorem markerOf?_eq_some_iff {token : String} :
    a.markerOf? p = some token ↔ ∃ s, a.state? p = some s ∧ s.marker = some token :=
  Option.bind_eq_some_iff

/-- Where ids are not used twice, each state tells its own moves … -/
theorem mem_dests_iff_states (ha : a.ids.Nodup) :
    q ∈ a.dests p c ↔ ∃ s ∈ a.states, s.id = p ∧ q ∈ s.moves.dests c := by
  rw [mem_dests_iff]
  simp only [state?_eq_some_iff ha, and_assoc]

/-- … and its own marker. -/
theorem markerOf?_of_mem_states (ha : a.ids.Nodup) {s : State} (hs : s ∈ a.states) :
    a.markerOf? s.id = s.marker :=
  markerOf?_of_state? ((state?_eq_some_iff ha).2 ⟨hs, rfl⟩)

theorem mem_ids_of_mem_dests (h : q ∈ a.dests p c) : p ∈ a.ids := by
  obtain ⟨s, hs, -⟩ := mem_dests_iff.1 h
  exact mem_ids_iff.2 ⟨s, hs⟩

theorem mem_ids_of_markerOf? (h : (a.markerOf? p).isSome) : p ∈ a.ids := by
  obtain ⟨token, ht⟩ := Option.isSome_iff_exists.1 h
  obtain ⟨s, hs, -⟩ := markerOf?_eq_some_iff.1 ht
  exact mem_ids_iff.2 ⟨s, hs⟩

/-! ### Paths one after the other -/

@[simp] theorem path_nil_iff : a.Path p [] q ↔ p = q := by
  constructor
  · intro h
    cases h
    rfl
  · rintro rfl
    exact .nil p

theorem path_cons_iff : a.Path p (c :: w) r ↔ ∃ q, q ∈ a.dests p c ∧ a.Path q w r := by
  constructor
  · intro h
    cases h with
    | cons hq hw => exact ⟨_, hq, hw⟩
  · rintro ⟨q, hq, hw⟩
    exact .cons hq hw

theorem path_append_iff : a.Path p (u ++ v) r ↔ ∃ q, a.Path p u q ∧ a.Path q v r := by
  induction u generalizing p with
  | nil => simp
  | cons c u ih =>
    rw [List.cons_append, path_cons_iff]
    constructor
    · rintro ⟨q, hq, hw⟩
      obtain ⟨q', hu, hv⟩ := ih.1 hw
      exact ⟨q', .cons hq hu, hv⟩
    · rintro ⟨q', hu, hv⟩
      obtain ⟨q, hq, hu⟩ := path_cons_iff.1 hu
      exact ⟨q, hq, ih.2 ⟨q', hu, hv⟩⟩

theorem Path.append (hu : a.Path p u q) (hv : a.Path q v r) : a.Path p (u ++ v) r :=
  path_append_iff.2 ⟨q, hu, hv⟩

@[simp] theorem path_singleton_iff : a.Path p [c] q ↔ q ∈ a.dests p c := by
  rw [path_cons_iff]
  simp

@[simp] theorem reaches_nil_iff : a.Reaches [] q ↔ q = a.initial.id := by
  rw [Reaches, path_nil_iff, eq_comm]

theorem reaches_snoc_iff : a.Reaches (w ++ [c]) r ↔ ∃ q, a.Reaches w q ∧ r ∈ a.dests q c := by
  simp only [Reaches, path_append_iff, path_singleton_iff]

/-- A path is a run of which only the end is told. -/
theorem path_iff_run : a.Path p w q ↔ ∃ ids, a.Run p w ids ∧ ids.getLast? = some q := by
  constructor
  · intro h
    induction h with
    | nil p => exact ⟨[p], .nil p, rfl⟩
    | @cons p q r c w hq _ ih =>
      obtain ⟨ids, hrun, hlast⟩ := ih
      refine ⟨p :: ids, .cons hq hrun, ?_⟩
      rw [List.getLast?_cons, hlast]
      rfl
  · rintro ⟨ids, hrun, hlast⟩
    induction hrun with
    | nil p =>
      cases hlast
      exact .nil p
    | @cons p q' c w ids hq hrun ih =>
      refine .cons hq (ih ?_)
      cases hids : ids with
      | nil =>
        rw [hids] at hrun
        cases hrun
      | cons x xs =>
        rw [hids, List.getLast?_cons_cons] at hlast
        exact hlast

theorem Run.exists_path {ids : List Nat} (h : a.Run p w ids) : ∃ q, a.Path p w q := by
  induction h with
  | nil p => exact ⟨p, .nil p⟩
  | cons hq _ ih =>
    obtain ⟨r, hr⟩ := ih
    exact ⟨r, .cons hq hr⟩

/-! ### Reading a word -/

theorem mem_step {ids : IdSet} : q ∈ a.step ids c ↔ ∃ p ∈ ids, q ∈ a.dests p c := by
  unfold step statesOf
  rw [IdSet.mem_ofList, List.mem_flatMap]
  constructor
  · rintro ⟨s, hs, hq⟩
    obtain ⟨p, hp, hs⟩ := List.mem_filterMap.1 hs
    exact ⟨p, hp, mem_dests_iff.2 ⟨s, hs, hq⟩⟩
  · rintro ⟨p, hp, hq⟩
    obtain ⟨s, hs, hq⟩ := mem_dests_iff.1 hq
    exact ⟨s, List.mem_filterMap.2 ⟨p, hp, hs⟩, hq⟩

theorem mem_foldl_step : ∀ {w : List Symbol} {ids : IdSet},
    q ∈ w.foldl a.step ids ↔ ∃ p ∈ ids, a.Path p w q
  | [], ids => by simp
  | c :: w, ids => by
    rw [List.foldl_cons, mem_foldl_step]
    constructor
    · rintro ⟨r, hr, hw⟩
      obtain ⟨p, hp, hr⟩ := mem_step.1 hr
      exact ⟨p, hp, .cons hr hw⟩
    · rintro ⟨p, hp, hw⟩
      obtain ⟨r, hr, hw⟩ := path_cons_iff.1 hw
      exact ⟨r, mem_step.2 ⟨p, hp, hr⟩, hw⟩

/-- The set kept while reading a word holds the ends of its paths. -/
theorem mem_statesAfter : q ∈ a.statesAfter w ↔ a.Reaches w q := by
  rw [statesAfter, mem_foldl_step]
  simp [Reaches]

@[simp] theorem statesAfter_nil (a : Automaton) : a.statesAfter [] = .singleton a.initial.id := rfl

@[simp] theorem statesAfter_snoc (a : Automaton) (w : List Symbol) (c : Symbol) :
    a.statesAfter (w ++ [c]) = a.step (a.statesAfter w) c := by
  rw [statesAfter, statesAfter, List.foldl_append]
  rfl

/-- A word is accepted if one of its paths ends at a marker. -/
theorem accepts_iff : a.accepts w = true ↔ ∃ q, a.Reaches w q ∧ (a.markerOf? q).isSome := by
  unfold accepts statesOf
  rw [List.any_eq_true]
  constructor
  · rintro ⟨s, hs, hf⟩
    obtain ⟨q, hq, hs⟩ := List.mem_filterMap.1 hs
    refine ⟨q, mem_statesAfter.1 hq, ?_⟩
    rw [markerOf?_of_state? hs]
    exact hf
  · rintro ⟨q, hq, hf⟩
    obtain ⟨s, hs⟩ := mem_ids_iff.1 (mem_ids_of_markerOf? hf)
    refine ⟨s, List.mem_filterMap.2 ⟨q, mem_statesAfter.2 hq, hs⟩, ?_⟩
    rw [markerOf?_of_state? hs] at hf
    exact hf

/-! ### Automata without missing states -/

/-- Every move leads to a state. -/
def Closed (a : Automaton) : Prop := ∀ id ∈ a.targets, id ∈ a.ids

theorem validate_eq_ok_iff : a.validate = .ok () ↔ a.Closed := by
  unfold validate Closed
  cases h : a.targets.find? (!a.contains ·) with
  | none =>
    rw [List.find?_eq_none] at h
    simpa [contains] using h
  | some missing =>
    have hm := List.mem_of_find?_eq_some h
    have hn := List.find?_some h
    simp only [reduceCtorEq, false_iff, not_forall]
    exact ⟨missing, hm, by simpa [contains] using hn⟩

theorem withInitial_closed (label : String) : (withInitial label).Closed := by
  intro id hid
  cases hid

theorem mem_targets_of_mem_states {s : State} (hs : s ∈ a.states) (hq : q ∈ s.moves.targets) :
    q ∈ a.targets := List.mem_flatMap.2 ⟨s, hs, hq⟩

theorem mem_targets_of_mem_dests (h : q ∈ a.dests p c) : q ∈ a.targets := by
  obtain ⟨s, hs, hq⟩ := mem_dests_iff.1 h
  exact mem_targets_of_mem_states (mem_states_of_state? hs) (Moves.mem_targets_of_mem_dests hq)

/-- What no move leads to is not reached, the initial state apart. -/
theorem not_reaches_of_not_mem_targets (hne : q ≠ a.initial.id) (h : q ∉ a.targets) :
    ¬ ∃ w, a.Reaches w q := by
  rintro ⟨w, hw⟩
  rcases w.eq_nil_or_concat with rfl | ⟨v, x, rfl⟩
  · exact hne (reaches_nil_iff.1 hw)
  · rw [List.concat_eq_append] at hw
    obtain ⟨p, -, hq⟩ := reaches_snoc_iff.1 hw
    exact h (mem_targets_of_mem_dests hq)

theorem Closed.mem_ids (ha : a.Closed) (h : q ∈ a.dests p c) : q ∈ a.ids :=
  ha q (mem_targets_of_mem_dests h)

theorem closed_of_dests (ha : a.WellFormed) (h : ∀ p c q, q ∈ a.dests p c → q ∈ a.ids) : a.Closed := by
  intro id hid
  obtain ⟨s, hs, ht⟩ := List.mem_flatMap.1 hid
  obtain ⟨c, hc⟩ := (Moves.mem_targets_iff (ha.states s hs).moves).1 ht
  have hstate := (state?_eq_some_iff ha.nodup_ids).2 ⟨hs, rfl⟩
  exact h s.id c id (mem_dests_iff.2 ⟨s, hstate, hc⟩)

theorem Path.mem_ids (ha : a.Closed) (h : a.Path p w q) (hp : p ∈ a.ids) : q ∈ a.ids := by
  induction h with
  | nil p => exact hp
  | cons hq _ ih => exact ih (ha.mem_ids hq)

theorem Reaches.mem_ids (ha : a.Closed) (h : a.Reaches w q) : q ∈ a.ids :=
  Path.mem_ids ha h (initial_mem_ids a)

/-! ### Deterministic automata -/

theorem size_dests_le (hd : a.isDeterministic = true) {s : State} (hs : s ∈ a.states) (c : Symbol) :
    (s.moves.dests c).size ≤ 1 := by
  have hentries := List.all_eq_true.1 (List.all_eq_true.1 hd s hs)
  unfold Moves.dests
  cases hl : s.moves.entries.lookup c with
  | none => exact Nat.zero_le 1
  | some ids =>
    obtain ⟨before, rest, hsplit, -⟩ := List.lookup_eq_some_iff.1 hl
    have hmem : (c, ids) ∈ s.moves.entries := by
      rw [hsplit]
      exact List.mem_append_right _ List.mem_cons_self
    simpa using hentries (c, ids) hmem

theorem dests_unique (hd : a.isDeterministic = true) (hq : q ∈ a.dests p c) (hr : r ∈ a.dests p c) :
    q = r := by
  obtain ⟨s, hs, hq⟩ := mem_dests_iff.1 hq
  rw [dests_of_state? hs] at hr
  exact IdSet.eq_of_size_le_one (size_dests_le hd (mem_states_of_state? hs) c) hq hr

theorem Path.unique (hd : a.isDeterministic = true) (hq : a.Path p w q) (hr : a.Path p w r) :
    q = r := by
  induction hq with
  | nil p => exact path_nil_iff.1 hr
  | cons hc _ ih =>
    obtain ⟨q', hc', hr⟩ := path_cons_iff.1 hr
    obtain rfl := dests_unique hd hc hc'
    exact ih hr

end Automaton
end TokenAutomata
