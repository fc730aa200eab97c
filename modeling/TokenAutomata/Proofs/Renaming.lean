/-
# The same states under other ids

If the states of an automaton are put under other ids, in the same order and
no two under the same id (`Automaton.Renamed`), a path leads from state to
state as before. So the same words are accepted. The lexer takes the same
steps, whether the automaton is deterministic or not, since it tells apart only
how many destinations a symbol has; so it gives the same answers.

Key definitions: `Automaton.Renamed`.
Key theorems: `Automaton.Renamed.state?_eq`, `Automaton.Renamed.reaches_iff`,
`Automaton.Renamed.accepts_eq`, `Automaton.Renamed.follow_eq`,
`Automaton.Renamed.lex_eq`.
-/
import Mathlib.Data.List.Find
import TokenAutomata.Proofs.LexerOutcome

namespace TokenAutomata

/-! ### Sets under other ids -/

namespace IdSet

variable {f : Nat → Nat} {s : IdSet}

theorem size_map (hf : ∀ x ∈ s, ∀ y ∈ s, f x = f y → x = y) : (s.map f).size = s.size := by
  have hnodup : (s.toList.map f).Nodup := List.Nodup.map_on hf (s.ascending.imp Nat.ne_of_lt)
  have hmem : ∀ x, x ∈ (s.map f).toList ↔ x ∈ s.toList.map f := fun x => by
    rw [mem_toList, mem_map, List.mem_map]
    rfl
  have hperm := (List.perm_ext_iff_of_nodup ((s.map f).ascending.imp Nat.ne_of_lt) hnodup).2 hmem
  rw [size, hperm.length_eq, List.length_map, size]

theorem least?_map (h : s.size ≤ 1) : (s.map f).least? = s.least?.map f := by
  unfold size at h
  rw [map, least?, least?]
  cases hs : s.toList with
  | nil => rfl
  | cons x rest =>
    rw [hs, List.length_cons] at h
    rw [List.eq_nil_of_length_eq_zero (show rest.length = 0 by omega)]
    rfl

end IdSet

namespace Automaton

/-- `b` has the states of `a`, in the same order, under the ids that `g` gives
them. -/
structure Renamed (a : Automaton) (g : Nat → Nat) (b : Automaton) : Prop where
  initial : b.initial = a.initial.rename g
  others : b.others = a.others.map (·.rename g)
  injective : ∀ p ∈ a.ids, ∀ q ∈ a.ids, g p = g q → p = q

namespace Renamed

variable {a b : Automaton} {g : Nat → Nat} (h : Renamed a g b)

include h

theorem states : b.states = a.states.map (·.rename g) := by
  rw [Automaton.states, h.initial, h.others, Automaton.states, List.map_cons]

/-- A state is found under its new id. -/
theorem state?_eq {p : Nat} (hp : p ∈ a.ids) : b.state? (g p) = (a.state? p).map (·.rename g) := by
  rw [state?, h.states, List.find?_map, state?]
  congr 1
  refine List.find?_congr fun s hs => ?_
  have hid : s.id ∈ a.ids := List.mem_map_of_mem hs
  have hiff : g s.id = g p ↔ s.id = p := ⟨h.injective _ hid _ hp, congrArg g⟩
  exact beq_eq_beq.2 hiff

theorem dests_eq {p : Nat} (hp : p ∈ a.ids) (c : Symbol) : b.dests (g p) c = (a.dests p c).map g := by
  rw [dests, h.state?_eq hp, dests]
  cases a.state? p with
  | none => rfl
  | some s => exact Moves.dests_rename s.moves g c

theorem markerOf?_eq {p : Nat} (hp : p ∈ a.ids) : b.markerOf? (g p) = a.markerOf? p := by
  rw [markerOf?, h.state?_eq hp, markerOf?]
  cases a.state? p <;> rfl

/-! ### Words -/

theorem path_iff (ha : a.Closed) {w : List Symbol} {p x : Nat} (hp : p ∈ a.ids) :
    b.Path (g p) w x ↔ ∃ q, a.Path p w q ∧ g q = x := by
  induction w generalizing p with
  | nil => simp
  | cons c w ih =>
    simp only [path_cons_iff, h.dests_eq hp, IdSet.mem_map]
    constructor
    · rintro ⟨_, ⟨q, hq, rfl⟩, hw⟩
      obtain ⟨r, hr, rfl⟩ := (ih (ha.mem_ids hq)).1 hw
      exact ⟨r, ⟨q, hq, hr⟩, rfl⟩
    · rintro ⟨r, ⟨q, hq, hr⟩, rfl⟩
      exact ⟨g q, ⟨q, hq, rfl⟩, (ih (ha.mem_ids hq)).2 ⟨r, hr, rfl⟩⟩

theorem reaches_iff (ha : a.Closed) {w : List Symbol} {x : Nat} :
    b.Reaches w x ↔ ∃ q, a.Reaches w q ∧ g q = x := by
  rw [Reaches, h.initial]
  exact h.path_iff ha a.initial_mem_ids

theorem accepts_eq (ha : a.Closed) (w : List Symbol) : b.accepts w = a.accepts w := by
  rw [Bool.eq_iff_iff, accepts_iff, accepts_iff]
  constructor
  · rintro ⟨_, hx, hm⟩
    obtain ⟨q, hq, rfl⟩ := (h.reaches_iff ha).1 hx
    rw [h.markerOf?_eq (hq.mem_ids ha)] at hm
    exact ⟨q, hq, hm⟩
  · rintro ⟨q, hq, hm⟩
    rw [← h.markerOf?_eq (hq.mem_ids ha)] at hm
    exact ⟨g q, (h.reaches_iff ha).2 ⟨q, hq, rfl⟩, hm⟩

/-! ### Texts -/

/-- The lexer sees as many destinations as before, and the only one is the same
state. -/
theorem deterministicMove?_eq (ha : a.Closed) {s : State} (hs : s ∈ a.states) (c : Symbol) :
    (s.rename g).deterministicMove? c = (s.deterministicMove? c).map (Option.map g) := by
  have hmem : ∀ x ∈ s.moves.dests c, x ∈ a.ids := fun x hx =>
    ha x (mem_targets_of_mem_states hs (Moves.mem_targets_of_mem_dests hx))
  have hsize : ((s.rename g).moves.dests c).size = (s.moves.dests c).size := by
    rw [State.rename, Moves.dests_rename]
    exact IdSet.size_map fun x hx y hy => h.injective x (hmem x hx) y (hmem y hy)
  rw [State.deterministicMove?, hsize, State.deterministicMove?]
  split_ifs with hmany
  · rfl
  · rw [State.rename, Moves.dests_rename, IdSet.least?_map (by omega)]
    rfl

theorem follow_eq (ha : a.Closed) : ∀ {input : List Symbol} {s : State}, s ∈ a.states →
    b.follow (s.rename g) input = (a.follow s input).map fun (n, t) => (n, t.rename g)
  | [], s, _ => rfl
  | c :: rest, s, hs => by
    have hmove' := h.deterministicMove?_eq ha hs c
    cases hmove : s.deterministicMove? c with
    | error cause =>
      rw [hmove] at hmove'
      rw [follow, hmove', follow, hmove]
      rfl
    | ok target =>
      rw [hmove] at hmove'
      cases target with
      | none =>
        rw [follow, hmove', follow, hmove]
        rfl
      | some id =>
        have hmem : id ∈ s.moves.dests c := dests_of_deterministicMove? hmove ▸ IdSet.mem_singleton.2 rfl
        have hid : id ∈ a.ids := ha id (mem_targets_of_mem_states hs (Moves.mem_targets_of_mem_dests hmem))
        obtain ⟨t, ht⟩ := mem_ids_iff.1 hid
        have ht' : b.state? (g id) = some (t.rename g) := by
          rw [h.state?_eq hid, ht]
          rfl
        rw [follow_cons hmove' ht', follow_cons hmove ht, follow_eq ha (mem_states_of_state? ht)]
        cases a.follow t rest <;> rfl

theorem lexFrom_eq (ha : a.Closed) (start : Nat) (input : List Symbol) :
    b.lexFrom start input = a.lexFrom start input := by
  have hfollow : ∀ text, b.follow b.initial text =
      (a.follow a.initial text).map fun (n, t) => (n, t.rename g) := fun text => by
    rw [h.initial]
    exact h.follow_eq ha List.mem_cons_self
  fun_induction a.lexFrom start input with
  | case1 start => rw [lexFrom]
  | case2 start c rest cause hcause =>
    rw [lexFrom, hfollow, hcause]
    rfl
  | case3 start c rest s hnone =>
    rw [lexFrom, hfollow, hnone]
    rfl
  | case4 start c rest n last hsome name hmarker ih =>
    have hmarker' : (last.rename g).marker = some name := hmarker
    rw [lexFrom, hfollow, hsome]
    simp only [Except.map, hmarker', ih]
  | case5 start c rest n last hsome hend hmarker =>
    have hmarker' : (last.rename g).marker = none := hmarker
    rw [lexFrom, hfollow, hsome]
    simp only [Except.map, hmarker', hend]
  | case6 start c rest n last hsome d tail hrest hmarker =>
    have hmarker' : (last.rename g).marker = none := hmarker
    rw [lexFrom, hfollow, hsome]
    simp only [Except.map, hmarker', hrest]

theorem lex_eq (ha : a.Closed) (input : List Symbol) : b.lex input = a.lex input :=
  h.lexFrom_eq ha 0 input

end Renamed
end Automaton
end TokenAutomata
