/-
# What the lexer answers

An input is read piece by piece. A piece is not empty, it is accepted, and
if the input goes on after it, no path spells the piece and one more symbol
(`Automaton.IsToken`). Cutting such pieces off the front of an input can be
done in one way only, and it ends in one of three ways: nothing is left, what
is left has a path and is not accepted, or the longest part of it that has a
path ends before a symbol and is empty or not accepted. These are the three
answers of the lexer (`Automaton.lex_spec`), on every input of every
deterministic automaton without moves to missing states.

One step of the lexer is told by `follow_eq`: it follows the longest part of
the input that has a path. A cut of the input is a run of such steps
(`lexFrom_of_cuts`).

Key definitions: `Automaton.HasPath`, `Automaton.IsToken`, `Automaton.Cuts`,
`Automaton.LongestPath`.
Key theorems: `Automaton.follow_eq`, `Automaton.lexFrom_of_follow`,
`Automaton.lexFrom_of_cuts`, `Automaton.cuts_cases`, `Automaton.lex_spec`.
-/
import TokenAutomata.Lexer
import TokenAutomata.Proofs.Built
import TokenAutomata.Proofs.Path

namespace TokenAutomata
namespace Automaton

/-! ### Pieces -/

def HasPath (d : Automaton) (w : List Symbol) : Prop := ∃ q, d.Reaches w q

/-- No path goes on from `piece` into `rest`. -/
def Stops (d : Automaton) (piece rest : List Symbol) : Prop :=
  ∀ c, rest.head? = some c → ¬ d.HasPath (piece ++ [c])

/-- `piece` is a token of the given name if `rest` follows it. -/
structure IsToken (d : Automaton) (piece rest : List Symbol) (name : String) : Prop where
  nonempty : piece ≠ []
  accepted : d.accepts piece = true
  marker : ∀ q, d.Reaches piece q → d.markerOf? q = some name
  stops : d.Stops piece rest

/-- `d.Cuts start input tokens rest`: the tokens, one after the other, cover
the input from position `start` on, up to `rest`. -/
inductive Cuts (d : Automaton) : Nat → List Symbol → List Token → List Symbol → Prop
  | nil (start : Nat) (rest : List Symbol) : Cuts d start rest [] rest
  | cons {start : Nat} {piece after rest : List Symbol} {name : String} {tokens : List Token} :
      d.IsToken piece after name → Cuts d (start + piece.length) after tokens rest →
      Cuts d start (piece ++ after) ({ name, start, length := piece.length } :: tokens) rest

/-- `piece` is the longest part of `input`, from its start on, that has a
path. -/
structure LongestPath (d : Automaton) (input piece : List Symbol) : Prop where
  part : piece <+: input
  hasPath : d.HasPath piece
  longest : ∀ p, p <+: input → d.HasPath p → p.length ≤ piece.length

variable {d : Automaton} {p q start : Nat} {c : Symbol} {input piece rest u v : List Symbol}
  {tokens : List Token}

theorem hasPath_of_accepts (h : d.accepts u = true) : d.HasPath u := by
  obtain ⟨q, hq, -⟩ := accepts_iff.1 h
  exact ⟨q, hq⟩

theorem HasPath.of_append (h : d.HasPath (u ++ v)) : d.HasPath u := by
  obtain ⟨q, hq⟩ := h
  obtain ⟨p, hp, -⟩ := path_append_iff.1 hq
  exact ⟨p, hp⟩

/-- Where no path goes on, there is no longer path at all. -/
theorem Stops.longestPath (hs : d.Stops piece rest) (hp : d.HasPath piece) :
    d.LongestPath (piece ++ rest) piece := by
  refine ⟨List.prefix_append _ _, hp, fun u hu hpath => ?_⟩
  by_contra hlt
  obtain ⟨more, hmore⟩ := List.prefix_of_prefix_length_le (List.prefix_append piece rest) hu (by omega)
  cases more with
  | nil =>
    rw [List.append_nil] at hmore
    rw [hmore] at hlt
    exact hlt (Nat.le_refl _)
  | cons c more =>
    rw [← hmore, List.prefix_append_right_inj] at hu
    obtain ⟨tail, rfl⟩ := hu
    have hlonger : d.HasPath ((piece ++ [c]) ++ more) := by
      rw [List.append_assoc, List.singleton_append, hmore]
      exact hpath
    exact hs c rfl hlonger.of_append

theorem LongestPath.stops (h : d.LongestPath (piece ++ rest) piece) : d.Stops piece rest := by
  intro c hc hpath
  obtain ⟨tail, rfl⟩ := List.head?_eq_some_iff.1 hc
  have hpart : piece ++ [c] <+: piece ++ c :: tail :=
    (List.prefix_append_right_inj piece).2 (List.prefix_append [c] tail)
  have hle := h.longest _ hpart hpath
  rw [List.length_append, List.length_singleton] at hle
  omega

section Lexing

variable (hd : d.isDeterministic = true) (hc : d.Closed)

/-! ### One step -/

include hd in
theorem deterministicMove?_eq {s : State} (hs : d.state? p = some s) (c : Symbol) :
    s.deterministicMove? c = .ok (d.dests p c).least? := by
  have hsize := size_dests_le hd (mem_states_of_state? hs) c
  rw [State.deterministicMove?, if_neg (by omega), dests_of_state? hs]

theorem dests_of_deterministicMove? {s : State} (h : s.deterministicMove? c = .ok (some q)) :
    s.moves.dests c = .singleton q := by
  unfold State.deterministicMove? at h
  split_ifs at h with hmany
  have hq : q ∈ s.moves.dests c := IdSet.mem_of_least? (Except.ok.inj h)
  ext r
  rw [IdSet.mem_singleton]
  exact ⟨fun hr => IdSet.eq_of_size_le_one (by omega) hr hq, fun hr => hr ▸ hq⟩

include hd in
theorem least?_dests (hq : q ∈ d.dests p c) : (d.dests p c).least? = some q := by
  cases hl : (d.dests p c).least? with
  | none =>
    rw [IdSet.least?_eq_none_iff.1 hl] at hq
    exact absurd hq (IdSet.not_mem_empty q)
  | some r => rw [dests_unique hd (IdSet.mem_of_least? hl) hq]

theorem follow_of_missing {s : State} (hmove : s.deterministicMove? c = .ok (some q))
    (hq : d.state? q = none) : d.follow s (c :: rest) = .error (.unknownState q) := by
  have hpure : (.ok (some q) : Except AutomatonError (Option Nat)) = pure (some q) := rfl
  rw [follow, hmove, hpure, pure_bind]
  dsimp only
  rw [hq]

theorem follow_cons {s t : State} (hmove : s.deterministicMove? c = .ok (some q))
    (ht : d.state? q = some t) :
    d.follow s (c :: rest) = (d.follow t rest).map fun x => (x.1 + 1, x.2) := by
  have hpure : (.ok (some q) : Except AutomatonError (Option Nat)) = pure (some q) := rfl
  rw [follow, hmove, hpure, pure_bind]
  dsimp only
  rw [ht]
  dsimp only
  cases d.follow t rest with
  | error e => rfl
  | ok x => rfl

theorem mem_ids_of_path (h : d.Path p u q) (hq : q ∈ d.ids) : p ∈ d.ids := by
  cases h with
  | nil p => exact hq
  | cons hc _ => exact mem_ids_of_mem_dests hc

include hd in
/-- A path that cannot go on is what is followed. -/
theorem follow_eq {s last : State} (hpath : d.Path p piece q) (hs : d.state? p = some s)
    (hlast : d.state? q = some last) (hstop : ∀ c, rest.head? = some c → d.dests q c = ∅) :
    d.follow s (piece ++ rest) = .ok (piece.length, last) := by
  induction hpath generalizing s with
  | nil p =>
    obtain rfl : s = last := Option.some.inj (hs.symm.trans hlast)
    cases rest with
    | nil => rfl
    | cons c rest =>
      have hmove := deterministicMove?_eq hd hs c
      rw [hstop c rfl] at hmove
      rw [List.nil_append, follow, hmove]
      rfl
  | @cons p r q c piece hr hpath ih =>
    have hmove := deterministicMove?_eq hd hs c
    rw [least?_dests hd hr] at hmove
    obtain ⟨t, ht⟩ := mem_ids_iff.1 (mem_ids_of_path hpath (mem_ids_iff.2 ⟨last, hlast⟩))
    rw [List.cons_append, follow_cons hmove ht, ih ht hlast hstop]
    rfl

include hc in
/-- An input has a longest part that is spelt by a path from `p`. -/
theorem exists_longest (input : List Symbol) (hp : p ∈ d.ids) : ∃ piece rest q,
    input = piece ++ rest ∧ d.Path p piece q ∧ ∀ c, rest.head? = some c → d.dests q c = ∅ := by
  induction input generalizing p with
  | nil => exact ⟨[], [], p, rfl, .nil p, fun c hc => by cases hc⟩
  | cons c input ih =>
    by_cases hdests : d.dests p c = ∅
    · refine ⟨[], c :: input, p, rfl, .nil p, fun b hb => ?_⟩
      obtain rfl : c = b := Option.some.inj hb
      exact hdests
    · obtain ⟨r, hr⟩ := IdSet.ne_empty_iff.1 hdests
      obtain ⟨piece, rest, q, rfl, hpath, hstop⟩ := ih (hc.mem_ids hr)
      exact ⟨c :: piece, rest, q, rfl, .cons hr hpath, hstop⟩

include hd in
theorem stops_iff (hq : d.Reaches piece q) :
    d.Stops piece rest ↔ ∀ c, rest.head? = some c → d.dests q c = ∅ := by
  have hstep : ∀ c, d.HasPath (piece ++ [c]) ↔ d.dests q c ≠ ∅ := by
    intro c
    rw [IdSet.ne_empty_iff]
    constructor
    · rintro ⟨r, hr⟩
      obtain ⟨q', hq', hr⟩ := reaches_snoc_iff.1 hr
      obtain rfl := Path.unique hd hq hq'
      exact ⟨r, hr⟩
    · rintro ⟨r, hr⟩
      exact ⟨r, reaches_snoc_iff.2 ⟨q, hq, hr⟩⟩
  simp only [Stops, hstep, not_not]

include hd in
theorem accepts_iff_of_reaches (hq : d.Reaches u q) :
    d.accepts u = true ↔ (d.markerOf? q).isSome := by
  rw [accepts_iff]
  constructor
  · rintro ⟨q', hq', hf⟩
    rw [Path.unique hd hq hq']
    exact hf
  · exact fun hf => ⟨q, hq, hf⟩

include hd in
theorem follow_initial {last : State} (hpath : d.Reaches piece q) (hlast : d.state? q = some last)
    (hstop : d.Stops piece rest) : d.follow d.initial (piece ++ rest) = .ok (piece.length, last) :=
  follow_eq hd hpath (state?_initial d) hlast ((stops_iff hd hpath).1 hstop)

/-- What is followed to a marker is a token, and the lexer goes on behind it. -/
theorem lexFrom_of_follow {n : Nat} {last : State} {name : String}
    (hfollow : d.follow d.initial input = .ok (n + 1, last)) (hmarker : last.marker = some name) :
    d.lexFrom start input = (d.lexFrom (start + (n + 1)) (input.drop (n + 1))).map
      ({ name, start, length := n + 1 } :: ·) := by
  cases input with
  | nil => cases hfollow
  | cons c rest =>
    rw [lexFrom, hfollow]
    simp only [hmarker, List.drop_succ_cons, Nat.add_assoc]
    cases d.lexFrom (start + (n + 1)) (rest.drop n) with
    | error e => rfl
    | ok tokens => rfl

include hd in
/-- A token at the front of the input is cut off. -/
theorem lexFrom_of_isToken {name : String} (h : d.IsToken piece rest name) :
    d.lexFrom start (piece ++ rest) = (d.lexFrom (start + piece.length) rest).map
      ({ name, start, length := piece.length } :: ·) := by
  obtain ⟨q, hq⟩ := hasPath_of_accepts h.accepted
  obtain ⟨last, hlast, hmarker⟩ := markerOf?_eq_some_iff.1 (h.marker q hq)
  have hfollow := follow_initial hd hq hlast h.stops
  cases piece with
  | nil => exact absurd rfl h.nonempty
  | cons b piece =>
    rw [lexFrom_of_follow hfollow hmarker, ← List.length_cons, List.drop_left]

include hd in
/-- Where no path goes on and what was read is no token, the next symbol is
unexpected. -/
theorem lexFrom_of_unexpected {tail : List Symbol} (hpath : d.HasPath piece)
    (hstop : d.Stops piece (c :: tail)) (hmem : ∀ q, d.Reaches piece q → q ∈ d.ids)
    (hno : piece = [] ∨ d.accepts piece = false) :
    d.lexFrom start (piece ++ c :: tail) = .error (.unexpectedSymbol c (start + piece.length)) := by
  obtain ⟨q, hq⟩ := hpath
  obtain ⟨last, hlast⟩ := mem_ids_iff.1 (hmem q hq)
  have hfollow := follow_initial hd hq hlast hstop
  cases piece with
  | nil =>
    rw [List.nil_append, List.length_nil] at hfollow
    rw [List.nil_append, lexFrom, hfollow]
    rfl
  | cons b piece =>
    have hno : d.accepts (b :: piece) = false := hno.resolve_left (List.cons_ne_nil b piece)
    have hmarker : last.marker = none := by
      rw [← Option.not_isSome_iff_eq_none, ← markerOf?_of_state? hlast,
        ← accepts_iff_of_reaches hd hq, hno]
      exact Bool.false_ne_true
    rw [List.cons_append, List.length_cons] at hfollow
    rw [List.cons_append, lexFrom, hfollow]
    simp only [hmarker, List.drop_left, List.length_cons, Nat.add_assoc]

include hd in
/-- An input that is all path but no token ends too early. -/
theorem lexFrom_of_unfinished (hne : input ≠ []) (hpath : d.HasPath input)
    (hmem : ∀ q, d.Reaches input q → q ∈ d.ids) (hno : d.accepts input = false) :
    d.lexFrom start input = .error (.unexpectedEnd start) := by
  obtain ⟨q, hq⟩ := hpath
  obtain ⟨last, hlast⟩ := mem_ids_iff.1 (hmem q hq)
  have hstop : d.Stops input [] := fun c hc => by cases hc
  have hfollow := follow_initial hd hq hlast hstop
  rw [List.append_nil] at hfollow
  have hmarker : last.marker = none := by
    rw [← Option.not_isSome_iff_eq_none, ← markerOf?_of_state? hlast,
      ← accepts_iff_of_reaches hd hq, hno]
    exact Bool.false_ne_true
  cases input with
  | nil => exact absurd rfl hne
  | cons b input =>
    rw [List.length_cons] at hfollow
    rw [lexFrom, hfollow]
    simp only [hmarker, List.drop_length]

/-! ### All steps -/

include hd in
/-- The lexer cuts an input as far as it is cut into tokens, and goes on. -/
theorem lexFrom_of_cuts (h : d.Cuts start input tokens rest) : ∃ front, input = front ++ rest ∧
    d.lexFrom start input = (d.lexFrom (start + front.length) rest).map (tokens ++ ·) := by
  induction h with
  | nil start rest =>
    refine ⟨[], rfl, ?_⟩
    rw [List.length_nil, Nat.add_zero]
    cases d.lexFrom start rest with
    | error e => rfl
    | ok tokens => rfl
  | @cons start piece after rest name tokens htoken _ ih =>
    obtain ⟨front, rfl, hfront⟩ := ih
    refine ⟨piece ++ front, (List.append_assoc _ _ _).symm, ?_⟩
    rw [lexFrom_of_isToken hd htoken, hfront, List.length_append, Nat.add_assoc]
    cases d.lexFrom (start + (piece.length + front.length)) rest with
    | error e => rfl
    | ok tokens => rfl

include hd hc in
/-- Every input can be cut into tokens up to where nothing is left, a symbol
is unexpected or a token is unfinished. -/
theorem cuts_cases (start : Nat) (input : List Symbol) :
    (∃ tokens, d.Cuts start input tokens []) ∨
    (∃ tokens piece c tail, d.Cuts start input tokens (piece ++ c :: tail) ∧ d.HasPath piece ∧
      d.Stops piece (c :: tail) ∧ (piece = [] ∨ d.accepts piece = false)) ∨
    ∃ tokens rest, d.Cuts start input tokens rest ∧ rest ≠ [] ∧ d.HasPath rest ∧
      d.accepts rest = false := by
  induction hn : input.length using Nat.strongRecOn generalizing start input with
  | ind n ih =>
    obtain ⟨piece, rest, q, rfl, hpath, hstop⟩ := exists_longest hc input (initial_mem_ids d)
    have hstops : d.Stops piece rest := (stops_iff hd hpath).2 hstop
    by_cases hno : piece = [] ∨ d.accepts piece = false
    · cases rest with
      | cons c tail => exact Or.inr (Or.inl ⟨[], piece, c, tail, .nil _ _, ⟨q, hpath⟩, hstops, hno⟩)
      | nil =>
        rw [List.append_nil]
        by_cases hne : piece = []
        · rw [hne]
          exact Or.inl ⟨[], .nil start []⟩
        · exact Or.inr (Or.inr ⟨[], piece, .nil start piece, hne, ⟨q, hpath⟩, hno.resolve_left hne⟩)
    · -- a token: what follows it is shorter
      rw [not_or, Bool.not_eq_false] at hno
      obtain ⟨hne, hacc⟩ := hno
      obtain ⟨name, hname⟩ := Option.isSome_iff_exists.1 ((accepts_iff_of_reaches hd hpath).1 hacc)
      have htoken : d.IsToken piece rest name :=
        ⟨hne, hacc, fun r hr => Path.unique hd hpath hr ▸ hname, hstops⟩
      have hlt : rest.length < n := by
        have hpos := List.length_pos_iff.2 hne
        rw [List.length_append] at hn
        omega
      rcases ih rest.length hlt (start + piece.length) rest rfl with
        ⟨tokens, h⟩ | ⟨tokens, p, c, tail, h, hp⟩ | ⟨tokens, r, h, hr⟩
      · exact Or.inl ⟨_, .cons htoken h⟩
      · exact Or.inr (Or.inl ⟨_, p, c, tail, .cons htoken h, hp⟩)
      · exact Or.inr (Or.inr ⟨_, r, .cons htoken h, hr⟩)

end Lexing

/-! ### The answers -/

/-- Tokens cover the input up to where the longest part that has a path ends
before `symbol`, at `position`, and is no token. -/
def Unexpected (d : Automaton) (input : List Symbol) (symbol : Symbol) (position : Nat) : Prop :=
  ∃ s tokens piece, d.Cuts 0 input tokens (input.drop s) ∧ d.LongestPath (input.drop s) piece ∧
    position = s + piece.length ∧ input[position]? = some symbol ∧
    (piece = [] ∨ d.accepts piece = false)

/-- Tokens cover the input up to `start`, and what is left has a path but is
no token. -/
def Unfinished (d : Automaton) (input : List Symbol) (start : Nat) : Prop :=
  ∃ tokens, d.Cuts 0 input tokens (input.drop start) ∧ input.drop start ≠ [] ∧
    d.HasPath (input.drop start) ∧ d.accepts (input.drop start) = false

/-- What it takes for an answer to be right. -/
def Answers (d : Automaton) (input : List Symbol) : Except LexError (List Token) → Prop
  | .ok tokens => d.Cuts 0 input tokens []
  | .error (.unexpectedSymbol symbol position) => d.Unexpected input symbol position
  | .error (.unexpectedEnd start) => d.Unfinished input start
  | .error (.automaton _) => False

section Answers

variable (hd : d.isDeterministic = true) (hc : d.Closed)

theorem front_length {front : List Symbol} {s : Nat} (h : input = front ++ input.drop s)
    (hs : s ≤ input.length) : front.length = s := by
  have hlength := congrArg List.length h
  rw [List.length_append, List.length_drop] at hlength
  omega

include hd in
theorem lex_of_cuts (h : d.Cuts 0 input tokens []) : d.lex input = .ok tokens := by
  obtain ⟨front, -, hlex⟩ := lexFrom_of_cuts hd h
  rw [lex, hlex, lexFrom]
  show Except.ok (tokens ++ []) = _
  rw [List.append_nil]

include hd hc in
theorem lex_of_unexpected {symbol : Symbol} {position : Nat} (h : d.Unexpected input symbol position) :
    d.lex input = .error (.unexpectedSymbol symbol position) := by
  obtain ⟨s, tokens, piece, hcuts, hlongest, rfl, hsymbol, hno⟩ := h
  obtain ⟨rest, hrest⟩ := hlongest.part
  obtain ⟨front, hfront, hlex⟩ := lexFrom_of_cuts hd hcuts
  have hlt : s + piece.length < input.length := (List.getElem?_eq_some_iff.1 hsymbol).1
  have hhead : rest.head? = some symbol := by
    rw [← hsymbol, ← List.head?_drop, ← List.drop_drop, ← hrest, List.drop_left]
  obtain ⟨tail, rfl⟩ := List.head?_eq_some_iff.1 hhead
  rw [← hrest] at hlongest hlex
  have hpath := hlongest.hasPath
  rw [lex, hlex, lexFrom_of_unexpected hd hpath hlongest.stops (fun q hq => hq.mem_ids hc) hno,
    front_length hfront (by omega), Nat.zero_add]
  rfl

include hd hc in
theorem lex_of_unfinished (h : d.Unfinished input start) :
    d.lex input = .error (.unexpectedEnd start) := by
  obtain ⟨tokens, hcuts, hne, hpath, hno⟩ := h
  obtain ⟨front, hfront, hlex⟩ := lexFrom_of_cuts hd hcuts
  have hlt : start < input.length := by
    by_contra hge
    exact hne (List.drop_eq_nil_of_le (by omega))
  rw [lex, hlex, lexFrom_of_unfinished hd hne hpath (fun q hq => hq.mem_ids hc) hno,
    front_length hfront (by omega), Nat.zero_add]
  rfl

include hd hc in
/-- Every input ends in one of the three ways. -/
theorem answer_cases (input : List Symbol) : (∃ tokens, d.Cuts 0 input tokens []) ∨
    (∃ symbol position, d.Unexpected input symbol position) ∨ ∃ start, d.Unfinished input start := by
  rcases cuts_cases hd hc 0 input with
    ⟨tokens, h⟩ | ⟨tokens, piece, c, tail, h, hpath, hstop, hno⟩ | ⟨tokens, rest, h, hne, hpath, hno⟩
  · exact Or.inl ⟨tokens, h⟩
  · obtain ⟨front, rfl, -⟩ := lexFrom_of_cuts hd h
    refine Or.inr (Or.inl ⟨c, front.length + piece.length, front.length, tokens, piece, ?_, ?_, rfl, ?_, hno⟩)
    · rw [List.drop_left]
      exact h
    · rw [List.drop_left]
      exact hstop.longestPath hpath
    · rw [← List.head?_drop, ← List.drop_drop, List.drop_left, List.drop_left]
      rfl
  · obtain ⟨front, rfl, -⟩ := lexFrom_of_cuts hd h
    refine Or.inr (Or.inr ⟨front.length, tokens, ?_⟩)
    rw [List.drop_left]
    exact ⟨h, hne, hpath, hno⟩

include hd hc in
theorem lex_answers (input : List Symbol) : d.Answers input (d.lex input) := by
  rcases answer_cases hd hc input with ⟨tokens, h⟩ | ⟨symbol, position, h⟩ | ⟨start, h⟩
  · rw [lex_of_cuts hd h]
    exact h
  · rw [lex_of_unexpected hd hc h]
    exact h
  · rw [lex_of_unfinished hd hc h]
    exact h

/-- A token's text is accepted, and nothing longer that starts there is. -/
theorem Cuts.longest (h : d.Cuts start input tokens rest) {front : List Symbol}
    (hfront : front.length = start) {t : Token} (ht : t ∈ tokens) :
    d.accepts (t.text (front ++ input)) = true ∧
      ∀ p, p <+: (front ++ input).drop t.start → d.accepts p = true → p.length ≤ t.length := by
  induction h generalizing front with
  | nil start rest => cases ht
  | @cons start piece after rest name tokens htoken _ ih =>
    rcases List.mem_cons.1 ht with rfl | ht
    · have hdrop : (front ++ (piece ++ after)).drop start = piece ++ after := by
        rw [← hfront, List.drop_left]
      refine ⟨?_, fun p hp hacc => ?_⟩
      · rw [Token.text, hdrop, List.take_left]
        exact htoken.accepted
      · have hlongest := htoken.stops.longestPath (hasPath_of_accepts htoken.accepted)
        exact hlongest.longest p (hdrop ▸ hp) (hasPath_of_accepts hacc)
    · have hlength : (front ++ piece).length = start + piece.length := by
        rw [List.length_append, hfront]
      rw [← List.append_assoc]
      exact ih hlength ht

end Answers

/-- What the lexer answers on any input: tokens just if they cover the input,
an unexpected symbol or an unfinished token just where one is, and no fault of
the automaton. Each token covers the longest accepted text that starts where
it starts. -/
theorem lex_spec (hd : d.isDeterministic = true) (hv : d.validate = .ok ()) (input : List Symbol) :
    (∀ cause, d.lex input ≠ .error (.automaton cause)) ∧
    (∀ tokens, d.lex input = .ok tokens ↔ d.Cuts 0 input tokens []) ∧
    (∀ symbol position, d.lex input = .error (.unexpectedSymbol symbol position) ↔
      d.Unexpected input symbol position) ∧
    (∀ start, d.lex input = .error (.unexpectedEnd start) ↔ d.Unfinished input start) ∧
    ∀ tokens rest, d.Cuts 0 input tokens rest → ∀ t ∈ tokens, d.accepts (t.text input) = true ∧
      ∀ p, p <+: input.drop t.start → d.accepts p = true → p.length ≤ t.length := by
  have hc := validate_eq_ok_iff.1 hv
  have hanswer := lex_answers hd hc input
  refine ⟨fun cause he => ?_, fun tokens => ⟨fun he => ?_, lex_of_cuts hd⟩,
    fun symbol position => ⟨fun he => ?_, lex_of_unexpected hd hc⟩,
    fun start => ⟨fun he => ?_, lex_of_unfinished hd hc⟩, fun tokens rest h t ht => ?_⟩
  · rw [he] at hanswer
    exact hanswer
  · rw [he] at hanswer
    exact hanswer
  · rw [he] at hanswer
    exact hanswer
  · rw [he] at hanswer
    exact hanswer
  · have hfront : ([] : List Symbol).length = 0 := rfl
    exact h.longest hfront ht

/-- Knows the one word `if`. -/
def onlyIf : Automaton :=
  { initial := { id := 0, label := rootLabel, moves := ⟨[('i', .singleton 1)]⟩ }
    others := [{ id := 1, label := "IF_1", moves := ⟨[('f', .singleton 2)]⟩ },
      { id := 2, label := "IF", marker := some "IF" }]
    nextId := 3 }

theorem onlyIf_unexpected : onlyIf.isDeterministic = true ∧ onlyIf.validate = .ok () ∧
    onlyIf.Unexpected ['i', 'f', 'x'] 'x' 2 := by
  have hd : onlyIf.isDeterministic = true := by decide
  have hv : onlyIf.validate = .ok () := by decide
  obtain ⟨-, -, hunexpected, -⟩ := lex_spec hd hv ['i', 'f', 'x']
  exact ⟨hd, hv, (hunexpected 'x' 2).1 (by decide +kernel)⟩

end Automaton
end TokenAutomata
