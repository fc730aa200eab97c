/-
# Texts cut where a token ends

The lexer starts anew behind each token. So a text may be cut where one of its
tokens ends, and its parts give the same tokens (`Automaton.lexFrom_split`).
The other way round, a text of tokens may be continued if the state where its
last token ends has no move on the next symbol: that token does not get any
longer, and what follows is read as if it stood alone
(`Automaton.lexFrom_join`). Positions count from where the whole text begins,
those in errors too (`Automaton.lexFrom_add`).

The automaton need not be deterministic for this. Wherever a text was followed
there was one destination, so it leads to one state (`Automaton.follow_leads`).

Key definitions: `Token.shift`, `LexError.shift`, `shiftAnswer`,
`Automaton.Emits`.
Key theorems: `Automaton.follow_append`, `Automaton.follow_leads`,
`Automaton.lexFrom_split`, `Automaton.lexFrom_join`,
`Automaton.lex_at_boundary`.
-/
import Mathlib.Algebra.GroupWithZero.Nat
import TokenAutomata.Proofs.LexerOutcome

namespace TokenAutomata

/-- The same piece of text with `n` symbols more before it. -/
def Token.shift (n : Nat) (t : Token) : Token := { t with start := n + t.start }

def LexError.shift (n : Nat) : LexError → LexError
  | .unexpectedSymbol symbol position => .unexpectedSymbol symbol (n + position)
  | .unexpectedEnd start => .unexpectedEnd (n + start)
  | .automaton cause => .automaton cause

/-- An answer of the lexer with all positions `n` higher. -/
def shiftAnswer (n : Nat) : Except LexError (List Token) → Except LexError (List Token)
  | .ok tokens => .ok (tokens.map (Token.shift n))
  | .error e => .error (e.shift n)

namespace Automaton

variable {d : Automaton} {p q n k start : Nat} {s t last : State} {c : Symbol}
  {input u v x y : List Symbol} {tokens : List Token}

/-! ### How far a text is followed -/

/-- The first symbol is at fault, or it is not followed, or it leads to a state
from which the rest is followed. -/
theorem follow_cases (d : Automaton) (s : State) (c : Symbol) :
    (∃ cause, ∀ rest, d.follow s (c :: rest) = .error cause) ∨
    (∀ rest, d.follow s (c :: rest) = .ok (0, s)) ∨
    ∃ q t, s.moves.dests c = .singleton q ∧ d.state? q = some t ∧
      ∀ rest, d.follow s (c :: rest) = (d.follow t rest).map fun x => (x.1 + 1, x.2) := by
  cases hmove : s.deterministicMove? c with
  | error cause => exact .inl ⟨cause, fun rest => by rw [follow, hmove]; rfl⟩
  | ok target =>
    cases target with
    | none => exact .inr (.inl fun rest => by rw [follow, hmove]; rfl)
    | some q =>
      cases ht : d.state? q with
      | none => exact .inl ⟨.unknownState q, fun rest => follow_of_missing hmove ht⟩
      | some t =>
        exact .inr (.inr ⟨q, t, dests_of_deterministicMove? hmove, ht, fun rest => follow_cons hmove ht⟩)

/-- A text behind another one is followed if that one was to its end, and from
the state it leads to. -/
theorem follow_append (s : State) (u v : List Symbol) : d.follow s (u ++ v) =
    match d.follow s u with
    | .error cause => .error cause
    | .ok (n, last) =>
      if n = u.length then (d.follow last v).map fun x => (n + x.1, x.2) else .ok (n, last) := by
  induction u generalizing s with
  | nil =>
    show d.follow s v = (d.follow s v).map fun x => (0 + x.1, x.2)
    cases d.follow s v with
    | error cause => rfl
    | ok x => simp [Except.map]
  | cons c u ih =>
    rw [List.cons_append]
    rcases follow_cases d s c with ⟨cause, hc⟩ | hc | ⟨q, t, -, -, hc⟩
    · rw [hc, hc]
    · rw [hc, hc]
      rfl
    · rw [hc, hc, ih]
      cases d.follow t u with
      | error cause => rfl
      | ok x =>
        simp only [Except.map, List.length_cons, Nat.add_right_cancel_iff]
        split_ifs with hall
        · cases d.follow x.2 v with
          | error cause => rfl
          | ok y => simp only [Nat.add_right_comm]
        · rfl

theorem follow_of_no_move (h : ∀ c, v.head? = some c → s.moves.dests c = ∅) :
    d.follow s v = .ok (0, s) := by
  cases v with
  | nil => rfl
  | cons c v =>
    rw [follow, State.deterministicMove?, h c rfl]
    rfl

theorem eq_of_follow_zero (h : d.follow s v = .ok (0, last)) : last = s := by
  cases v with
  | nil =>
    cases h
    rfl
  | cons c v =>
    rcases follow_cases d s c with ⟨cause, hc⟩ | hc | ⟨q, t, -, -, hc⟩
    · cases (hc v).symm.trans h
    · cases (hc v).symm.trans h
      rfl
    · obtain ⟨x, -, hx⟩ := except_map_eq_ok.1 ((hc v).symm.trans h)
      cases hx

/-- What is followed does not get longer if it ends before the text does, or if
there is no move on what stands behind the text. -/
theorem follow_append_of_stuck (h : d.follow s u = .ok (n, last))
    (hstuck : n = u.length → ∀ c, v.head? = some c → last.moves.dests c = ∅) :
    d.follow s (u ++ v) = .ok (n, last) := by
  rw [follow_append, h]
  dsimp only
  split_ifs with hall
  · rw [follow_of_no_move (hstuck hall)]
    rfl
  · rfl

/-- What is followed of a text ends in its front part only if the front part
alone is followed as far. -/
theorem follow_of_append (h : d.follow s (u ++ v) = .ok (n, last)) (hn : n ≤ u.length) :
    d.follow s u = .ok (n, last) := by
  rw [follow_append] at h
  cases hu : d.follow s u with
  | error cause =>
    rw [hu] at h
    cases h
  | ok x =>
    rw [hu] at h
    dsimp only at h
    split_ifs at h with hall
    · obtain ⟨⟨m, t⟩, hv, he⟩ := except_map_eq_ok.1 h
      obtain ⟨hsum, rfl⟩ := Prod.mk.inj he
      obtain rfl : m = 0 := by omega
      rw [eq_of_follow_zero hv, ← hsum]
      rfl
    · exact h

/-- What is followed leads to one state only. -/
theorem follow_leads (hs : d.state? p = some s) (h : d.follow s input = .ok (n, last)) :
    n ≤ input.length ∧ ∃ q, d.state? q = some last ∧ ∀ r, d.Path p (input.take n) r ↔ r = q := by
  induction input generalizing p s n with
  | nil =>
    cases h
    exact ⟨Nat.zero_le _, p, hs, fun r => path_nil_iff.trans eq_comm⟩
  | cons c rest ih =>
    rcases follow_cases d s c with ⟨cause, hc⟩ | hc | ⟨q, t, hdests, ht, hc⟩
    · cases (hc rest).symm.trans h
    · cases (hc rest).symm.trans h
      exact ⟨Nat.zero_le _, p, hs, fun r => path_nil_iff.trans eq_comm⟩
    · obtain ⟨⟨m, t'⟩, hrest, he⟩ := except_map_eq_ok.1 ((hc rest).symm.trans h)
      obtain ⟨rfl, rfl⟩ := Prod.mk.inj he
      obtain ⟨hle, q', hq', hleads⟩ := ih ht hrest
      refine ⟨Nat.succ_le_succ hle, q', hq', fun r => ?_⟩
      rw [List.take_succ_cons, path_cons_iff, dests_of_state? hs, hdests]
      simp only [IdSet.mem_singleton, exists_eq_left, hleads]

/-! ### From token to token -/

/-- With `after` behind it, `piece` is followed to `q` and no further, and it is a
token of the given name. -/
structure Emits (d : Automaton) (piece after : List Symbol) (name : String) (q : Nat) : Prop where
  nonempty : piece ≠ []
  leads : ∀ p, d.Reaches piece p ↔ p = q
  followed : ∃ last, d.state? q = some last ∧ last.marker = some name ∧
    d.follow d.initial (piece ++ after) = .ok (piece.length, last)

namespace Emits

variable {piece after : List Symbol} {name : String}

theorem lexFrom_eq (h : d.Emits piece after name q) (start : Nat) : d.lexFrom start (piece ++ after) =
    (d.lexFrom (start + piece.length) after).map ({ name, start, length := piece.length } :: ·) := by
  obtain ⟨last, -, hmarker, hfollow⟩ := h.followed
  cases piece with
  | nil => exact absurd rfl h.nonempty
  | cons b piece => rw [lexFrom_of_follow hfollow hmarker, ← List.length_cons, List.drop_left]

theorem of_append (h : d.Emits piece (after ++ y) name q) : d.Emits piece after name q := by
  obtain ⟨last, hlast, hmarker, hfollow⟩ := h.followed
  rw [← List.append_assoc] at hfollow
  refine ⟨h.nonempty, h.leads, last, hlast, hmarker, follow_of_append hfollow ?_⟩
  rw [List.length_append]
  omega

/-- A token stays one with more text behind it, unless it ended where the text
did and goes on now. -/
theorem append (h : d.Emits piece after name q)
    (hstuck : after = [] → ∀ c, y.head? = some c → d.dests q c = ∅) :
    d.Emits piece (after ++ y) name q := by
  obtain ⟨last, hlast, hmarker, hfollow⟩ := h.followed
  refine ⟨h.nonempty, h.leads, last, hlast, hmarker, ?_⟩
  rw [← List.append_assoc]
  refine follow_append_of_stuck hfollow fun hall => ?_
  rw [List.length_append] at hall
  have hend : after = [] := List.length_eq_zero_iff.1 (by omega)
  simpa only [dests_of_state? hlast] using hstuck hend

end Emits

/-- What is lexed is nothing or begins with a token. -/
theorem lexFrom_eq_ok (h : d.lexFrom start input = .ok tokens) : (input = [] ∧ tokens = []) ∨
    ∃ piece after name q rest, input = piece ++ after ∧ d.Emits piece after name q ∧
      d.lexFrom (start + piece.length) after = .ok rest ∧
      tokens = { name, start, length := piece.length } :: rest := by
  fun_cases d.lexFrom start input with
  | case1 =>
    rw [lexFrom] at h
    cases h
    exact .inl ⟨rfl, rfl⟩
  | case2 c rest cause hcause =>
    rw [lexFrom, hcause] at h
    cases h
  | case3 c rest s hnone =>
    rw [lexFrom, hnone] at h
    cases h
  | case4 c rest n last hfollow name hmarker =>
    rw [lexFrom_of_follow hfollow hmarker] at h
    obtain ⟨tokens, hrest, rfl⟩ := except_map_eq_ok.1 h
    obtain ⟨hle, q, hq, hleads⟩ := follow_leads (state?_initial d) hfollow
    have hsplit := (List.take_append_drop (n + 1) (c :: rest)).symm
    have hlength : ((c :: rest).take (n + 1)).length = n + 1 := List.length_take_of_le hle
    refine .inr ⟨_, _, name, q, tokens, hsplit, ⟨List.cons_ne_nil _ _, hleads, last, hq, hmarker, ?_⟩, ?_, ?_⟩
    · rw [← hsplit, hlength]
      exact hfollow
    · rw [hlength]
      exact hrest
    · rw [hlength]
  | case5 c rest n last hfollow hend hmarker =>
    rw [lexFrom, hfollow] at h
    simp only [hmarker, hend, reduceCtorEq] at h
  | case6 c rest n last hfollow next tail hrest hmarker =>
    rw [lexFrom, hfollow] at h
    simp only [hmarker, hrest, reduceCtorEq] at h

/-- A text can be cut where one of its tokens ends. -/
theorem lexFrom_split (h : d.lexFrom start (x ++ y) = .ok tokens)
    (hk : ((tokens.take k).map (·.length)).sum = x.length) :
    d.lexFrom start x = .ok (tokens.take k) ∧ d.lexFrom (start + x.length) y = .ok (tokens.drop k) := by
  induction k generalizing start x tokens with
  | zero =>
    obtain rfl : x = [] := List.length_eq_zero_iff.1 hk.symm
    exact ⟨by rw [lexFrom]; rfl, h⟩
  | succ k ih =>
    rcases lexFrom_eq_ok h with ⟨hnil, rfl⟩ | ⟨piece, after, name, q, rest, hxy, htoken, hrest, rfl⟩
    · obtain ⟨rfl, rfl⟩ := List.append_eq_nil_iff.1 hnil
      exact ⟨h, h⟩
    · rw [List.take_succ_cons, List.map_cons, List.sum_cons] at hk
      dsimp only at hk
      -- the first token is all in the first part
      obtain ⟨x', rfl⟩ : piece <+: x :=
        List.prefix_of_prefix_length_le ⟨after, hxy.symm⟩ (List.prefix_append x y) (by omega)
      rw [List.append_assoc, List.append_cancel_left_eq] at hxy
      subst hxy
      rw [List.length_append, Nat.add_left_cancel_iff] at hk
      obtain ⟨hx, hy⟩ := ih hrest hk
      rw [htoken.of_append.lexFrom_eq, hx, List.length_append, ← Nat.add_assoc]
      exact ⟨rfl, hy⟩

/-- A text of tokens leads to one state with its last token. If that has no move
on the next symbol, what follows is read on its own. -/
theorem lexFrom_join (hne : x ≠ []) (h : d.lexFrom start x = .ok tokens) :
    ∃ t q, tokens.getLast? = some t ∧
      (∀ front : List Symbol, front.length = start → ∀ p, d.Reaches (t.text (front ++ x)) p ↔ p = q) ∧
      ∀ y, (∀ c, y.head? = some c → d.dests q c = ∅) →
        d.lexFrom start (x ++ y) = (d.lexFrom (start + x.length) y).map (tokens ++ ·) := by
  induction tokens generalizing start x with
  | nil =>
    rcases lexFrom_eq_ok h with ⟨hnil, -⟩ | ⟨_, _, _, _, _, _, _, _, he⟩
    · exact absurd hnil hne
    · cases he
  | cons t tokens ih =>
    rcases lexFrom_eq_ok h with ⟨hnil, -⟩ | ⟨piece, after, name, q, rest, rfl, htoken, hrest, he⟩
    · exact absurd hnil hne
    obtain ⟨rfl, rfl⟩ := List.cons.inj he
    by_cases hend : after = []
    · -- the last token: only here it matters what follows the text
      subst hend
      rw [lexFrom] at hrest
      cases hrest
      refine ⟨{ name, start, length := piece.length }, q, rfl, fun front hfront p => ?_, fun y hy => ?_⟩
      · rw [Token.text, ← hfront, List.drop_left, List.take_left]
        exact htoken.leads p
      · rw [List.append_assoc, (htoken.append fun _ => hy).lexFrom_eq, List.append_nil]
        rfl
    · obtain ⟨t', q', hlast, htext, hjoin⟩ := ih hend hrest
      refine ⟨t', q', ?_, fun front hfront p => ?_, fun y hy => ?_⟩
      · rw [List.getLast?_cons, hlast]
        rfl
      · rw [← List.append_assoc]
        exact htext (front ++ piece) (by rw [List.length_append, hfront]) p
      · rw [List.append_assoc, (htoken.append fun h0 => absurd h0 hend).lexFrom_eq, hjoin y hy,
          List.length_append, ← Nat.add_assoc]
        cases d.lexFrom (start + piece.length + after.length) y <;> rfl

/-! ### Positions -/

theorem lexFrom_add (n start : Nat) (input : List Symbol) :
    d.lexFrom (n + start) input = shiftAnswer n (d.lexFrom start input) := by
  fun_induction d.lexFrom start input with
  | case1 start =>
    rw [lexFrom]
    rfl
  | case2 start c rest cause hcause =>
    rw [lexFrom, hcause]
    rfl
  | case3 start c rest s hnone =>
    rw [lexFrom, hnone]
    rfl
  | case4 start c rest m last hfollow name hmarker ih =>
    have hplace : n + start + (m + 1) = n + (start + m + 1) := by omega
    rw [lexFrom_of_follow hfollow hmarker, List.drop_succ_cons, hplace, ih]
    cases d.lexFrom (start + m + 1) (rest.drop m) <;> rfl
  | case5 start c rest m last hfollow hend hmarker =>
    rw [lexFrom, hfollow]
    simp only [hmarker, hend]
    rfl
  | case6 start c rest m last hfollow next tail hrest hmarker =>
    rw [lexFrom, hfollow]
    simp only [hmarker, hrest, Nat.add_assoc]
    rfl

/-- Where one of its tokens ends, a text may be cut: the two parts give the
tokens of the text, those of the second with positions of their own. And if
the state that the last token of a text leads to has no move on the next
symbol, the answer on the text continued is that on the continuation behind
the tokens of the text. -/
theorem lex_at_boundary (d : Automaton) (x y : List Symbol) :
    (∀ tokens k, d.lex (x ++ y) = .ok tokens → ((tokens.take k).map (·.length)).sum = x.length →
      d.lex x = .ok (tokens.take k) ∧
        ∃ rest, d.lex y = .ok rest ∧ tokens.drop k = rest.map (Token.shift x.length)) ∧
    ∀ tokens, x ≠ [] → d.lex x = .ok tokens →
      ∃ t q, tokens.getLast? = some t ∧ (∀ p, d.Reaches (t.text x) p ↔ p = q) ∧
        ∀ c, y.head? = some c → d.dests q c = ∅ →
          d.lex (x ++ y) = (shiftAnswer x.length (d.lex y)).map (tokens ++ ·) := by
  have hbehind : d.lexFrom (0 + x.length) y = shiftAnswer x.length (d.lex y) := by
    rw [Nat.zero_add]
    exact lexFrom_add x.length 0 y
  constructor
  · intro tokens k h hk
    obtain ⟨hx, hy⟩ := lexFrom_split h hk
    refine ⟨hx, ?_⟩
    rw [hbehind] at hy
    cases hrest : d.lex y with
    | error e =>
      rw [hrest] at hy
      cases hy
    | ok rest =>
      rw [hrest] at hy
      exact ⟨rest, rfl, (Except.ok.inj hy).symm⟩
  · intro tokens hne h
    obtain ⟨t, q, hlast, htext, hjoin⟩ := lexFrom_join hne h
    refine ⟨t, q, hlast, htext [] rfl, fun c hc hstuck => ?_⟩
    rw [← hbehind]
    refine hjoin y fun c' hc' => ?_
    obtain rfl : c = c' := Option.some.inj (hc.symm.trans hc')
    exact hstuck

/-- Knows `a`, `aca` and so on. The initial state has two destinations on `b`. -/
def forkedOnB : Automaton :=
  { initial := { id := 0, label := rootLabel, moves := ⟨[('a', .singleton 1), ('b', .ofList [0, 1])]⟩ }
    others := [{ id := 1, label := "A", marker := some "A", moves := ⟨[('c', .singleton 0)]⟩ }]
    nextId := 2 }

/-- The second `a` starts anew, and `b` is at fault wherever a token ends. -/
theorem forkedOnB_at_boundary : forkedOnB.lex ['a'] = .ok [⟨"A", 0, 1⟩] ∧
    forkedOnB.lex ['a', 'a', 'b'] = .error (.automaton (.notDeterministic "START" 'b')) := by
  have hboth : forkedOnB.lex (['a'] ++ ['a']) = .ok [⟨"A", 0, 1⟩, ⟨"A", 1, 1⟩] := by decide +kernel
  have hfirst := ((lex_at_boundary forkedOnB ['a'] ['a']).1 _ 1 hboth rfl).1
  refine ⟨hfirst, ?_⟩
  obtain ⟨t, q, hlast, htext, hjoin⟩ := (lex_at_boundary forkedOnB ['a', 'a'] ['b']).2 _ (by simp) hboth
  obtain rfl : (⟨"A", 1, 1⟩ : Token) = t := Option.some.inj hlast
  have hq : forkedOnB.Reaches ['a'] 1 := path_singleton_iff.2 (by decide)
  obtain rfl : 1 = q := (htext 1).1 hq
  have hb : forkedOnB.lex ['b'] = .error (.automaton (.notDeterministic "START" 'b')) := by decide +kernel
  rw [show ['a', 'a', 'b'] = ['a', 'a'] ++ ['b'] from rfl, hjoin 'b' rfl (by decide), hb]
  rfl

end Automaton
end TokenAutomata
