/-
# The loop of the lexer

The lexer goes through a text symbol by symbol, and looks twice at the symbol
before which a token ends. As long as there are moves, the loop consumes what
`Automaton.follow` follows (`Registry.Sound.scan_eq`). So from the initial state
it comes to the end of the longest piece that can be followed. There the text is
at fault, or a token ends and everything starts anew; so it goes on just like
`Automaton.lexFrom`, and gives the tokens of the automaton that the registry
shows (`Registry.Sound.lex_view`).

Key theorems: `Automaton.deterministicMove?_of_follow`, `Registry.Sound.scan_eq`,
`Registry.Sound.scan_initial`, `Registry.Sound.lex_view`.
-/
import TokenAutomata.Proofs.LexerOutcome
import TokenAutomata.Proofs.RegistryView
import TokenAutomata.Registry.Lexer

namespace TokenAutomata

/-- Nothing leads on from where following ends. -/
theorem Automaton.deterministicMove?_of_follow {a : Automaton} {s last : State} {n : Nat} {c : Symbol}
    {input rest : List Symbol} (h : a.follow s input = .ok (n, last)) (hrest : input.drop n = c :: rest) :
    last.deterministicMove? c = .ok none := by
  induction input generalizing s n with
  | nil => simp at hrest
  | cons d input ih =>
    cases hmove : s.deterministicMove? d with
    | error cause =>
      rw [follow, hmove] at h
      cases h
    | ok target =>
      cases target with
      | none =>
        rw [follow, hmove] at h
        cases h
        obtain rfl : d = c := (List.cons.inj hrest).1
        exact hmove
      | some id =>
        cases hnext : a.state? id with
        | none =>
          rw [follow_of_missing hmove hnext] at h
          cases h
        | some next =>
          rw [follow_cons hmove hnext] at h
          cases hfollow : a.follow next input with
          | error cause =>
            rw [hfollow] at h
            cases h
          | ok reached =>
            rw [hfollow] at h
            cases h
            exact ih hfollow hrest

namespace Registry

variable {r : Registry} {s last : State} {tokens : List Token} {start consumed : Nat}

/-- A token ends, in the middle of the text or at its end, where nothing leads
on from a state with a marker. -/
theorem scan_emit {name : String} {rest : List Symbol} (hmarker : last.marker = some name)
    (hlt : start < consumed) (hstuck : ∀ c tail, rest = c :: tail → last.deterministicMove? c = .ok none) :
    r.scan ⟨tokens, last, start, consumed⟩ rest =
      r.scan ⟨tokens ++ [⟨name, start, consumed - start⟩], r.initialState, consumed, consumed⟩ rest := by
  cases rest with
  | nil =>
    rw [scan, scan]
    simp [hlt, hmarker, Scan.emit]
  | cons c tail =>
    have hne : ¬ consumed = start := Nat.ne_of_gt hlt
    rw [scan]
    simp only [hstuck c tail rfl, hne, if_false, hmarker]
    rfl

namespace Sound

variable (h : r.Sound)

include h

/-- What can be followed is consumed. -/
theorem scan_eq (input : List Symbol) : r.scan ⟨tokens, s, start, consumed⟩ input =
    (r.view.follow s input).mapError .automaton >>= fun x =>
      r.scan ⟨tokens, x.2, start, consumed + x.1⟩ (input.drop x.1) := by
  induction input generalizing s consumed with
  | nil => rfl
  | cons c input ih =>
    cases hmove : s.deterministicMove? c with
    | error cause =>
      rw [scan, Automaton.follow]
      simp only [hmove]
      rfl
    | ok target =>
      cases target with
      | none =>
        rw [Automaton.follow, hmove]
        rfl
      | some id =>
        have hstate := h.state?_view id
        cases hnext : r.state? id with
        | none =>
          rw [scan, Automaton.follow_of_missing hmove (hstate.trans hnext)]
          simp only [hmove, hnext]
          rfl
        | some next =>
          rw [scan, Automaton.follow_cons hmove (hstate.trans hnext)]
          simp only [hmove, hnext]
          rw [ih]
          cases r.view.follow next input with
          | error cause => rfl
          | ok reached =>
            show r.scan ⟨tokens, reached.2, start, consumed + 1 + reached.1⟩ (input.drop reached.1) =
              r.scan ⟨tokens, reached.2, start, consumed + (reached.1 + 1)⟩ (input.drop reached.1)
            rw [Nat.add_right_comm, Nat.add_assoc]

/-- From the initial state the loop goes on like the lexer starts, behind
whatever tokens there are. -/
theorem scan_initial (input : List Symbol) : r.scan ⟨tokens, r.initialState, start, start⟩ input =
    (r.view.lexFrom start input).map (tokens ++ ·) := by
  have hinitial : r.view.initial = r.initialState := rfl
  fun_induction Automaton.lexFrom r.view start input generalizing tokens with
  | case1 start =>
    rw [scan]
    simp [Except.map]
  | case2 start c rest cause hfollow =>
    rw [h.scan_eq, ← hinitial, hfollow]
    rfl
  | case3 start c rest last hfollow =>
    have hmove := Automaton.deterministicMove?_of_follow hfollow List.drop_zero
    rw [h.scan_eq, ← hinitial, hfollow]
    show r.scan ⟨tokens, last, start, start⟩ (c :: rest) = _
    rw [scan]
    simp only [hmove, if_true]
    rfl
  | case4 start c rest n last hfollow name hmarker ih =>
    have hstuck : ∀ d tail, rest.drop n = d :: tail → last.deterministicMove? d = .ok none := fun d tail hd =>
      Automaton.deterministicMove?_of_follow hfollow hd
    rw [h.scan_eq, ← hinitial, hfollow]
    show r.scan ⟨tokens, last, start, start + n + 1⟩ (rest.drop n) = _
    rw [scan_emit hmarker (by omega) hstuck, ih]
    cases r.view.lexFrom (start + n + 1) (rest.drop n) with
    | error e => rfl
    | ok more =>
      have hlength : start + n + 1 - start = n + 1 := by omega
      rw [hlength]
      exact congrArg Except.ok (List.append_assoc tokens [_] more)
  | case5 start c rest n last hfollow hrest hmarker =>
    rw [h.scan_eq, ← hinitial, hfollow]
    show r.scan ⟨tokens, last, start, start + n + 1⟩ (rest.drop n) = _
    have hlt : start < start + n + 1 := by omega
    rw [hrest, scan]
    simp only [hlt, if_true, hmarker]
    rfl
  | case6 start c rest n last hfollow d tail hrest hmarker =>
    have hmove := Automaton.deterministicMove?_of_follow hfollow hrest
    rw [h.scan_eq, ← hinitial, hfollow]
    show r.scan ⟨tokens, last, start, start + n + 1⟩ (rest.drop n) = _
    have hne : ¬ start + n + 1 = start := by omega
    rw [hrest, scan]
    simp only [hmove, hne, if_false, hmarker]
    rfl

/-- The loop gives the tokens of the automaton that the registry shows. -/
theorem lex_view (input : List Symbol) : r.view.lex input = r.lex input := by
  rw [lex, h.scan_initial, Automaton.lex]
  cases r.view.lexFrom 0 input <;> rfl

end Sound
end Registry
end TokenAutomata
