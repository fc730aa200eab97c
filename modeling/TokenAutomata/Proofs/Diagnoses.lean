/-
# What lexing errors say

In the deterministic automaton of a file that defines some word, the texts that
have a path are just the beginnings of words (`Automaton.hasPath_iff`), as it
has no dead ends. So where the lexer stops is where the input goes wrong: up to
there it is tokens and the beginning of one more word, and no word goes on with
the symbol found (`Automaton.ofLines_diagnoses`).

The error counts from the end of the last token. The lexer has no choice there:
all cuts into tokens that end where no token starts end at the same place
(`Automaton.TokensEnd.unique`).

Key definitions: `Automaton.BeginsWord`, `Automaton.NoToken`,
`Automaton.TokensEnd`.
Key theorems: `Automaton.hasPath_iff`, `Automaton.Cuts.unique`,
`Automaton.TokensEnd.unique`, `Automaton.ofLines_diagnoses`.
-/
import TokenAutomata.Proofs.BreadthFirst
import TokenAutomata.Proofs.LexerOutcome
import TokenAutomata.Proofs.Trim

namespace TokenAutomata
namespace Automaton

/-- Some accepted word starts with `u`. -/
def BeginsWord (a : Automaton) (u : List Symbol) : Prop := ∃ v, a.accepts (u ++ v) = true

/-- No token is at the front of the input. -/
def NoToken (d : Automaton) (input : List Symbol) : Prop :=
  ∀ piece rest name, input = piece ++ rest → ¬ d.IsToken piece rest name

/-- The input is tokens up to position `s`, and no token is there. -/
def TokensEnd (d : Automaton) (input : List Symbol) (s : Nat) : Prop :=
  s ≤ input.length ∧ (∃ tokens, d.Cuts 0 input tokens (input.drop s)) ∧ d.NoToken (input.drop s)

variable {a d n : Automaton} {s s' start : Nat} {input piece piece' rest rest' u : List Symbol}
  {tokens tokens' : List Token} {name name' : String}

/-! ### Where tokens end -/

theorem LongestPath.unique (h : d.LongestPath input piece) (h' : d.LongestPath input piece') :
    piece = piece' := by
  have hle := h.longest piece' h'.part h'.hasPath
  have hle' := h'.longest piece h.part h.hasPath
  rw [List.prefix_iff_eq_take.1 h.part, List.prefix_iff_eq_take.1 h'.part]
  congr 1
  omega

/-- What goes on with the next symbol has no path. -/
theorem LongestPath.not_hasPath (h : d.LongestPath input piece) {x : Symbol}
    (hpart : piece ++ [x] <+: input) : ¬ d.HasPath (piece ++ [x]) := by
  intro hpath
  have hle := h.longest _ hpart hpath
  rw [List.length_append, List.length_singleton] at hle
  omega

theorem IsToken.longestPath (h : d.IsToken piece rest name) : d.LongestPath (piece ++ rest) piece :=
  h.stops.longestPath (hasPath_of_accepts h.accepted)

/-- Cuts that go as far as they can leave the same rest. -/
theorem Cuts.unique (h : d.Cuts start input tokens rest) (h' : d.Cuts start input tokens' rest')
    (hrest : d.NoToken rest) (hrest' : d.NoToken rest') : rest = rest' := by
  induction h generalizing tokens' with
  | nil start input =>
    cases h' with
    | nil => rfl
    | cons htoken _ => exact absurd htoken (hrest _ _ _ rfl)
  | @cons start piece after rest name tokens htoken hcuts ih =>
    generalize hinput : piece ++ after = input at h'
    cases h' with
    | nil => exact absurd htoken (hrest' _ _ _ hinput.symm)
    | @cons _ piece' after' _ _ _ htoken' hcuts' =>
      have hlongest := htoken.longestPath
      rw [hinput] at hlongest
      obtain rfl := hlongest.unique htoken'.longestPath
      obtain rfl := List.append_cancel_left hinput
      exact ih hcuts' hrest

theorem TokensEnd.unique (h : d.TokensEnd input s) (h' : d.TokensEnd input s') : s = s' := by
  obtain ⟨hle, ⟨tokens, hcuts⟩, hno⟩ := h
  obtain ⟨hle', ⟨tokens', hcuts'⟩, hno'⟩ := h'
  have hlength := congrArg List.length (hcuts.unique hcuts' hno hno')
  rw [List.length_drop, List.length_drop] at hlength
  omega

/-- No token is where the longest part that has a path is none. -/
theorem LongestPath.noToken (h : d.LongestPath input piece) (hno : piece = [] ∨ d.accepts piece = false) :
    d.NoToken input := by
  rintro piece' rest name rfl htoken
  obtain rfl := h.unique htoken.longestPath
  rcases hno with rfl | hno
  · exact htoken.nonempty rfl
  · rw [htoken.accepted] at hno
    cases hno

/-! ### Parts of the input -/

theorem take_drop_of_part (h : piece <+: input.drop s) :
    (input.drop s).take (s + piece.length - s) = piece := by
  rw [Nat.add_sub_cancel_left]
  exact (List.prefix_iff_eq_take.1 h).symm

theorem take_drop_of_symbol (h : piece <+: input.drop s) {x : Symbol}
    (hx : input[s + piece.length]? = some x) :
    (input.drop s).take (s + piece.length + 1 - s) = piece ++ [x] := by
  have hcount : s + piece.length + 1 - s = piece.length + 1 := by omega
  have htake : (input.drop s).take piece.length = piece := (List.prefix_iff_eq_take.1 h).symm
  rw [hcount, List.take_add_one, htake, List.getElem?_drop, hx]
  rfl

/-! ### Paths and words -/

/-- Where some word is accepted, what has a path begins a word. -/
theorem hasPath_iff (ha : a.WellFormed) (ht : a.Trim) (hword : ∃ w, a.accepts w = true)
    (h : a.determinize = .ok d) : d.HasPath u ↔ a.BeginsWord u := by
  have hd := represents_of_determinize h
  have hwf := determinize_wellFormed ha h
  constructor
  · rintro ⟨q, hq⟩
    have hlive : q ∈ d.live := by
      by_cases hroot : q = d.initial.id
      · obtain ⟨w, hw⟩ := hword
        rw [← hd.accepts_eq ha] at hw
        obtain ⟨r, hr, hf⟩ := accepts_iff.1 hw
        rw [hroot]
        exact (mem_live_iff hwf).2 ⟨w, r, hr, hf⟩
      · exact live_of_determinize ha ht h (hq.mem_ids (closed_of_determinize ha h)) hroot
    obtain ⟨v, r, hv, hf⟩ := (mem_live_iff hwf).1 hlive
    refine ⟨v, ?_⟩
    rw [← hd.accepts_eq ha]
    exact accepts_iff.2 ⟨r, hq.append hv, hf⟩
  · rintro ⟨v, hv⟩
    rw [← hd.accepts_eq ha] at hv
    exact (hasPath_of_accepts hv).of_append

/-! ### Files -/

/-- In the deterministic automaton of a file some word leads to every state, and
every state but the initial one leads on to a marker. If the file defines a
word, the lexer never fails for the automaton. At an unexpected symbol the input
has, behind its last token, nothing or the beginning of a word that is no word
itself, and no word begins so and goes on with the symbol. An input that ends
too early ends in the beginning of a word. -/
theorem ofLines_diagnoses {lines : List (List Char)} (h : ofLines lines = .ok n) :
    ∃ d, n.determinize = .ok d ∧
      (∀ q ∈ d.ids, (∃ w, d.Reaches w q) ∧
        (q ≠ d.initial.id → ∃ w r, d.Path q w r ∧ (d.markerOf? r).isSome)) ∧
      ((∃ w, n.accepts w = true) → ∀ input,
        (∀ cause, d.lex input ≠ .error (.automaton cause)) ∧
        (∀ symbol position, d.lex input = .error (.unexpectedSymbol symbol position) →
          input[position]? = some symbol ∧ (∃ s, d.TokensEnd input s) ∧
          ∀ s, d.TokensEnd input s → s ≤ position ∧
            ((input.drop s).take (position - s) = [] ∨
              n.BeginsWord ((input.drop s).take (position - s)) ∧
              n.accepts ((input.drop s).take (position - s)) = false) ∧
            ¬ n.BeginsWord ((input.drop s).take (position + 1 - s))) ∧
        ∀ start, d.lex input = .error (.unexpectedEnd start) →
          n.accepts (input.drop start) = false ∧
          ∃ v, v ≠ [] ∧ n.accepts (input.drop start ++ v) = true) := by
  have ha := ofLines_wellFormed h
  obtain ⟨hclosed, htrim⟩ := ofLines_trim h
  obtain ⟨d, hrun, hd⟩ := determinize_states (validate_eq_ok_iff.2 hclosed)
  have hdc := closed_of_determinize ha hrun
  refine ⟨d, hrun, fun q hq => ⟨exists_reaches_of_determinize ha hrun hq, fun hne => ?_⟩,
    fun hword input => ?_⟩
  · exact (mem_live_iff (determinize_wellFormed ha hrun)).1 (live_of_determinize ha htrim hrun hq hne)
  have hanswer := lex_answers (isDeterministic_of_determinize hrun) hdc input
  have hpath : ∀ u, d.HasPath u ↔ n.BeginsWord u := fun u => hasPath_iff ha htrim hword hrun
  refine ⟨fun cause he => ?_, fun symbol position he => ?_, fun start he => ?_⟩
  · rw [he] at hanswer
    exact hanswer
  · rw [he] at hanswer
    obtain ⟨s, tokens, piece, hcuts, hlongest, rfl, hsymbol, hno⟩ := hanswer
    have hlt : s + piece.length < input.length := (List.getElem?_eq_some_iff.1 hsymbol).1
    have hend : d.TokensEnd input s := ⟨by omega, ⟨tokens, hcuts⟩, hlongest.noToken hno⟩
    refine ⟨hsymbol, ⟨s, hend⟩, fun s' hs' => ?_⟩
    obtain rfl := hs'.unique hend
    have hpart : piece ++ [symbol] <+: input.drop s' :=
      take_drop_of_symbol hlongest.part hsymbol ▸ List.take_prefix _ _
    rw [take_drop_of_part hlongest.part, take_drop_of_symbol hlongest.part hsymbol]
    refine ⟨by omega, hno.imp_right fun hno => ⟨(hpath piece).1 hlongest.hasPath, ?_⟩, fun hbegins => ?_⟩
    · rw [← hd.accepts_eq ha]
      exact hno
    · exact hlongest.not_hasPath hpart ((hpath _).2 hbegins)
  · rw [he] at hanswer
    obtain ⟨tokens, hcuts, hne, hpath', hno⟩ := hanswer
    rw [hd.accepts_eq ha] at hno
    obtain ⟨v, hv⟩ := (hpath _).1 hpath'
    refine ⟨hno, v, ?_, hv⟩
    rintro rfl
    rw [List.append_nil, hno] at hv
    cases hv

/-- The words `if` and `in`. -/
def ifAndIn : Automaton where
  initial := { id := 0, label := rootLabel, moves := ⟨[('i', .ofList [1, 3])]⟩ }
  others := [{ id := 1, label := "IF_1", moves := ⟨[('f', .singleton 2)]⟩ },
    { id := 2, label := "IF", marker := some "IF" },
    { id := 3, label := "IN_1", moves := ⟨[('n', .singleton 4)]⟩ },
    { id := 4, label := "IN", marker := some "IN" }]
  nextId := 5

/-- The same words, read without a choice after the `i`. -/
def ifOrIn : Automaton where
  initial := { id := 0, label := rootLabel, moves := ⟨[('i', .singleton 1)]⟩ }
  others := [{ id := 1, label := "q1", moves := ⟨[('f', .singleton 2), ('n', .singleton 3)]⟩ },
    { id := 2, label := "IF", marker := some "IF" },
    { id := 3, label := "IN", marker := some "IN" }]
  nextId := 4

theorem determinize_ifAndIn : ifAndIn.determinize = .ok ifOrIn := by
  have hturns : Worklist.Turns ifAndIn.successorSets 4
      (Worklist.empty.addAll [IdSet.singleton ifAndIn.initial.id])
      ⟨[.ofList [0], .ofList [1, 3], .ofList [2], .ofList [4]], [], [3, 2, 1, 0]⟩ :=
    .turn rfl <| .turn rfl <| .turn rfl <| .turn rfl <| .none _
  have hsets : ifAndIn.reachedSets = [.ofList [0], .ofList [1, 3], .ofList [2], .ofList [4]] := by
    unfold reachedSets search
    rw [Worklist.run_of_turns _ hturns rfl]
  rw [determinize, hsets]
  decide +kernel

/-- One token ends after `if`, and none is in `ix`. -/
theorem tokensEnd_ifOrIn : ifOrIn.TokensEnd ['i', 'f', 'i', 'x'] 2 := by
  have htoken : ifOrIn.IsToken ['i', 'f'] ['i', 'x'] "IF" := by
    refine ⟨by decide, by decide, fun q hq => ?_, fun c hc hpath => ?_⟩
    · have hstates : ∀ q ∈ ifOrIn.statesAfter ['i', 'f'], ifOrIn.markerOf? q = some "IF" := by decide
      exact hstates q (mem_statesAfter.2 hq)
    · obtain rfl : 'i' = c := Option.some.inj hc
      obtain ⟨q, hq⟩ := hpath
      have hstates : ifOrIn.statesAfter (['i', 'f'] ++ ['i']) = ∅ := by decide
      exact IdSet.not_mem_empty q (hstates ▸ mem_statesAfter.2 hq)
  refine ⟨by decide, ⟨_, .cons htoken (.nil 2 _)⟩, fun piece rest name hinput hpiece => ?_⟩
  have hnone : ∀ u ∈ ['i', 'x'].inits, u = [] ∨ ifOrIn.accepts u = false := by decide
  rcases hnone piece ((List.mem_inits _ _).2 ⟨rest, hinput.symm⟩) with rfl | hno
  · exact hpiece.nonempty rfl
  · exact Bool.false_ne_true (hno.symm.trans hpiece.accepted)

/-- Behind the token `if` the `x` is unexpected, since no word begins with `ix`;
without it the input ends too early. -/
theorem ifAndIn_diagnoses : ofLines ["IF -> if".toList, "IN -> in".toList] = .ok ifAndIn ∧
    ifAndIn.determinize = .ok ifOrIn ∧ (∀ input cause, ifOrIn.lex input ≠ .error (.automaton cause)) ∧
    (ifOrIn.lex ['i', 'f', 'i', 'x'] = .error (.unexpectedSymbol 'x' 3) ∧
      ifAndIn.BeginsWord ['i'] ∧ ifAndIn.accepts ['i'] = false ∧ ¬ ifAndIn.BeginsWord ['i', 'x']) ∧
    ifOrIn.lex ['i', 'f', 'i'] = .error (.unexpectedEnd 2) ∧
      ∃ v, v ≠ [] ∧ ifAndIn.accepts ('i' :: v) = true := by
  have hlines : ofLines ["IF -> if".toList, "IN -> in".toList] = .ok ifAndIn := by decide +kernel
  have hword : ifAndIn.accepts ['i', 'f'] = true := by decide
  obtain ⟨d, hd, -, hlexing⟩ := ofLines_diagnoses hlines
  obtain rfl : ifOrIn = d := Except.ok.inj (determinize_ifAndIn.symm.trans hd)
  have hsymbol : ifOrIn.lex ['i', 'f', 'i', 'x'] = .error (.unexpectedSymbol 'x' 3) := by decide +kernel
  have hend : ifOrIn.lex ['i', 'f', 'i'] = .error (.unexpectedEnd 2) := by decide +kernel
  obtain ⟨-, -, hpiece⟩ := (hlexing ⟨_, hword⟩ _).2.1 'x' 3 hsymbol
  obtain ⟨-, hbegins, hno⟩ := hpiece 2 tokensEnd_ifOrIn
  obtain ⟨-, v, hne, hv⟩ := (hlexing ⟨_, hword⟩ _).2.2 2 hend
  obtain ⟨hbegins, haccepts⟩ := hbegins.resolve_left (by decide)
  exact ⟨hlines, hd, fun input => (hlexing ⟨_, hword⟩ input).1, ⟨hsymbol, hbegins, haccepts, hno⟩,
    hend, v, hne, hv⟩

end Automaton
end TokenAutomata
