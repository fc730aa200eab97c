/-
# Cutting a text into tokens, symbol by symbol

The lexer goes through a text once. It keeps the state it has come to, where the
token it reads has started, and how many symbols it has consumed. A symbol that
the state has a move on is consumed. On any other symbol the token ends, if
there is one and the state has a marker; the same symbol is looked at again from
the initial state. At the end of the text the last token ends.

Key definitions: `Registry.Scan`, `Registry.scan`, `Registry.lex`.
-/
import TokenAutomata.Lexer
import TokenAutomata.Registry.Basic

namespace TokenAutomata
namespace Registry

/-- How far the lexer has come. -/
structure Scan where
  tokens : List Token
  current : State
  /-- Where the token that is read has started. -/
  start : Nat
  consumed : Nat

/-- The tokens, with the one that ends here as the last. -/
def Scan.emit (s : Scan) (name : String) : List Token :=
  s.tokens ++ [{ name, start := s.start, length := s.consumed - s.start }]

/-- The tokens of a text, of which `input` has not been consumed. -/
def scan (r : Registry) (s : Scan) : List Symbol → Except LexError (List Token)
  | [] =>
    if s.start < s.consumed then
      match s.current.marker with
      | none => .error (.unexpectedEnd s.start)
      | some name => .ok (s.emit name)
    else .ok s.tokens
  | symbol :: rest =>
    match s.current.deterministicMove? symbol with
    | .error cause => .error (.automaton cause)
    | .ok (some id) =>
      match r.state? id with
      | none => .error (.automaton (.unknownState id))
      | some next => scan r { s with current := next, consumed := s.consumed + 1 } rest
    | .ok none =>
      -- an empty token would leave the lexer where it is
      if s.consumed = s.start then .error (.unexpectedSymbol symbol s.consumed)
      else
        match s.current.marker with
        | none => .error (.unexpectedSymbol symbol s.consumed)
        | some name => scan r ⟨s.emit name, r.initialState, s.consumed, s.consumed⟩ (symbol :: rest)
termination_by input => (input.length, if s.consumed = s.start then 0 else 1)
decreasing_by
  · exact Prod.Lex.left _ _ (Nat.lt_succ_self rest.length)
  · refine Prod.Lex.right _ ?_
    rw [if_pos trivial, if_neg ‹_›]
    exact Nat.zero_lt_one

/-- The tokens of a text. -/
def lex (r : Registry) (input : List Symbol) : Except LexError (List Token) :=
  r.scan ⟨[], r.initialState, 0, 0⟩ input

end Registry
end TokenAutomata
