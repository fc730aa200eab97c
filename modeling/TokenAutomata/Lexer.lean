/-
# Cutting a text into tokens

The lexer follows the moves of a deterministic automaton from its initial
state for as long as they go. Where they end, the text read is a token if the
state reached has a marker, and the next token starts right there. So each
token is as long as the automaton allows, and no token is empty. Positions
count characters, so the piece of a stored text that a token covers is looked
up by the offsets of its characters (`Token.slice?`).

Key definitions: `Token`, `Token.text`, `Token.slice?`, `LexError`,
`Automaton.follow`, `Automaton.lexFrom`, `Automaton.lex`.
-/
import TokenAutomata.Automaton.Basic
import TokenAutomata.Text.Bytes

namespace TokenAutomata

/-- A token's name and the piece of text it covers. -/
structure Token where
  name : String
  start : Nat
  length : Nat
deriving DecidableEq

/-- The piece of `source` that a token covers, as far as there is one. -/
def Token.text (t : Token) (source : List Symbol) : List Symbol :=
  (source.drop t.start).take t.length

/-- The same piece, cut out of the bytes of the text. The offset where it begins
is looked up first, then, among the offsets that follow, the one where it ends;
where there are no more offsets, it is the end of the text. -/
def Token.slice? (t : Token) (source : String) : Option String.Slice :=
  let offsets := Text.offsets 0 source.toList
  let start := offsets[t.start]?.getD source.utf8ByteSize
  let stop := (offsets.drop (t.start + 1))[t.length - 1]?.getD source.utf8ByteSize
  Text.cut? source start (if t.length = 0 then start else stop)

/-- Why a text is not a sequence of tokens. -/
inductive LexError where
  /-- No token goes on with this symbol, and none can end before it. -/
  | unexpectedSymbol (symbol : Symbol) (position : Nat)
  /-- The text ends inside a token. -/
  | unexpectedEnd (start : Nat)
  /-- The automaton is not fit for lexing. -/
  | automaton (cause : AutomatonError)
deriving DecidableEq

def LexError.message : LexError → String
  | .unexpectedSymbol symbol position =>
    s!"lexical error on {Text.quotedChar symbol} at position {position}"
  | .unexpectedEnd start =>
    s!"input ended inside an unfinished token starting at position {start}"
  | .automaton cause => cause.message

namespace Automaton

/-- How many symbols of the input can be followed from a state, and the state
they lead to. -/
def follow (a : Automaton) (s : State) : List Symbol → Except AutomatonError (Nat × State)
  | [] => .ok (0, s)
  | c :: rest => do
    match ← s.deterministicMove? c with
    | none => .ok (0, s)
    | some id =>
      match a.state? id with
      | none => .error (.unknownState id)
      | some t =>
        let (n, last) ← a.follow t rest
        .ok (n + 1, last)

/-- The tokens of an input whose first symbol has position `start`. -/
def lexFrom (a : Automaton) (start : Nat) (input : List Symbol) : Except LexError (List Token) :=
  match input with
  | [] => .ok []
  | c :: rest =>
    match a.follow a.initial (c :: rest) with
    | .error cause => .error (.automaton cause)
    | .ok (0, _) => .error (.unexpectedSymbol c start)
    | .ok (n + 1, last) =>
      match last.marker, rest.drop n with
      | some name, _ => do
        let tokens ← a.lexFrom (start + n + 1) (rest.drop n)
        .ok ({ name, start, length := n + 1 } :: tokens)
      | none, [] => .error (.unexpectedEnd start)
      | none, d :: _ => .error (.unexpectedSymbol d (start + n + 1))
termination_by input.length
decreasing_by
  simp only [List.length_drop, List.length_cons]
  omega

/-- The tokens of a text. -/
def lex (a : Automaton) (input : List Symbol) : Except LexError (List Token) := a.lexFrom 0 input

end Automaton
end TokenAutomata
