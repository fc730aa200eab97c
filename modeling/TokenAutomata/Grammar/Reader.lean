/-
# Reading rules

A rule is read in two steps: the line is cut into its head and its body, and
the body into alternatives at every `|`. Pieces without content are skipped,
so a body may start or end with `|`, but one alternative there must be.

Everything that can be wrong with a rule is a constructor of `SyntaxError`.

Key definitions: `SyntaxError`, `SyntaxError.message`, `splitHead`,
`Alternative.read`, `Rule.read`.
-/
import TokenAutomata.Grammar.Rule
import TokenAutomata.Text.Quoted
import TokenAutomata.Text.Split

namespace TokenAutomata

/-- Why a line is not a rule. -/
inductive SyntaxError where
  /-- The line does not start with `<NAME> ::=`. -/
  | noHead (line : String)
  /-- The rule's name has other characters than names may have. -/
  | badName (name : String)
  /-- No piece of the body has content. -/
  | noAlternatives (rule : String)
  /-- A blank or a mark stands among the terminals. -/
  | badTerminal (rule : String) (symbol : Symbol) (alternative : String)
  /-- The sign of the empty alternative stands among terminals. -/
  | epsilonAmongTerminals (rule alternative : String)
  /-- A reference is opened and not closed. -/
  | unclosedReference (rule alternative : String)
  /-- A reference has other characters than names may have. -/
  | badReference (rule name : String)
  /-- Something follows the reference. -/
  | afterReference (rule name alternative : String)
  /-- No terminal stands before the reference. -/
  | unitProduction (rule name : String)
deriving DecidableEq

def SyntaxError.detail : SyntaxError → String
  | .noHead line => s!"`{line}` is not `<NAME> ::= ...`"
  | .badName name => s!"nonterminal `<{name}>` must match [A-Z_]+"
  | .noAlternatives rule => s!"<{rule}> has no alternatives"
  | .badTerminal rule symbol alternative =>
    s!"<{rule}>: unexpected {Text.quotedChar symbol} in `{alternative}`"
  | .epsilonAmongTerminals rule alternative =>
    s!"<{rule}>: `ε` must be an alternative on its own, found `{alternative}`"
  | .unclosedReference rule alternative => s!"<{rule}>: unclosed `<` in `{alternative}`"
  | .badReference rule name => s!"<{rule}>: nonterminal `<{name}>` must match [A-Z_]+"
  | .afterReference rule name alternative =>
    s!"<{rule}>: terminals after <{name}> are not supported (`{alternative}`)"
  | .unitProduction rule name =>
    s!"<{rule}>: unit production <{name}> needs an ε-move, which is not supported"

def SyntaxError.message (e : SyntaxError) : String := "syntax error: " ++ e.detail

/-- The name and the body of a line that starts with `<NAME> ::=`, whatever
they are. -/
def splitHead (line : List Char) : Option (List Char × List Char) := do
  let '<' :: rest := Text.trim line | none
  let (name, rest) ← Text.cut '>' rest
  let ':' :: ':' :: '=' :: body := Text.trimStart rest | none
  return (name, body)

/-- An alternative of the rule `rule`, from a piece without blanks at its
ends. -/
def Alternative.read (rule : String) (piece : List Char) : Except SyntaxError Alternative := do
  if piece = [epsilonSymbol] then
    return .epsilon
  let text := String.ofList piece
  let (terminals, tail) := match Text.cut '<' piece with
    | some (terminals, tail) => (terminals, some tail)
    | none => (piece, none)
  if let some c := terminals.find? (!isTerminal ·) then
    throw (.badTerminal rule c text)
  if epsilonSymbol ∈ terminals then
    throw (.epsilonAmongTerminals rule text)
  let next ← match tail with
    | none => pure none
    | some tail =>
      match Text.cut '>' tail with
      | none => throw (.unclosedReference rule text)
      | some (name, after) => do
        if !isNonterminalName name then
          throw (.badReference rule (String.ofList name))
        if Text.trim after ≠ [] then
          throw (.afterReference rule (String.ofList name) text)
        pure (some (String.ofList name))
  if terminals = [] then
    throw (.unitProduction rule (next.getD ""))
  return .production terminals next

/-- The pieces of a body that have content. -/
def alternativePieces (body : List Char) : List (List Char) :=
  ((Text.split '|' body).map Text.trim).filter (· ≠ [])

/-- A rule, from a line that may have blanks at its ends. -/
def Rule.read (line : List Char) : Except SyntaxError Rule := do
  match splitHead line with
  | none => throw (.noHead (String.ofList (Text.trim line)))
  | some (head, body) =>
    let name := String.ofList head
    if !isNonterminalName head then
      throw (.badName name)
    let alternatives ← (alternativePieces body).mapM (Alternative.read name)
    if alternatives = [] then
      throw (.noAlternatives name)
    return { name, alternatives }

end TokenAutomata
