/-
# Lines of a definition file

Every line of a definition file is of one of five kinds:

    <S> ::= a<A> | ε     a rule
    IF -> if             a token rule: a token's name and its text
    while                a word: its own text, named after it
    # ...                a comment
                         a blank line

A line is tried as each kind in the order blank, comment, rule, token rule,
word. What starts like a rule is one or is wrong; everything else is right.

Key definitions: `Line`, `Line.classify`, `Line.text`, `isExpression`,
`isSentence`, `readTokenRule`.
-/
import TokenAutomata.Grammar.Reader

namespace TokenAutomata

inductive Line where
  | expression (rule : Rule)
  | tokenRule (token : String) (literal : List Symbol)
  | sentence (word : List Symbol)
  | blank
  | comment
deriving DecidableEq

/-- The line starts like a rule. -/
def isExpression (line : List Char) : Bool := (splitHead line).isSome

def isSentence (line : List Char) : Bool := !isExpression line

/-- What stands before the first arrow and what stands after it. -/
def cutArrow : List Char → Option (List Char × List Char)
  | [] => none
  | '-' :: '>' :: rest => some ([], rest)
  | c :: rest => (cutArrow rest).map fun (a, b) => (c :: a, b)

/-- ASCII letters, digits and `_`, at least one. -/
def isTokenName (name : List Char) : Bool :=
  !name.isEmpty && name.all fun c => c.isAlphanum || c == '_'

/-- The name and the text of a token rule, if the line is one. -/
def readTokenRule (line : List Char) : Option (String × List Symbol) := do
  let (left, right) ← cutArrow line
  let token := Text.trim left
  let literal := Text.trim right
  if isTokenName token && !literal.isEmpty then
    return (String.ofList token, literal)
  else
    none

namespace Line

def classify (raw : List Char) : Except SyntaxError Line :=
  let line := Text.trim raw
  if line = [] then .ok .blank
  else if line.head? = some '#' then .ok .comment
  else if isExpression line then (Rule.read line).map .expression
  else
    match readTokenRule line with
    | some (token, literal) => .ok (.tokenRule token literal)
    | none => .ok (.sentence line)

/-- The plainest way to write a line. -/
def text : Line → List Char
  | .expression rule => rule.text
  | .tokenRule token literal => token.toList ++ " -> ".toList ++ literal
  | .sentence word => word
  | .blank => []
  | .comment => ['#']

end Line
end TokenAutomata
