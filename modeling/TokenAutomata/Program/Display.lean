/-
# The program that shows automata

The program reads a definition file from its standard input, shows the
transition tables of its automaton and of the deterministic one, and cuts its
first argument, if it has one, into tokens.

Key definitions: `GrammarError.causes`, `Program.display`.
-/
import TokenAutomata.Automaton.Determinize
import TokenAutomata.Automaton.TransitionTable
import TokenAutomata.Grammar.Compile
import TokenAutomata.Lexer
import TokenAutomata.Program.Outcome

namespace TokenAutomata

/-- What a report says about a grammar error: the error with its line, then
what is wrong there. -/
def GrammarError.causes : GrammarError → List String
  | .atLine line source => (GrammarError.atLine line source).message :: source.causes
  | e => [e.message]

namespace Program

/-- What stands in a report for bytes that are not UTF-8. -/
def notText : String := "stream did not contain valid UTF-8"

/-- A token and its text, in quotation marks, behind its name in a column of
twelve. -/
def tokenLine (source : List Symbol) (t : Token) : String :=
  t.name ++ String.ofList (List.replicate (12 - t.name.length) ' ') ++ " " ++
    Text.quoted (String.ofList (t.text source)) ++ "\n"

/-- The tokens of a text, after what was shown before. -/
def displayTokens (shown : String) (dfa : Automaton) (source : String) : Outcome :=
  match dfa.lex source.toList with
  | .error e => .failure shown ⟨s!"failed to lex {Text.quoted source}", [e.message]⟩
  | .ok tokens =>
    .success (shown ++ "TOKENS:\n" ++ String.join (tokens.map (tokenLine source.toList)))

def display (args : List String) (input : ByteArray) : Outcome :=
  match String.fromUTF8? input with
  | none => .failure "" ⟨"failed to read token definitions from stdin", [notText]⟩
  | some text =>
    let built : Except GrammarError Automaton := Automaton.ofLines (Text.lines text.toList)
    match built with
    | .error e => .failure "" ⟨"failed to build NFA", e.causes⟩
    | .ok nfa =>
      let shown := "### Grammar ###\n" ++ nfa.transitionTable ++ "\n"
      match nfa.determinize with
      | .error e => .failure shown ⟨"failed to determinize", [e.message]⟩
      | .ok dfa =>
        let shown := shown ++ "### DFA ###\n" ++ dfa.transitionTable ++ "\n"
        match args with
        | [] => .success shown
        | source :: _ => displayTokens shown dfa source

end Program
end TokenAutomata
