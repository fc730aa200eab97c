/-
# The program that generates tables

The program reads a definition file and writes the deterministic automaton as
a stored table, in a directory that it makes if need be. The paths of both
files are its arguments, or else `grammar/tokens.txt` and `tables/dfa.json`.

Key definitions: `Program.generate`.
-/
import TokenAutomata.Automaton.Reach
import TokenAutomata.Program.Display
import TokenAutomata.Program.FileStore
import TokenAutomata.Table.Json

namespace TokenAutomata
namespace Program

/-- A line of the program's output. -/
def say (line : String) : String := "[gen_dfa] " ++ line ++ "\n"

/-- How large both automata are, and how long it took. -/
def sizeLine (nfa dfa : Automaton) (elapsed : String) : String :=
  let finals := dfa.finals.length
  let symbols := dfa.alphabet.length
  say (s!"nfa = {nfa.size} states, dfa = {dfa.size} states ({finals} final), " ++
    s!"alphabet = {symbols} symbols, took {elapsed} ms")

variable {m : Type → Type} [Monad m]

/-- Makes the directory that a path lies in, if it lies in any. -/
def makeParent (store : FileStore m) (path : String) : m (Except Report Unit) := do
  match Path.parent? path with
  | none => return .ok ()
  | some parent =>
    let result ← store.makeDirectories parent
    return result.mapError fun e => ⟨s!"failed to create {parent}", [e.message]⟩

/-- Writes a table where it belongs. -/
def writeTable (store : FileStore m) (path : String) (table : Automaton) :
    m (Except Report Unit) := do
  match ← makeParent store path with
  | .error report => return .error report
  | .ok () =>
    let result ← store.write path ⟨table.save.toArray⟩
    return result.mapError fun e => ⟨s!"failed to write {path}", [e.message]⟩

/-- The text of a file. -/
def readText (store : FileStore m) (path : String) : m (Except Report String) := do
  let report (cause : String) : Report := ⟨s!"failed to read {path}", [cause]⟩
  match ← store.read path with
  | .error e => return .error (report e.message)
  | .ok content =>
    match String.fromUTF8? content with
    | none => return .error (report notText)
    | some text => return .ok text

/-- The automaton of a definition file and its deterministic one. -/
def compile (path text : String) : Except Report (Automaton × Automaton) := do
  let nfa : Automaton ←
    (Automaton.ofLines (Text.lines text.toList)).mapError fun e => ⟨s!"in {path}", e.causes⟩
  let dfa ← nfa.determinize.mapError fun e => { headline := e.message }
  return (nfa, dfa)

def generate (store : FileStore m) (args : List String) : m Outcome := do
  let input := args[0]?.getD "grammar/tokens.txt"
  let output := args[1]?.getD "tables/dfa.json"
  match ← readText store input with
  | .error report => return .failure "" report
  | .ok text =>
    let said := say s!"building automata from {input}…"
    match compile input text with
    | .error report => return .failure said report
    | .ok (nfa, dfa) =>
      let said := said ++ sizeLine nfa dfa (← store.elapsed)
      match ← writeTable store output dfa with
      | .error report => return .failure said report
      | .ok () => return .success (said ++ say s!"wrote {output}")

end Program
end TokenAutomata
