/-
# Definition files

A definition file is a list of definitions, one after the other: token rules,
words, and blocks of rules. Rules on lines that follow each other form one
block; comments between them do not count, and every other line ends the
block. Each definition has the number of its first line, counted from 1.

A file is read up to its first wrong line. A block that is still open there
is not complete, so it is no definition of the file.

Key definitions: `Definition`, `Located`, `DefinitionFile`,
`DefinitionFile.readFrom`, `DefinitionFile.read`.
-/
import TokenAutomata.Grammar.Line

namespace TokenAutomata

inductive Definition where
  /-- Rules that refer to each other; the first one is the root. -/
  | block (rules : List Rule)
  | tokenRule (token : String) (literal : List Symbol)
  | sentence (word : List Symbol)
deriving DecidableEq

/-- Something that starts at a line. -/
structure Located (α : Type) where
  line : Nat
  value : α
deriving DecidableEq

/-- The definitions before the first wrong line, and what is wrong there. -/
structure DefinitionFile where
  definitions : List (Located Definition)
  fault : Option (Located SyntaxError)
deriving DecidableEq

namespace DefinitionFile

/-- The block of rules read last, if it has not ended. -/
abbrev OpenBlock := Option (Located (List Rule))

/-- The definition that an open block becomes when it ends. -/
def ended : OpenBlock → List (Located Definition)
  | none => []
  | some ⟨line, rules⟩ => [⟨line, .block rules⟩]

/-- One more rule in the block, which the rule starts if none is open. -/
def extended (line : Nat) (rule : Rule) : OpenBlock → OpenBlock
  | none => some ⟨line, [rule]⟩
  | some ⟨first, rules⟩ => some ⟨first, rules ++ [rule]⟩

/-- More definitions in front. -/
def prepend (definitions : List (Located Definition)) (file : DefinitionFile) : DefinitionFile :=
  { file with definitions := definitions ++ file.definitions }

/-- The rest of a file, from the line numbered `n` on. -/
def readFrom (n : Nat) (block : OpenBlock) : List (List Char) → DefinitionFile
  | [] => ⟨ended block, none⟩
  | raw :: rest =>
    match Line.classify raw with
    | .error e => ⟨[], some ⟨n, e⟩⟩
    | .ok .comment => readFrom (n + 1) block rest
    | .ok .blank => (readFrom (n + 1) none rest).prepend (ended block)
    | .ok (.expression rule) => readFrom (n + 1) (extended n rule block) rest
    | .ok (.tokenRule token literal) =>
      (readFrom (n + 1) none rest).prepend (ended block ++ [⟨n, .tokenRule token literal⟩])
    | .ok (.sentence word) =>
      (readFrom (n + 1) none rest).prepend (ended block ++ [⟨n, .sentence word⟩])

def read (lines : List (List Char)) : DefinitionFile := readFrom 1 none lines

end DefinitionFile
end TokenAutomata
