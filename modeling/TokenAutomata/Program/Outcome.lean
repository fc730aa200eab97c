/-
# What a program leaves behind

A program ends with an exit code, and with what it wrote to the standard
output and to the standard error. One that fails says on the standard error
what it could not do and why. A single cause is indented; several are
numbered from the outermost inwards.

Key definitions: `Outcome`, `Report`, `Report.text`.
-/
namespace TokenAutomata

structure Outcome where
  exitCode : Nat
  stdout : String
  stderr : String
deriving DecidableEq

/-- What failed and why, from the outermost cause inwards. -/
structure Report where
  headline : String
  causes : List String := []

namespace Report

/-- A text whose lines after the first one are indented. -/
def indentLines (margin : String) (text : String) : String :=
  String.ofList <| text.toList.flatMap fun c => if c = '\n' then '\n' :: margin.toList else [c]

/-- A cause with its number, right-aligned in five columns. -/
def numbered (cause : String) (n : Nat) : String :=
  let number := toString n
  String.ofList (List.replicate (5 - number.length) ' ') ++ number ++ ": " ++
    indentLines "       " cause

def causeLines : List String → List String
  | [] => []
  | [cause] => ["", "Caused by:", "    " ++ indentLines "    " cause]
  | causes => "" :: "Caused by:" :: causes.zipIdx.map fun (cause, n) => numbered cause n

/-- The report as it is shown. -/
def text (r : Report) : String :=
  "\n".intercalate (("Error: " ++ r.headline) :: causeLines r.causes) ++ "\n"

end Report

/-- A program that did what it should. -/
def Outcome.success (stdout : String) : Outcome := ⟨0, stdout, ""⟩

/-- A program that failed after it had written something. -/
def Outcome.failure (stdout : String) (report : Report) : Outcome := ⟨1, stdout, report.text⟩

end TokenAutomata
