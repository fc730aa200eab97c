/-
# The command line

Two programs in one file: run under the name `gen_dfa` it generates a table
(`Program.generate`), run under any other name it shows the automata of its
standard input (`Program.display`). Here files, streams and the clock are
those of the system; what is done with them is decided elsewhere.

Key definitions: `SystemFiles.store`, `main`.
-/
import TokenAutomata.Program.Generate

namespace TokenAutomata
namespace SystemFiles

/-- The cause of a failed request, as the system tells it. -/
def cause : IO.Error → FileError
  | .noFileOrDirectory _ _ _ => .noSuchFile
  | .alreadyExists _ _ _ => .alreadyExists
  | .inappropriateType _ code details =>
    if code = 20 then .notADirectory
    else if code = 21 then .isADirectory
    else .other s!"{details} (os error {code})"
  | .permissionDenied _ code details => .other s!"{details} (os error {code})"
  | e => .other (toString e)

/-- The result of a request, failed or not. -/
def attempt {α : Type} (request : IO α) : IO (Except FileError α) := do
  match ← request.toBaseIO with
  | .ok a => return .ok a
  | .error e => return .error (cause e)

/-- A path names a directory, seen from the current one. -/
def isDirectory (path : String) : IO Bool := do ((← IO.currentDir) / path).isDir

/-- The files of the system, and its clock as read against `start`. -/
def store (start : Nat) : FileStore IO where
  read path := attempt (IO.FS.withFile ⟨path⟩ .read fun file => file.readBinToEnd)
  write path content := attempt (IO.FS.writeBinFile ⟨path⟩ content)
  makeDirectory path := attempt (IO.FS.createDir ⟨path⟩)
  isDirectory := isDirectory
  elapsed := return toString ((← IO.monoMsNow) - start)

end SystemFiles

/-- Everything up to the end of a stream. -/
partial def readAll (stream : IO.FS.Stream) (before : ByteArray) : IO ByteArray := do
  let piece ← stream.read 65536
  if piece.isEmpty then return before else readAll stream (before ++ piece)

/-- What the program called `name` does. -/
def runProgram (name : String) (args : List String) : IO Outcome := do
  if name = "gen_dfa" then
    Program.generate (SystemFiles.store (← IO.monoMsNow)) args
  else
    return Program.display args (← readAll (← IO.getStdin) .empty)

end TokenAutomata

open TokenAutomata in
def main (args : List String) : IO UInt32 := do
  let outcome ← runProgram ((← IO.appPath).fileName.getD "") args
  IO.print outcome.stdout
  IO.eprint outcome.stderr
  return outcome.exitCode.toUInt32
