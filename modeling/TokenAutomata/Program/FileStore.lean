/-
# Files

What a program asks of the files around it: to read and to write one, to make
a directory, and to tell whether a path is one. A failure has one of few
causes. From these requests one is built: to make a directory with all those
it lies in, where the innermost is tried first and the ones around it only if
they are missing.

The directory a path lies in is its text up to the last name; names `.` and
repeated slashes before and after it do not count, except for a `.` in front.

Key definitions: `FileError`, `FileStore`, `Path.parent?`, `Path.ancestors`,
`FileStore.makeDirectories`.
-/
import TokenAutomata.Text.Split

namespace TokenAutomata

/-- Why a request about a file fails. -/
inductive FileError where
  | noSuchFile
  | alreadyExists
  | notADirectory
  | isADirectory
  /-- Any other cause, as the system words it. -/
  | other (message : String)
deriving DecidableEq

def FileError.message : FileError → String
  | .noSuchFile => "No such file or directory (os error 2)"
  | .alreadyExists => "File exists (os error 17)"
  | .notADirectory => "Not a directory (os error 20)"
  | .isADirectory => "Is a directory (os error 21)"
  | .other message => message

/-- The requests that a program may make. -/
structure FileStore (m : Type → Type) where
  read : String → m (Except FileError ByteArray)
  write : String → ByteArray → m (Except FileError Unit)
  makeDirectory : String → m (Except FileError Unit)
  isDirectory : String → m Bool
  /-- The milliseconds since the program began, as a report shows them. -/
  elapsed : m String

/-! ### Paths -/

namespace Path

/-- The slash of an absolute path, or the `.` that a relative path may start
with, and what follows it. -/
def splitLead (path : List Char) : List Char × List Char :=
  match path with
  | '/' :: rest => (['/'], rest)
  | ['.'] => (['.'], [])
  | '.' :: '/' :: rest => (['.'], '/' :: rest)
  | _ => ([], path)

/-- A name that leads nowhere. -/
def isIdle (name : List Char) : Bool := name == [] || name == ['.']

/-- The path of a lead and of names, the last one first. -/
def join (lead : List Char) (names : List (List Char)) : List Char :=
  lead ++ ['/'].intercalate names.reverse

/-- The names of a path after its lead, the last one first. -/
def names (body : List Char) : List (List Char) := (Text.split '/' body).reverse

/-- The path and those it lies in, as long as they have a text. -/
def ancestorsOf (lead : List Char) (names : List (List Char)) : List (List Char) :=
  match _h : names.dropWhile isIdle with
  | [] => if lead.isEmpty then [] else [lead]
  | name :: rest => join lead (name :: rest) :: ancestorsOf lead rest
termination_by names.length
decreasing_by
  have := (List.dropWhile_suffix isIdle (l := names)).length_le
  rw [_h, List.length_cons] at this
  omega

/-- The path and the directories it lies in, innermost first. -/
def ancestors (path : String) : List String :=
  let (lead, body) := splitLead path.toList
  (ancestorsOf lead (names body)).map String.ofList

/-- The directory a path lies in, which is the empty path for a bare name.
The root and the empty path lie nowhere. -/
def parent? (path : String) : Option String :=
  let (lead, body) := splitLead path.toList
  match (names body).dropWhile isIdle with
  | [] => if lead == ['.'] then some "" else none
  | _ :: rest => some (String.ofList (join lead (rest.dropWhile isIdle)))

end Path

/-! ### Directories with those around them -/

namespace FileStore

variable {m : Type → Type} [Monad m]

/-- Makes a directory, unless it is there already. -/
def ensureDirectory (store : FileStore m) (path : String) : m (Except FileError Unit) := do
  match ← store.makeDirectory path with
  | .ok () => return .ok ()
  | .error e => return if ← store.isDirectory path then .ok () else .error e

/-- Makes the first of some directories, each of which lies in the next. -/
def ensureFirst (store : FileStore m) : List String → m (Except FileError Unit)
  | [] => return .ok ()
  | path :: around => do
    match ← store.ensureDirectory path with
    | .error .noSuchFile =>
      match ← store.ensureFirst around with
      | .ok () => store.ensureDirectory path
      | .error e => return .error e
    | result => return result

/-- Makes a directory and the ones it lies in, as far as they are missing. -/
def makeDirectories (store : FileStore m) (path : String) : m (Except FileError Unit) :=
  store.ensureFirst (Path.ancestors path)

end FileStore
end TokenAutomata
