/-
# A tree of files

The files and directories of a system as a value, so that a program that uses
files can be run without any. A place is the list of names that lead to it
from the root. A path is followed name by name; whatever a path leads through
has to be a directory.

Key definitions: `FileTree`, `FileTree.follow`, `FileTree.store`,
`FileTree.ofFiles`, `FileTree.filesAtHome`.
-/
import TokenAutomata.Program.FileStore

namespace TokenAutomata

/-- The names from the root down. -/
abbrev Place := List String

/-- Files with their content, directories other than the root, and the
directory that relative paths start from. -/
structure FileTree where
  files : List (Place × ByteArray)
  directories : List Place
  home : Place

namespace FileTree

def isDirectory (t : FileTree) (place : Place) : Bool := place.isEmpty || place ∈ t.directories

def file? (t : FileTree) (place : Place) : Option ByteArray := t.files.lookup place

/-- There is a directory at the place. -/
def requireDirectory (t : FileTree) (place : Place) : Except FileError Unit :=
  if t.isDirectory place then .ok ()
  else if (t.file? place).isSome then .error .notADirectory
  else .error .noSuchFile

/-- The place some names lead to; there need not be anything. -/
def follow (t : FileTree) : Place → List String → Except FileError Place
  | place, [] => .ok place
  | place, name :: names => do
    t.requireDirectory place
    if name = "" ∨ name = "." then t.follow place names
    else if name = ".." then t.follow place.dropLast names
    else t.follow (place ++ [name]) names

/-- The names of a path and the place they start from. -/
def pathNames (t : FileTree) (path : String) : Place × List String :=
  let names := (Text.split '/' path.toList).map String.ofList
  (if path.toList.head? = some '/' then [] else t.home, names)

/-- The place of a path. -/
def locate (t : FileTree) (path : String) : Except FileError Place :=
  if path = "" then .error .noSuchFile
  else
    let (start, names) := t.pathNames path
    t.follow start names

/-- The directory that the last name of a path stands in, that name, and
whether slashes follow it. There is no last name in a path of slashes. -/
def locateLast (t : FileTree) (path : String) :
    Except FileError (Option (Place × String × Bool)) := do
  if path = "" then throw .noSuchFile
  let (start, names) := t.pathNames path
  match names.reverse.dropWhile (· = "") with
  | [] => return none
  | last :: before => do
    let directory ← t.follow start before.reverse
    t.requireDirectory directory
    return some (directory, last, names.getLast? == some "")

/-! ### Requests -/

def read (t : FileTree) (path : String) : Except FileError ByteArray := do
  let place ← t.locate path
  if t.isDirectory place then throw .isADirectory
  match t.file? place with
  | some content => return content
  | none => throw .noSuchFile

def makeDirectory (t : FileTree) (path : String) : Except FileError FileTree := do
  match ← t.locateLast path with
  | none => throw .alreadyExists
  | some (directory, name, _) =>
    let place := directory ++ [name]
    if name = "." ∨ name = ".." ∨ t.isDirectory place ∨ (t.file? place).isSome then
      throw .alreadyExists
    return { t with directories := place :: t.directories }

def write (t : FileTree) (path : String) (content : ByteArray) : Except FileError FileTree := do
  match ← t.locateLast path with
  | none => throw .isADirectory
  | some (directory, name, slash) =>
    let place := directory ++ [name]
    if slash ∨ name = "." ∨ name = ".." ∨ t.isDirectory place then throw .isADirectory
    return { t with files := (place, content) :: t.files.filter (·.1 ≠ place) }

/-- A request that changes the tree unless it fails. -/
def change (request : FileTree → Except FileError FileTree) :
    StateM FileTree (Except FileError Unit) := fun t =>
  match request t with
  | .ok t' => (.ok (), t')
  | .error e => (.error e, t)

/-- The requests of a program, answered by a tree. It has no clock. -/
def store : FileStore (StateM FileTree) where
  read path := fun t => (t.read path, t)
  write path content := change (·.write path content)
  makeDirectory path := change (·.makeDirectory path)
  isDirectory path := fun t =>
    ((t.locate path).toOption.any t.isDirectory, t)
  elapsed := fun t => ("N", t)

/-! ### Trees of given files -/

/-- The places around a place, without the root. -/
def around (place : Place) : List Place :=
  (List.range (place.length - 1)).map fun n => place.take (n + 1)

/-- The tree of files at paths below a home directory, with the directories
they lie in. -/
def ofFiles (files : List (String × ByteArray)) : FileTree :=
  let home := ["home"]
  let place (path : String) : Place :=
    home ++ ((Text.split '/' path.toList).map String.ofList).filter fun name => name ≠ "" ∧ name ≠ "."
  let placed := files.map fun (path, content) => (place path, content)
  { files := placed.reverse
    directories := home :: placed.flatMap fun (place, _) => around place
    home }

/-- The files below the home directory, by their paths. -/
def filesAtHome (t : FileTree) : List (String × ByteArray) :=
  (t.files.filter fun (place, _) => t.home.isPrefixOf place).map fun (place, content) =>
    ("/".intercalate (place.drop t.home.length), content)

end FileTree
end TokenAutomata
