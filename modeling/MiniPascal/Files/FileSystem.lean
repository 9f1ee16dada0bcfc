import MiniPascal.Files.Path

/-!
# File systems

A directory with files and directories in it, and what happens when a path is
opened for reading or for writing.  Every component of a path but the last must
be a directory; a slash at the end makes the last one no exception.
-/

namespace MiniPascal

/-- Why a file cannot be opened, read or written. -/
inductive FileError
  | missing
  | notDirectory
  | isDirectory
  | nameTooLong
  | zeroInName
  /-- Another reason, as the system words it. -/
  | other (reason : String)
  deriving DecidableEq, Repr

def FileError.message : FileError → String
  | missing => "No such file or directory (os error 2)"
  | notDirectory => "Not a directory (os error 20)"
  | isDirectory => "Is a directory (os error 21)"
  | nameTooLong => "File name too long (os error 36)"
  | zeroInName => "file name contained an unexpected NUL byte"
  | other reason => reason

/-- What a name stands for in a file system. -/
inductive Entry
  | file (content : ByteArray)
  | directory

/-- A place in a file system: the names on the way to it, the last one first.
A place above the root is a number of double dots, and a place found from the top
of the whole system, which lies at an unknown height, starts from a slash. -/
abbrev Place := List (List Char)

def Place.above : List Char := ['.', '.']

/-- The name of the directory above all others.  No component has a slash in it. -/
def Place.top : List Char := ['/']

/-- A file system: the entries below its root, latest first. -/
structure FileSystem where
  entries : List (Place × Entry)

namespace FileSystem

/-- The entry at a place.  The root is a directory, and so are the places above
it, the top, and every place with an entry below it. -/
def entry? (files : FileSystem) (place : Place) : Option Entry :=
  match files.entries.lookup place with
  | some entry => some entry
  | none =>
    if place.all (· == Place.above) || place == [Place.top] ||
        files.entries.any (fun (other, _) => place.isSuffixOf other) then
      some .directory
    else none

/-- The directory above one.  The top is its own. -/
def parent (directory : Place) : Place :=
  if directory.all (· == Place.above) then Place.above :: directory
  else if directory = [Place.top] then directory
  else directory.tail

/-- The entry at a place, unless its name is too long to look for. -/
def look (files : FileSystem) (place : Place) : Except FileError (Option Entry) :=
  if place.head?.any Path.isOverlong then .error .nameTooLong else .ok (files.entry? place)

/-- Follows components from a directory.  The last one is not looked for. -/
def follow (files : FileSystem) : Place → List (List Char) → Except FileError Place
  | directory, [] => .ok directory
  | directory, component :: others =>
    if Path.isIdle component then follow files directory others
    else if component = Place.above then follow files (parent directory) others
    else if others.isEmpty then .ok (component :: directory)
    else
      match files.look (component :: directory) with
      | .ok (some .directory) => follow files (component :: directory) others
      | .ok (some (.file _)) => .error .notDirectory
      | .ok none => .error .missing
      | .error error => .error error

/-- Follows a path from the root, or from the top if it starts with a slash.  An
empty path leads nowhere. -/
def walk (files : FileSystem) : List Char → Except FileError Place
  | [] => .error .missing
  | '/' :: rest => files.follow [Place.top] (Path.split '/' rest)
  | path => files.follow [] (Path.split '/' path)

/-- Refuses the paths that are not even followed. -/
def admitPath (path : String) : Except FileError Unit :=
  if path.toList.contains '\x00' then .error .zeroInName
  else if Path.maxBytes < path.utf8ByteSize then .error .nameTooLong
  else .ok ()

def place (files : FileSystem) (path : String) : Except FileError Place := do
  admitPath path
  files.walk path.toList

def read (files : FileSystem) (path : String) : Except FileError ByteArray := do
  match ← files.look (← files.place path) with
  | some (.file content) => .ok content
  | some .directory => .error .isDirectory
  | none => .error .missing

/-- The place of the file a path is to be created at.  A path with a slash at
its end never leads to one, and then its last component is not looked for. -/
def creationPlace (files : FileSystem) (path : String) : Except FileError Place := do
  admitPath path
  let place ← files.walk (Path.dropSlashes path.toList)
  if path.toList.getLast? = some '/' then .error .isDirectory else .ok place

/-- The file system after content is written to the file a path leads to, which
is created if it is missing. -/
def write (files : FileSystem) (path : String) (content : ByteArray) :
    Except FileError FileSystem := do
  let place ← files.creationPlace path
  match ← files.look place with
  | some .directory => .error .isDirectory
  | _ => .ok { entries := (place, .file content) :: files.entries }

end FileSystem

end MiniPascal
