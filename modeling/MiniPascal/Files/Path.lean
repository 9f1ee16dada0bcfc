/-!
# Paths

The parts of a path that decide what a file is called: its last component, once
slashes and single dots at the end are dropped, and that component's extension,
which is what follows its last dot.  A name whose only dot is in front has none.
Paths and components have a greatest length in bytes.
-/

namespace MiniPascal.Path

/-- The pieces of a text between the occurrences of a character. -/
def split (separator : Char) : List Char → List (List Char)
  | [] => [[]]
  | c :: rest =>
    if c = separator then [] :: split separator rest
    else
      match split separator rest with
      | first :: others => (c :: first) :: others
      | [] => [[c]]

def join (separator : Char) : List (List Char) → List Char
  | [] => []
  | [piece] => piece
  | piece :: others => piece ++ separator :: join separator others

theorem split_ne_nil (separator : Char) (text : List Char) : split separator text ≠ [] := by
  cases text with
  | nil => simp [split]
  | cons c rest =>
    unfold split
    split
    · simp
    · split <;> simp

/-- Joining the pieces of a text gives the text back. -/
@[simp]
theorem join_split (separator : Char) (text : List Char) :
    join separator (split separator text) = text := by
  induction text with
  | nil => rfl
  | cons c rest ih =>
    unfold split
    split
    · rename_i same
      match h : split separator rest with
      | [] => exact absurd h (split_ne_nil _ _)
      | first :: others =>
        rw [h] at ih
        simp [join, ih, same]
    · match h : split separator rest with
      | [] => exact absurd h (split_ne_nil _ _)
      | [first] =>
        rw [h] at ih
        simpa [join] using ih
      | first :: second :: others =>
        rw [h] at ih
        simpa [join] using ih

/-- A component that leads nowhere. -/
def isIdle (component : List Char) : Bool :=
  component == [] || component == ['.']

/-- A path without the slashes at its end; a first slash stays. -/
def dropSlashes : List Char → List Char
  | [] => []
  | c :: rest => c :: (rest.reverse.dropWhile (· = '/')).reverse

/-- The components of a path without the idle ones at the end. -/
def components (path : String) : List (List Char) :=
  ((split '/' path.toList).reverse.dropWhile isIdle).reverse

/-- The last component, unless it leads to the directory above. -/
def fileName? (path : String) : Option (List Char) :=
  (components path).getLast?.filter fun name => name != ['.', '.']

/-- Splits a name at its last dot, unless there is nothing before the dot. -/
def splitExtension (name : List Char) : List Char × Option (List Char) :=
  let ext := (name.reverse.takeWhile (· ≠ '.')).reverse
  let stem := (name.reverse.dropWhile (· ≠ '.')).tail.reverse
  if stem.isEmpty then (name, none) else (stem, some ext)

def extension? (path : String) : Option String := do
  let name ← fileName? path
  let ext ← (splitExtension name).2
  return String.ofList ext

/-- The path without the extension of the file it leads to, the dot before it kept. -/
def dropExtension (path : String) : String :=
  match extension? path with
  | none => path
  | some ext => String.ofList (path.toList.take (path.length - ext.length))

/-- The path with an extension in place of what follows the last dot of its name.  A path that leads
to no file is kept. -/
def setExtension (path ext : String) : String :=
  match fileName? path with
  | none => path
  | some name =>
    let named := (splitExtension name).1 ++ '.' :: ext.toList
    String.ofList (join '/' ((components path).dropLast ++ [named]))

/-- The path with another extension.  The old extension goes first, and if what is left leads to the
directory above, as it does for a file whose name before the extension is one dot, it is kept. -/
def withExtension (path ext : String) : String :=
  setExtension (dropExtension path) ext

def maxBytes : Nat := 4095

def maxComponentBytes : Nat := 255

def isOverlong (component : List Char) : Bool :=
  maxComponentBytes < (String.ofList component).utf8ByteSize

end MiniPascal.Path
