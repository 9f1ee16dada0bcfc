/-!
# Labels

A label names a place in the assembly.  All labels of a compilation draw their
numbers from one counter, so two of them never have the same text: a numbered
label shows its number with four digits or more, a named one ends in it.
-/

namespace MiniPascal.Assembly

/-- What a character of a source name becomes in a label.  The name is put in
lower case, and what is not a lower-case ASCII letter, a digit or an underscore
becomes an underscore.  Besides the ASCII capitals, only the Kelvin sign has an
ASCII letter as its lower case, and only the dotted capital I has a longer one,
which begins with an ASCII letter. -/
def labelChars (c : Char) : List Char :=
  if c.isLower || c.isDigit || c == '_' then [c]
  else if c.isUpper then [c.toLower]
  else if c.toNat = 0x212A then ['k']
  else if c.toNat = 0x130 then ['i', '_']
  else ['_']

def sanitize (name : String) : String :=
  String.ofList (name.toList.flatMap labelChars)

/-- A number in decimal, with zeros in front up to a width. -/
def zeroPadded (width number : Nat) : String :=
  let digits := (toString number).toList
  String.ofList (List.replicate (width - digits.length) '0' ++ digits)

inductive Label
  /-- A branch target or a datum. -/
  | numbered (number : Nat)
  /-- A callable unit, with the stem of its class and its source name. -/
  | unit (stem name : String) (number : Nat)
  /-- A name fixed outside the program. -/
  | global (name : String)
  deriving DecidableEq, Repr

namespace Label

def programStem : String := "prog$"

def procedureStem : String := "proc$"

def functionStem : String := "func$"

def text : Label → String
  | numbered number => ".L" ++ zeroPadded 4 number
  | unit stem name number => stem ++ sanitize name ++ "_" ++ toString number
  | global name => name

end Label

end MiniPascal.Assembly
