/-!
# Frames

Where words lie in the stack frames of the target.  Every variable, parameter
and intermediate result takes one word.  A frame begins below its frame pointer
with a header, which holds the display (one frame pointer for each enclosing
frame level) and the result of a function; variables follow further down, and
parameters lie above the return address.
-/

namespace MiniPascal.Frame

def wordSize : Int := 4

def headerBytes : Int := 32

/-- Where a function leaves its result, relative to its frame pointer. -/
def resultOffset : Int := -32

/-- The first parameter, above the saved frame pointer and the return address. -/
def firstParamOffset : Int := 8

/-- The first variable, just below the header. -/
def firstLocalOffset : Int := -(headerBytes + wordSize)

/-- The highest frame level whose display fits in the header. -/
def maxLevel : Nat := 7

/-- The display word of a frame level, relative to the frame pointer. -/
def displayOffset (level : Nat) : Int :=
  -(wordSize * level)

/-- The bytes a frame takes for its header and its variables. -/
def size (localBytes : Int) : Int :=
  headerBytes + localBytes

/-- The parameter at an index, counted from zero. -/
def paramOffset (index : Nat) : Int :=
  firstParamOffset + wordSize * index

/-- The display words of all frame levels lie above the result word. -/
theorem resultOffset_lt_displayOffset {level : Nat} (h : level ≤ maxLevel) :
    resultOffset < displayOffset level := by
  simp only [resultOffset, displayOffset, wordSize, maxLevel] at *
  omega

end MiniPascal.Frame
