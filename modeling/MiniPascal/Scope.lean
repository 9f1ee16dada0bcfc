import MiniPascal.Frame
import MiniPascal.Tree

/-!
# Scopes

The blocks being checked, from the library inwards, and the storage handed out
in them.  A block either owns a frame or shares that of the block around it.
Sharing blocks go on with the offsets of the frame they share, and hand the
next free one back when they are done.

Bytes are counted in any type that a number can be put into.  A check counts
them exactly; a scope that lives on its own has counters of 32 bits, which wrap
around.  Both do the same steps, so they agree as long as nothing wraps.
-/

namespace MiniPascal

/-- A type of byte counts.  A number is counted by steps as it is counted at
once, whether the counts are exact or wrap around. -/
class ByteCount (Count : Type) [Add Count] [Sub Count] where
  ofInt : Int → Count
  ofInt_add (m n : Int) : ofInt (m + n) = ofInt m + ofInt n
  ofInt_sub (m n : Int) : ofInt (m - n) = ofInt m - ofInt n
  exists_ofInt (count : Count) : ∃ n, ofInt n = count

/-- Bytes are counted exactly. -/
instance : ByteCount Int where
  ofInt n := n
  ofInt_add _ _ := rfl
  ofInt_sub _ _ := rfl
  exists_ofInt count := ⟨count, rfl⟩

/-- Bytes are counted in 32 bits and wrap around. -/
instance : ByteCount Int32 where
  ofInt := Int32.ofInt
  ofInt_add := Int32.ofInt_add
  ofInt_sub := Int32.ofInt_sub
  exists_ofInt count := ⟨count.toInt, Int32.ofInt_toInt count⟩

@[simp]
theorem ByteCount.ofInt_int (n : Int) : (ByteCount.ofInt n : Int) = n := rfl

/-- The storage of a finished block: the bytes of its own variables, and those
handed out in its frame so far. -/
structure FrameSummary (Count : Type) where
  ownBytes : Count
  frameBytes : Count
  deriving DecidableEq, Repr

/-- A block being checked. -/
structure ScopeLevel (Count : Type) where
  block : BlockId
  level : Nat
  frameLevel : Nat
  frameOwner : BlockId
  ownsFrame : Bool
  /-- The offset of the next variable in the frame. -/
  nextOffset : Count
  ownBytes : Count
  deriving DecidableEq, Repr

/-- The innermost block being checked, and those around it from the inside out. -/
structure Scope (Count : Type) where
  current : ScopeLevel Count
  outer : List (ScopeLevel Count)
  deriving DecidableEq, Repr

namespace Scope

/-- The diagnostic of leaving the library. -/
def emptyPop : Diagnostic :=
  .misuse "checking" "Cannot pop the library scope"

variable {Count : Type} [Add Count] [Sub Count] [ByteCount Count]

open ByteCount (ofInt)

/-- The library, at level zero. -/
def library : Scope Count where
  current := {
    block := libraryBlock
    level := 0
    frameLevel := 0
    frameOwner := libraryBlock
    ownsFrame := true
    nextOffset := ofInt Frame.firstLocalOffset
    ownBytes := ofInt 0 }
  outer := []

def push (block : BlockId) (ownsFrame : Bool) (scope : Scope Count) : Scope Count where
  current := {
    block
    level := scope.current.level + 1
    frameLevel := if ownsFrame then scope.current.frameLevel + 1 else scope.current.frameLevel
    frameOwner := if ownsFrame then block else scope.current.frameOwner
    ownsFrame
    nextOffset := if ownsFrame then ofInt Frame.firstLocalOffset else scope.current.nextOffset
    ownBytes := ofInt 0 }
  outer := scope.current :: scope.outer

/-- Leaves the current block, unless it is the library. -/
def pop? (scope : Scope Count) : Option (FrameSummary Count × Scope Count) :=
  match scope.outer with
  | [] => none
  | around :: outer =>
    let finished := scope.current
    let around :=
      if finished.ownsFrame then around
      else { around with nextOffset := finished.nextOffset }
    some
      ({ ownBytes := finished.ownBytes
         frameBytes := ofInt Frame.firstLocalOffset - finished.nextOffset },
       { current := around, outer })

/-- Hands out a word for a variable of the current block. -/
def allocate (scope : Scope Count) : Count × Scope Count :=
  (scope.current.nextOffset,
   { scope with current :=
      { scope.current with
        nextOffset := scope.current.nextOffset - ofInt Frame.wordSize
        ownBytes := scope.current.ownBytes + ofInt Frame.wordSize } })

def allocateMany (words : Nat) (scope : Scope Count) : Scope Count :=
  { scope with current :=
    { scope.current with
      nextOffset := scope.current.nextOffset - ofInt (Frame.wordSize * words)
      ownBytes := scope.current.ownBytes + ofInt (Frame.wordSize * words) } }

/-- Leaving a block that was just entered changes nothing. -/
@[simp]
theorem pop?_push (block : BlockId) (ownsFrame : Bool) (scope : Scope Count) :
    (scope.push block ownsFrame).pop?.map Prod.snd = some scope := by
  cases ownsFrame <;> simp [push, pop?]

@[simp]
theorem allocateMany_zero (scope : Scope Count) : scope.allocateMany 0 = scope := by
  obtain ⟨next, hnext⟩ := ByteCount.exists_ofInt scope.current.nextOffset
  obtain ⟨own, hown⟩ := ByteCount.exists_ofInt scope.current.ownBytes
  simp only [allocateMany, ← hnext, ← hown, ← ByteCount.ofInt_sub, ← ByteCount.ofInt_add,
    Int.natCast_zero, Int.mul_zero, Int.sub_zero, Int.add_zero]
  rw [hnext, hown]

/-- The words are handed out one after the other. -/
theorem allocateMany_succ (words : Nat) (scope : Scope Count) :
    scope.allocateMany (words + 1) = (scope.allocateMany words).allocate.2 := by
  obtain ⟨next, hnext⟩ := ByteCount.exists_ofInt scope.current.nextOffset
  obtain ⟨own, hown⟩ := ByteCount.exists_ofInt scope.current.ownBytes
  simp only [allocateMany, allocate, ← hnext, ← hown, ← ByteCount.ofInt_sub,
    ← ByteCount.ofInt_add, Int.natCast_add, Int.natCast_one, Int.mul_add, Int.mul_one,
    Int.sub_sub, Int.add_assoc]

end Scope

end MiniPascal
