import MiniPascal.Assembly.Instruction
import MiniPascal.Proofs.Machine.Memory

/-!
# Running instructions

The part of the target machine that instructions work on: its registers, its
memory, what the last comparison compared, and what was written.  An instruction
changes it or faults.  A fault is a number divided by zero or out of range, a
condition without a comparison, an operand that can not be used so, or a push below
the lowest address.
-/

namespace MiniPascal

open MiniPascal.Assembly
open MiniPascal.Machine

namespace Machine

/-- What a program writes. -/
inductive Event
  | int (value : Word)
  | char (value : Word)
  | text (text : String)
  deriving DecidableEq

/-! ### Operations on words -/

def ofBool (value : Bool) : Word :=
  if value then 1 else 0

/-- Whether a comparison of two words holds, taken as signed numbers. -/
def holds : Relation → Word → Word → Bool
  | .equal, left, right => left == right
  | .notEqual, left, right => left != right
  | .less, left, right => left.slt right
  | .lessEqual, left, right => left.sle right
  | .greater, left, right => right.slt left
  | .greaterEqual, left, right => right.sle left

/-- An operation of two words, on the target and the source of an instruction. -/
def applyArith : ArithOp → Word → Word → Word
  | .add, target, source => target + source
  | .subtract, target, source => target - source
  | .multiply, target, source => target * source
  | .and, target, source => target &&& source
  | .or, target, source => target ||| source
  | .xor, target, source => target ^^^ source

/-- Quotient and remainder of a double word, which truncate towards zero; none when
the quotient is no word. -/
def divideWords (high low divisor : Word) : Option (Word × Word) :=
  let dividend := (high ++ low).toInt
  let quotient := dividend.tdiv divisor.toInt
  if divisor = 0 ∨ quotient < -2 ^ 31 ∨ 2 ^ 31 ≤ quotient then none
  else some (BitVec.ofInt 32 quotient, BitVec.ofInt 32 (dividend.tmod divisor.toInt))

end Machine

/-- The registers, the memory, the words compared last (the target first) as long as
they decide conditions, and what was written. -/
structure Machine where
  eax : Word
  ecx : Word
  edx : Word
  ebp : Word
  esp : Word
  memory : Memory
  compared? : Option (Word × Word)
  trace : List Event

namespace Machine

/-! ### Operands -/

/-- The word in a register; `al` holds none. -/
def register? (machine : Machine) : Register → Option Word
  | .eax => some machine.eax
  | .ecx => some machine.ecx
  | .edx => some machine.edx
  | .ebp => some machine.ebp
  | .esp => some machine.esp
  | .al => none

def address? (machine : Machine) (offset : Int) (base : Register) : Option Nat :=
  (machine.register? base).map fun word => (word + BitVec.ofInt 32 offset).toNat

def read (machine : Machine) : Operand → Option Word
  | .immediate value => some (BitVec.ofInt 32 value)
  | .register register => machine.register? register
  | .memory offset base => (machine.address? offset base).map machine.memory.word

def write (machine : Machine) (value : Word) : Operand → Option Machine
  | .immediate _ => none
  | .register .eax => some { machine with eax := value }
  | .register .ecx => some { machine with ecx := value }
  | .register .edx => some { machine with edx := value }
  | .register .ebp => some { machine with ebp := value }
  | .register .esp => some { machine with esp := value }
  | .register .al => none
  | .memory offset base => (machine.address? offset base).map fun address =>
    { machine with memory := machine.memory.store address value }

/-- Pushes a word, unless the stack is full. -/
def push (machine : Machine) (value : Word) : Option Machine :=
  if 4 ≤ machine.esp.toNat then
    some { machine with
      esp := machine.esp - 4
      memory := machine.memory.store (machine.esp - 4).toNat value }
  else none

def top (machine : Machine) : Word :=
  machine.memory.word machine.esp.toNat

/-- Takes the top of the stack off. -/
def popped (machine : Machine) : Machine :=
  { machine with esp := machine.esp + 4 }

/-! ### Frames -/

/-- Pushes words of the display that `ebp` points to, going down from it. -/
def copyDisplay (machine : Machine) : Nat → Option Machine
  | 0 => some machine
  | count + 1 => do
    let below := { machine with ebp := machine.ebp - 4 }
    (← below.push (below.memory.word below.ebp.toNat)).copyDisplay count

/-- Makes a frame: saves `ebp`, copies the display of the frame it points to up to
the level, adds the new frame to it and makes room for variables. -/
def enter (machine : Machine) (size : Int) (level : Nat) : Option Machine := do
  let saved ← machine.push machine.ebp
  let frame := saved.esp
  let displayed ← match level % 32 with
    | 0 => some saved
    | outer + 1 => do (← saved.copyDisplay outer).push frame
  let room := BitVec.ofInt 32 size
  if room.toNat ≤ displayed.esp.toNat then
    some { displayed with ebp := frame, esp := displayed.esp - room }
  else none

def leave (machine : Machine) : Machine :=
  let frame := { machine with esp := machine.ebp }
  { frame.popped with ebp := frame.top }

/-! ### Instructions -/

/-- The machine after an operation that sets conditions in ways no program relies on. -/
def unconditioned (machine : Machine) : Machine :=
  { machine with compared? := none }

/-- Runs an instruction that neither goes elsewhere nor names a label. -/
def exec (machine : Machine) : Instruction → Option Machine
  | .move source target => do machine.write (← machine.read source) target
  | .push source => do machine.push (← machine.read source)
  | .pop target => machine.popped.write machine.top target
  | .arith op source target => do
    let right ← machine.read source
    let left ← machine.read target
    machine.unconditioned.write (applyArith op left right) target
  | .negate target => do
    machine.unconditioned.write (-(← machine.read target)) target
  | .signExtend => some { machine with edx := if machine.eax.msb then -1 else 0 }
  | .divide divisor => do
    let (quotient, remainder) ← divideWords machine.edx machine.eax (← machine.read divisor)
    some { machine with eax := quotient, edx := remainder, compared? := none }
  | .compare source target => do
    let right ← machine.read source
    let left ← machine.read target
    some { machine with compared? := some (left, right) }
  | .storeCondition relation (.register .al) => do
    let (left, right) ← machine.compared?
    some { machine with eax := machine.eax.extractLsb' 8 24 ++
      (if holds relation left right then 1#8 else 0#8) }
  | .enter size level => machine.enter size level
  | .leave => some machine.leave
  | .storeCondition .. | .jump _ | .jumpIfEqual _ | .call _ | .loadAddress .. | .ret => none

/-! ### Division -/

private theorem toInt_signExtended (value : Word) :
    ((if value.msb then (-1 : Word) else 0) ++ value).toInt = value.toInt := by
  rw [BitVec.toInt_append, if_neg (by decide), BitVec.toInt_eq_msb_cond value]
  cases value.msb with
  | true =>
      simp only [if_true]
      have hones : (-1 : Word).toInt = -1 := by decide
      rw [hones]
      omega
  | false => simp

/-- Whether the quotient of two words is a word. -/
def Divides (left right : Word) : Prop :=
  right ≠ 0 ∧ ¬(left = BitVec.intMin 32 ∧ right = -1)

instance (left right : Word) : Decidable (Divides left right) :=
  inferInstanceAs (Decidable (_ ∧ _))

/-- Dividing a sign-extended word gives the quotient and the remainder of words. -/
theorem divideWords_signExtended {left right : Word} (h : Divides left right) :
    divideWords (if left.msb then -1 else 0) left right =
      some (left.sdiv right, left.srem right) := by
  obtain ⟨hnonzero, hrange⟩ := h
  have hquotient : (left.sdiv right).toInt = left.toInt.tdiv right.toInt := by
    apply BitVec.toInt_sdiv_of_ne_or_ne
    by_cases hleft : left = BitVec.intMin 32
    · exact .inr fun hright => hrange ⟨hleft, hright⟩
    · exact .inl hleft
  have hlow := BitVec.le_toInt (left.sdiv right)
  have hhigh := @BitVec.toInt_lt 32 (left.sdiv right)
  rw [hquotient] at hlow hhigh
  rw [divideWords, toInt_signExtended, if_neg, ← hquotient, BitVec.ofInt_toInt, ← BitVec.toInt_srem,
    BitVec.ofInt_toInt]
  rintro (hzero | hsmall | hlarge)
  · exact hnonzero hzero
  · exact absurd hlow (Int.not_le.mpr hsmall)
  · exact absurd hhigh (Int.not_lt.mpr hlarge)

/-- Where the quotient is no word there is none. -/
theorem divideWords_eq_none {left right : Word} (h : ¬Divides left right) :
    divideWords (if left.msb then -1 else 0) left right = none := by
  by_cases hzero : right = 0
  · rw [divideWords, if_pos (.inl hzero)]
  · have hrange : left = BitVec.intMin 32 ∧ right = -1 :=
      Decidable.not_not.mp fun hrange => h ⟨hzero, hrange⟩
    obtain ⟨rfl, rfl⟩ := hrange
    decide

end Machine

end MiniPascal
