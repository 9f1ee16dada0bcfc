import MiniPascal.Assembly.Label
import MiniPascal.Assembly.Listing
import MiniPascal.Operator
import MiniPascal.Text.Quoted

/-!
# Instructions

The part of the 32-bit instruction set that compiled programs use, in the order
of operands in which it is written: the source first, the target last.  A line
of code is an instruction, a label, a directive or a text datum; each has one
written form.
-/

namespace MiniPascal.Assembly

/-- The registers in use; `al` is the low byte of `eax`. -/
inductive Register
  | eax | ecx | edx | ebp | esp | al
  deriving DecidableEq, Repr

def Register.text : Register → String
  | eax => "%eax"
  | ecx => "%ecx"
  | edx => "%edx"
  | ebp => "%ebp"
  | esp => "%esp"
  | al => "%al"

/-- An operand: a number, a register, or the word at an offset from one. -/
inductive Operand
  | immediate (value : Int)
  | register (register : Register)
  | memory (offset : Int) (base : Register)
  deriving DecidableEq, Repr

namespace Operand

def text : Operand → String
  | immediate value => "$" ++ toString value
  | register r => r.text
  | memory offset base => toString offset ++ "(" ++ base.text ++ ")"

abbrev eax : Operand := register .eax

abbrev ecx : Operand := register .ecx

abbrev edx : Operand := register .edx

abbrev esp : Operand := register .esp

end Operand

/-- An operation of two operands that leaves its result in the second. -/
inductive ArithOp
  | add | subtract | multiply | and | or | xor
  deriving DecidableEq, Repr

def ArithOp.opcode : ArithOp → String
  | add => "addl"
  | subtract => "subl"
  | multiply => "imull"
  | and => "andl"
  | or => "orl"
  | xor => "xorl"

inductive Instruction
  | move (source target : Operand)
  | push (source : Operand)
  | pop (target : Operand)
  | arith (op : ArithOp) (source target : Operand)
  | negate (target : Operand)
  /-- Fills `edx` with the sign of `eax`. -/
  | signExtend
  /-- Divides `edx:eax`: the quotient to `eax`, the remainder to `edx`. -/
  | divide (divisor : Operand)
  | compare (source target : Operand)
  /-- Stores whether the last comparison held. -/
  | storeCondition (relation : Relation) (target : Operand)
  | jump (target : Label)
  | jumpIfEqual (target : Label)
  | call (target : Label)
  | loadAddress (source : Label) (target : Operand)
  /-- Makes a frame of the given size at a frame level. -/
  | enter (size : Int) (level : Nat)
  | leave
  | ret
  deriving DecidableEq, Repr

namespace Instruction

def opcode : Instruction → String
  | move .. => "movl"
  | push _ => "pushl"
  | pop _ => "popl"
  | arith op _ _ => op.opcode
  | negate _ => "negl"
  | signExtend => "cdq"
  | divide _ => "idivl"
  | compare .. => "cmpl"
  | storeCondition relation _ => "set" ++ relation.condition
  | jump _ => "jmp"
  | jumpIfEqual _ => "je"
  | call _ => "call"
  | loadAddress .. => "leal"
  | enter .. => "enter"
  | leave => "leave"
  | ret => "ret"

def operands : Instruction → String
  | move source target => source.text ++ "," ++ target.text
  | push source => source.text
  | pop target => target.text
  | arith _ source target => source.text ++ "," ++ target.text
  | negate target => target.text
  | signExtend => ""
  | divide divisor => divisor.text
  | compare source target => source.text ++ "," ++ target.text
  | storeCondition _ target => target.text
  | jump target => target.text
  | jumpIfEqual target => target.text
  | call target => target.text
  | loadAddress source target => source.text ++ "," ++ target.text
  | enter size level => "$" ++ toString size ++ ",$" ++ toString level
  | leave => ""
  | ret => ""

end Instruction

inductive Directive
  /-- A name defined elsewhere. -/
  | external (name : String)
  /-- A label visible elsewhere. -/
  | global (name : String)
  | dataSection
  | textSection
  | align (boundary : Nat)
  deriving DecidableEq, Repr

def Directive.text : Directive → String
  | external name => ".extern " ++ name
  | global name => ".globl " ++ name
  | dataSection => ".data"
  | textSection => ".text"
  | align boundary => ".align " ++ toString boundary

inductive Line
  | directive (directive : Directive)
  | label (label : Label)
  | instruction (label? : Option Label) (instruction : Instruction) (comment : String)
  /-- A text in the data section, at a label. -/
  | datum (label : Label) (text : String)
  deriving DecidableEq, Repr

def Line.listed : Line → ListingLine
  | directive d => .directive d.text
  | label l => .label l.text
  | instruction label? i comment =>
    .instruction (label?.map Label.text) i.opcode i.operands comment
  | datum l text => .instruction (some l.text) ".asciz" (Text.quote text) ""

end MiniPascal.Assembly
