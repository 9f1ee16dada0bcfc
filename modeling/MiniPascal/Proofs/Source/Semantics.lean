import MiniPascal.Outline
import MiniPascal.Proofs.Machine.Instruction
import MiniPascal.Proofs.Tree.Numbering

/-!
# What programs without routines mean

The meaning of a program is given by its outline alone: names stand for variables
of one word, for numbers, for types or for the procedure that writes; expressions
have words as values; and statements change the store and write.  Arithmetic wraps
around, and a division that has no word as its quotient has no value.
-/

namespace MiniPascal.Source

open MiniPascal.Machine

/-! ### Names -/

/-- What a name stands for. -/
inductive Meaning
  | variable
  /-- A number, with the literal it is written as unless it is an enumeration's. -/
  | constant (value : Int) (literal? : Option Literal)
  | typeName
  | write
  deriving DecidableEq

abbrev Names := String → Option Meaning

namespace Names

def library : Names
  | "boolean" | "char" | "integer" => some .typeName
  | "eol" => some (.constant '\n'.toNat (some (.char '\n')))
  | "false" => some (.constant 0 none)
  | "true" => some (.constant 1 none)
  | "write" => some .write
  | _ => none

def add (names : Names) (name : String) (meaning : Meaning) : Names := fun other =>
  if other = name then some meaning else names other

/-- A constant is a literal, or what its name stands for. -/
def constant? (names : Names) : Constant → Option Meaning
  | .literal value _ => some (.constant value.value (some value))
  | .named ref => names ref.name

def addConstant (names : Names) (decl : Ident × Constant) : Names := fun other =>
  if other = decl.1.name then names.constant? decl.2 else names other

def addLiterals (names : Names) : TypeExpr Ident → Names
  | .enumeration literals _ =>
    literals.zipIdx.foldl (fun names literal => names.add literal.1.name (.constant literal.2 none))
      names
  | .array index element _ => (names.addLiterals index).addLiterals element
  | .named _ | .range .. | .builtin _ => names

def addTyped (meaning : Meaning) (names : Names) (decl : Ident × TypeExpr Ident) : Names :=
  (names.add decl.1.name meaning).addLiterals decl.2

def addPart (names : Names) : Outline.Part → Names
  | .constants decls => decls.foldl addConstant names
  | .types decls => decls.foldl (addTyped .typeName) names
  | .vars decls => decls.foldl (addTyped .variable) names
  | .routine .. => names

end Names

def names (outline : Outline) : Names :=
  outline.body.parts.foldl Names.addPart Names.library

def partVariables : Outline.Part → List String
  | .vars decls => decls.map (·.1.name)
  | .constants _ | .types _ | .routine .. => []

def variableNames (outline : Outline) : List String :=
  outline.body.parts.flatMap partVariables

/-- No part of the program declares a routine. -/
def RoutineFree (outline : Outline) : Prop :=
  ∀ part ∈ outline.body.parts, ∀ heading body, part ≠ .routine heading body

instance (part : Outline.Part) : Decidable (∀ heading body, part ≠ .routine heading body) :=
  match part with
  | .routine heading body => .isFalse fun h => h heading body rfl
  | .constants _ | .types _ | .vars _ => .isTrue fun _ _ => Outline.Part.noConfusion

instance (outline : Outline) : Decidable (RoutineFree outline) :=
  inferInstanceAs (Decidable (∀ part ∈ _, _))

/-! ### Expressions -/

abbrev Store := String → Word

def Store.set (store : Store) (name : String) (value : Word) : Store := fun other =>
  if other = name then value else store other

/-- The word that an operation gives, if it has one. -/
def wordOf? : BinaryOp → Word → Word → Option Word
  | .add, left, right => some (left + right)
  | .subtract, left, right => some (left - right)
  | .multiply, left, right => some (left * right)
  | .or, left, right => some (left ||| right)
  | .and, left, right => some (left &&& right)
  | .divide, left, right => if Divides left right then some (left.sdiv right) else none
  | .modulo, left, right => if Divides left right then some (left.srem right) else none

def nameValue (names : Names) (store : Store) (name : String) : Option Word :=
  match names name with
  | some .variable => some (store name)
  | some (.constant value _) => some (BitVec.ofInt 32 value)
  | some .typeName | some .write | none => none

/-- The value of an expression.  The index of a variable must have a value, but
does not matter. -/
def value (names : Names) (store : Store) : Expr → Option Word
  | .literal literal _ => some (BitVec.ofInt 32 literal.value)
  | .name ref => nameValue names store ref.name
  | .element ref index =>
    match names ref.name with
    | some .variable => do
      let _ ← value names store index
      some (store ref.name)
    | _ => nameValue names store ref.name
  | .call .. => none
  | .group inner _ => value names store inner
  | .negation operand _ => do some ((← value names store operand) ^^^ 1)
  | .signed .plus operand _ => value names store operand
  | .signed .minus operand _ => do some (-(← value names store operand))
  | .binary op left right => do wordOf? op (← value names store left) (← value names store right)
  | .comparison relation left right => do
    some (ofBool (holds relation (← value names store left) (← value names store right)))

/-! ### Statements -/

/-- The literal that an argument is, or is a name for. -/
def bareLiteral? (names : Names) : Expr → Option Literal
  | .literal literal _ => some literal
  | .name ref =>
    match names ref.name with
    | some (.constant _ literal?) => literal?
    | _ => none
  | _ => none

/-- What is written for an argument: a bare text, a bare character, or else a number. -/
def event? (names : Names) (store : Store) (arg : Expr) : Option Event :=
  match bareLiteral? names arg with
  | some (.text text) => some (.text text)
  | some (.char _) => (value names store arg).map .char
  | some (.number _) | none => (value names store arg).map .int

/-- A statement, run in a store, writes events and ends in another store. -/
inductive Exec (names : Names) : Store → Statement → List Event → Store → Prop
  | assign {store : Store} {target : NameRef} {index : Option Expr} {source : Expr} {word : Word}
      (targeted : names target.name = some .variable)
      (valued : value names store source = some word)
      (indexed : ∀ inner ∈ index, (value names store inner).isSome) :
      Exec names store (.assign target index source) [] (store.set target.name word)
  | write {store : Store} {ref : NameRef} {args : List Expr} {events : List Event}
      (called : names ref.name = some .write)
      (written : args.mapM (event? names store) = some events) :
      Exec names store (.call ref args) events store
  | empty {store : Store} {line : Nat} : Exec names store (.empty line) [] store
  | compoundNil {store : Store} {line : Nat} : Exec names store (.compound [] line) [] store
  | compoundCons {store middle final : Store} {first : Statement} {others : List Statement}
      {line : Nat} {events events' : List Event} (ran : Exec names store first events middle)
      (rest : Exec names middle (.compound others line) events' final) :
      Exec names store (.compound (first :: others) line) (events ++ events') final
  | ifThen {store final : Store} {condition : Expr} {consequence : Statement} {line : Nat}
      {word : Word} {events : List Event} (tested : value names store condition = some word)
      (nonzero : word ≠ 0) (ran : Exec names store consequence events final) :
      Exec names store (.ifThen condition consequence line) events final
  | ifThenSkip {store : Store} {condition : Expr} {consequence : Statement} {line : Nat}
      (tested : value names store condition = some 0) :
      Exec names store (.ifThen condition consequence line) [] store
  | ifElse {store final : Store} {condition : Expr} {consequence alternative : Statement}
      {line : Nat} {word : Word} {events : List Event}
      (tested : value names store condition = some word)
      (ran : Exec names store (if word = 0 then alternative else consequence) events final) :
      Exec names store (.ifElse condition consequence alternative line) events final
  | whileDone {store : Store} {condition : Expr} {body : Statement} {line : Nat}
      (tested : value names store condition = some 0) :
      Exec names store (.whileDo condition body line) [] store
  | whileStep {store middle final : Store} {condition : Expr} {body : Statement} {line : Nat}
      {word : Word} {events events' : List Event}
      (tested : value names store condition = some word) (nonzero : word ≠ 0)
      (ran : Exec names store body events middle)
      (rest : Exec names middle (.whileDo condition body line) events' final) :
      Exec names store (.whileDo condition body line) (events ++ events') final

/-- A program runs its statements one after another. -/
def Runs (outline : Outline) (store : Store) (events : List Event) (final : Store) : Prop :=
  Exec (names outline) store (.compound outline.body.statements outline.body.line) events final

/-! ### The room that expressions need -/

def exprDepth : Expr → Nat
  | .literal .. | .name _ | .call .. => 0
  | .element _ index => exprDepth index
  | .group inner _ => exprDepth inner
  | .negation operand _ => exprDepth operand
  | .signed _ operand _ => exprDepth operand
  | .binary _ left right => max (exprDepth left) (exprDepth right + 1)
  | .comparison _ left right => max (exprDepth left) (exprDepth right + 1)

def argsDepth (args : List Expr) : Nat :=
  (args.map exprDepth).foldr max 1

mutual

def statementDepth : Statement → Nat
  | .assign _ none source => exprDepth source
  | .assign _ (some index) source => max (exprDepth source) (exprDepth index + 1)
  | .compound body _ => statementsDepth body
  | .ifThen condition consequence _ => max (exprDepth condition) (statementDepth consequence)
  | .ifElse condition consequence alternative _ =>
    max (exprDepth condition) (max (statementDepth consequence) (statementDepth alternative))
  | .whileDo condition body _ => max (exprDepth condition) (statementDepth body)
  | .call _ args => argsDepth args
  | .empty _ => 0

def statementsDepth : List Statement → Nat
  | [] => 0
  | first :: others => max (statementDepth first) (statementsDepth others)

end

end MiniPascal.Source
