import MiniPascal.Proofs.Code.Constants
import MiniPascal.Proofs.Source.Semantics

/-!
# What expressions mean when calls are given

The meaning of an expression with calls, by an oracle that says what routines do: it is
given a routine, the words of its arguments and the words of all variables, and answers
with a result and with new words for the variables.  Operands are evaluated from left to
right, arguments from the last to the first, and an index before the variable is read.
-/

namespace MiniPascal

open MiniPascal.Machine
open MiniPascal.Source

/-! ### The memory of variables -/

/-- Declarations with words in memory that keep apart. -/
structure Variables where
  ids : List DeclId
  address : DeclId → Nat
  apart : ∀ id ∈ ids, ∀ other ∈ ids, id ≠ other →
    address id + 4 ≤ address other ∨ address other + 4 ≤ address id

namespace Variables

abbrev Words (vars : Variables) :=
  {id : DeclId // id ∈ vars.ids} → Word

def words (vars : Variables) (memory : Memory) : vars.Words :=
  fun id => memory.word (vars.address id)

/-- A byte belongs to the word of a variable. -/
def Holds (vars : Variables) (byte : Nat) : Prop :=
  ∃ id ∈ vars.ids, vars.address id ≤ byte ∧ byte < vars.address id + 4

end Variables

abbrev Oracle (vars : Variables) :=
  DeclId → List Word → vars.Words → Word × vars.Words

/-- A number for every constant and every enumeration literal: the one it stands for. -/
def Tree.Numbers (tree : Tree) (number : DeclId → Int) : Prop :=
  ∀ path id value literal?, tree.Denotes path id value literal? → number id = value

/-- The number that a declaration stands for, if it stands for one. -/
def Tree.numberOf (tree : Tree) (id : DeclId) : Int :=
  match tree.decls[id]?.map tree.declValue with
  | some (.ok value) => value
  | _ => 0

theorem Tree.numbers_numberOf (tree : Tree) : tree.Numbers tree.numberOf := by
  intro path id value literal? hdenotes
  obtain ⟨decl, hdecl⟩ := hdenotes.exists_decl
  rw [numberOf, hdecl, Option.map_some, hdenotes.declValue_eq hdecl]

/-! ### Evaluation -/

section Evaluate

variable (tree : Tree) (number : DeclId → Int) {vars : Variables} (oracle : Oracle vars)

/-- The value of what is declared, and the words of the variables after it: a function
without parameters is called by its name. -/
def declared? (id : DeclId) (kind : DeclKind) (words : vars.Words) :
    Option (Word × vars.Words) :=
  match kind with
  | .variableOf _ | .parameter _ =>
    if h : id ∈ vars.ids then some (words ⟨id, h⟩, words) else none
  | .constant _ | .enumLiteral _ => some (BitVec.ofInt 32 (number id), words)
  | .routine _ => some (oracle id [] words)
  | .type _ => none

def nameValue? (ref : NameRef) (words : vars.Words) : Option (Word × vars.Words) := do
  let id ← ref.decl?
  declared? number oracle id (← tree.decls[id]?).kind words

variable {tree number oracle} in
theorem nameValue?_eq {ref : NameRef} {id : DeclId} {decl : Decl} (hid : ref.decl? = some id)
    (hdecl : tree.decls[id]? = some decl) (words : vars.Words) :
    nameValue? tree number oracle ref words = declared? number oracle id decl.kind words := by
  rw [nameValue?, hid]
  change (tree.decls[id]?.bind fun decl => declared? number oracle id decl.kind words) = _
  rw [hdecl, Option.bind_some]

mutual

/-- The value of an expression, and the words of the variables after it.  There is none
where a division has no word as its quotient. -/
def evaluate? : Expr → vars.Words → Option (Word × vars.Words)
  | .literal literal _, words => some (BitVec.ofInt 32 literal.value, words)
  | .name ref, words => nameValue? tree number oracle ref words
  | .element ref index, words => do
    let (_, words) ← evaluate? index words
    nameValue? tree number oracle ref words
  | .call ref args, words => do
    let (values, words) ← evaluateAll? args words
    some (oracle (← ref.decl?) values words)
  | .group inner _, words => evaluate? inner words
  | .negation operand _, words => do
    let (value, words) ← evaluate? operand words
    some (value ^^^ 1, words)
  | .signed .plus operand _, words => evaluate? operand words
  | .signed .minus operand _, words => do
    let (value, words) ← evaluate? operand words
    some (-value, words)
  | .binary op left right, words => do
    let (first, words) ← evaluate? left words
    let (second, words) ← evaluate? right words
    some (← wordOf? op first second, words)
  | .comparison relation left right, words => do
    let (first, words) ← evaluate? left words
    let (second, words) ← evaluate? right words
    some (ofBool (holds relation first second), words)

/-- The values of arguments, the last of which is evaluated first. -/
def evaluateAll? : List Expr → vars.Words → Option (List Word × vars.Words)
  | [], words => some ([], words)
  | arg :: others, words => do
    let (values, words) ← evaluateAll? others words
    let (value, words) ← evaluate? arg words
    some (value :: values, words)

end

variable {tree number oracle} in
/-- Every argument has a value. -/
theorem length_of_evaluateAll? {args : List Expr} {words words' : vars.Words} {values : List Word}
    (h : evaluateAll? tree number oracle args words = some (values, words')) :
    values.length = args.length := by
  induction args generalizing values words' with
  | nil =>
      obtain ⟨rfl, -⟩ := Prod.mk.inj (Option.some.inj h)
      rfl
  | cons arg others ih =>
      obtain ⟨⟨rest, middle⟩, hrest, h⟩ := Option.bind_eq_some_iff.mp h
      obtain ⟨⟨first, last⟩, -, h⟩ := Option.bind_eq_some_iff.mp h
      obtain ⟨rfl, -⟩ := Prod.mk.inj (Option.some.inj h)
      rw [List.length_cons, List.length_cons, ih hrest]

end Evaluate

/-! ### The room that expressions need -/

mutual

def Expr.stackWords : Expr → Nat
  | .literal .. | .name _ => 0
  | .element _ index => index.stackWords
  | .call _ args => Expr.stackWordsAll args
  | .group inner _ => inner.stackWords
  | .negation operand _ => operand.stackWords
  | .signed _ operand _ => operand.stackWords
  | .binary _ left right => max left.stackWords (right.stackWords + 1)
  | .comparison _ left right => max left.stackWords (right.stackWords + 1)

def Expr.stackWordsAll : List Expr → Nat
  | [] => 0
  | arg :: others => max (Expr.stackWordsAll others) (others.length + max arg.stackWords 1)

end

end MiniPascal
