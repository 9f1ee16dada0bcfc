import MiniPascal.Proofs.Assembly.Reference
import Mathlib.Algebra.Ring.Int.Defs
import Mathlib.Logic.Relation

/-!
# The depth of the stack

How many words code has put on the stack can be read off its text: pushes and pops
count one each, and an addition to the stack pointer takes off as many words as it
says.  Code is balanced when every branch finds at its label the depth that passing
the lines one after another gives there, and nothing is left over where it returns.
-/

namespace MiniPascal.Assembly

namespace ListingLine

/-- The words that an addition with these operands takes off the stack. -/
def wordsTakenOff (operands : String) : Nat :=
  let digits := (operands.toList.drop 1).takeWhile Char.isDigit
  if operands.toList = '$' :: digits ++ ",%esp".toList then Nat.ofDigitChars 10 digits 0 / 4 else 0

/-- How many words the line leaves on the stack, less those it takes off.  What a call
puts there is gone when it comes back. -/
def growth : ListingLine → Int
  | instruction _ opcode operands _ =>
    if opcode = "pushl" then 1
    else if opcode = "popl" then -1
    else if opcode = "addl" then -(wordsTakenOff operands : Int)
    else 0
  | _ => 0

/-- The label to which the line branches, always or under a condition. -/
def branch? : ListingLine → Option String
  | instruction _ opcode operands _ =>
    if opcode = "jmp" ∨ opcode = "je" then some operands else none
  | _ => none

/-- Whether control may go on from the line to the next one. -/
def passes : ListingLine → Bool
  | instruction _ opcode _ _ => opcode != "jmp" && opcode != "ret"
  | _ => true

def returns (line : ListingLine) : Bool :=
  line.instruction? == some ("ret", "")

def leaves (line : ListingLine) : Bool :=
  line.instruction? == some ("leave", "")

/-- Whether the line makes a frame or takes one down. -/
def framesStack : ListingLine → Bool
  | instruction _ opcode _ _ => opcode == "enter" || opcode == "leave"
  | _ => false

def isTarget : ListingLine → Bool
  | label text => isLocalText text
  | _ => false

/-- Whether nothing may be left on the stack before the line. -/
def isLevel (line : ListingLine) : Bool :=
  line.isTarget || line.leaves || line.returns || line.branch?.isSome

end ListingLine

open ListingLine

/-- Code stays in the frame that it begins in. -/
def Frameless (code : List ListingLine) : Prop :=
  ∀ line ∈ code, line.framesStack = false

/-- The words that code leaves on the stack when its lines are passed one after another. -/
def growthOf (code : List ListingLine) : Int :=
  (code.map growth).sum

/-- The words that code has put on the stack before a line, as it is reached from the
lines before it. -/
def depthAt (code : List ListingLine) (index : Nat) : Int :=
  growthOf (code.take index)

/-- Control goes from one line of code to another, with words on the stack. -/
inductive Goes (code : List ListingLine) : Nat × Int → Nat × Int → Prop
  | on {index : Nat} {depth : Int} {line : ListingLine} (hline : code[index]? = some line)
      (hpasses : line.passes = true) : Goes code (index, depth) (index + 1, depth + line.growth)
  | branch {index target : Nat} {depth : Int} {line : ListingLine} {label : String}
      (hline : code[index]? = some line) (hbranch : line.branch? = some label)
      (htarget : code[target]? = some (.label label)) :
      Goes code (index, depth) (target, depth + line.growth)

/-- Control reaches a line on some path from the first one, where the stack is empty. -/
def Reaches (code : List ListingLine) (index : Nat) (depth : Int) : Prop :=
  Relation.ReflTransGen (Goes code) (0, 0) (index, depth)

/-- The stack is balanced in code, on every path through it. -/
structure Balanced (code : List ListingLine) : Prop where
  closed : ∀ line ∈ code, ∀ label, line.branch? = some label → ListingLine.label label ∈ code
  branches : ∀ index target line label, code[index]? = some line → line.branch? = some label →
    code[target]? = some (.label label) → depthAt code index + line.growth = depthAt code target
  nonneg : ∀ index, index ≤ code.length → 0 ≤ depthAt code index
  level : ∀ index line, code[index]? = some line →
    line.isTarget = true ∨ line.leaves = true ∨ line.returns = true → depthAt code index = 0
  paths : ∀ index depth, Reaches code index depth → depth = depthAt code index
  returns : ∀ index line depth, Reaches code index depth → code[index]? = some line →
    line.returns = true → depth = 0

/-! ### Passing lines one after another -/

@[simp]
theorem growthOf_nil : growthOf [] = 0 := rfl

@[simp]
theorem growthOf_cons (line : ListingLine) (code : List ListingLine) :
    growthOf (line :: code) = line.growth + growthOf code :=
  List.sum_cons

@[simp]
theorem growthOf_append (code code' : List ListingLine) :
    growthOf (code ++ code') = growthOf code + growthOf code' := by
  rw [growthOf, List.map_append, List.sum_append]
  rfl

theorem depthAt_succ {code : List ListingLine} {index : Nat} {line : ListingLine}
    (h : code[index]? = some line) :
    depthAt code (index + 1) = depthAt code index + line.growth := by
  rw [depthAt, List.take_add_one, h, growthOf_append]
  simp [depthAt]

/-- Code takes the stack from one depth to another, never below the bottom, and its
branches and their labels stand where the stack is empty. -/
inductive Moves : Int → List ListingLine → Int → Prop
  | nil {depth : Int} (h : 0 ≤ depth) : Moves depth [] depth
  | cons {depth depth' : Int} {line : ListingLine} {code : List ListingLine} (h : 0 ≤ depth)
      (hlevel : line.isLevel = true → depth = 0) (rest : Moves (depth + line.growth) code depth') :
      Moves depth (line :: code) depth'

namespace Moves

variable {depth depth' depth'' : Int} {code code' : List ListingLine} {line : ListingLine}

theorem append (first : Moves depth code depth') (second : Moves depth' code' depth'') :
    Moves depth (code ++ code') depth'' := by
  induction first with
  | nil => exact second
  | cons h hlevel _ ih => exact .cons h hlevel (ih second)

theorem depth_nonneg (h : Moves depth code depth') : 0 ≤ depth := by
  cases h <;> assumption

/-- The stack is not taken below the bottom anywhere in the code. -/
theorem nonneg (h : Moves depth code depth') (index : Nat) :
    0 ≤ depth + growthOf (code.take index) := by
  induction h generalizing index with
  | nil h =>
      rw [List.take_nil, growthOf_nil, Int.add_zero]
      exact h
  | @cons depth _ line code h _ _ ih =>
      cases index with
      | zero =>
          rw [List.take_zero, growthOf_nil, Int.add_zero]
          exact h
      | succ index =>
          rw [List.take_succ_cons, growthOf_cons, ← Int.add_assoc]
          exact ih index

/-- The stack is empty before every line that needs it so. -/
theorem level (h : Moves depth code depth') {index : Nat} (hline : code[index]? = some line)
    (hlevel : line.isLevel = true) : depth + growthOf (code.take index) = 0 := by
  induction h generalizing index with
  | nil => cases hline
  | @cons depth _ first code _ hfirst _ ih =>
      cases index with
      | zero =>
          obtain rfl := Option.some.inj hline
          rw [List.take_zero, growthOf_nil, Int.add_zero]
          exact hfirst hlevel
      | succ index =>
          rw [List.take_succ_cons, growthOf_cons, ← Int.add_assoc]
          exact ih hline

end Moves

/-- The branches of code go to labels of branch targets that some code around it shows. -/
def BranchesInto (whole code : List ListingLine) : Prop :=
  ∀ label ∈ code.filterMap branch?, isLocalText label = true ∧ ListingLine.label label ∈ whole

namespace BranchesInto

variable {whole code code' : List ListingLine} {line : ListingLine}

theorem nil (whole : List ListingLine) : BranchesInto whole [] :=
  fun _ hlabel => absurd hlabel List.not_mem_nil

theorem append (first : BranchesInto whole code) (second : BranchesInto whole code') :
    BranchesInto whole (code ++ code') := by
  intro label hlabel
  rw [List.filterMap_append] at hlabel
  exact (List.mem_append.mp hlabel).elim (first label) (second label)

/-- A line without a branch. -/
theorem cons_of_none (hline : line.branch? = none) (rest : BranchesInto whole code) :
    BranchesInto whole (line :: code) := by
  rw [BranchesInto, List.filterMap_cons_none hline]
  exact rest

/-- A branch to a label that is shown. -/
theorem cons_of_some {target : String} (hline : line.branch? = some target)
    (hlocal : isLocalText target = true) (hshown : ListingLine.label target ∈ whole)
    (rest : BranchesInto whole code) : BranchesInto whole (line :: code) := by
  rw [BranchesInto, List.filterMap_cons_some hline]
  exact List.forall_mem_cons.mpr ⟨⟨hlocal, hshown⟩, rest⟩

end BranchesInto

/-- A branch neither pushes nor pops. -/
theorem growth_of_branch {line : ListingLine} {label : String} (h : line.branch? = some label) :
    line.growth = 0 := by
  cases line with
  | directive | label => rfl
  | instruction label? opcode operands comment =>
      by_cases hbranch : opcode = "jmp" ∨ opcode = "je"
      · rcases hbranch with rfl | rfl <;> rfl
      · rw [branch?, if_neg hbranch] at h
        cases h

/-- Control that comes to a line finds the depth that the lines before it give. -/
theorem depth_eq_of_reaches {code : List ListingLine} {index : Nat} {depth : Int}
    (branches : ∀ index target line label, code[index]? = some line → line.branch? = some label →
      code[target]? = some (.label label) → depthAt code index + line.growth = depthAt code target)
    (h : Reaches code index depth) : depth = depthAt code index := by
  suffices hplace : ∀ place, Relation.ReflTransGen (Goes code) (0, 0) place →
      place.2 = depthAt code place.1 from hplace (index, depth) h
  intro place reached
  induction reached with
  | refl => rfl
  | @tail before after _ goes ih =>
      cases goes with
      | on hline => rw [depthAt_succ hline, ← ih]
      | branch hline hbranch htarget => rw [← branches _ _ _ _ hline hbranch htarget, ← ih]

/-- Code that begins and ends with an empty stack, and branches only inside itself, is
balanced. -/
theorem Moves.balanced {code : List ListingLine} (moves : Moves 0 code 0)
    (closed : BranchesInto code code) : Balanced code := by
  have hlevel : ∀ {index : Nat} {line : ListingLine}, code[index]? = some line →
      line.isLevel = true → depthAt code index = 0 := by
    intro index line hline hlevel
    have hzero := moves.level hline hlevel
    rwa [Int.zero_add] at hzero
  have hbranches : ∀ index target line label, code[index]? = some line →
      line.branch? = some label → code[target]? = some (.label label) →
        depthAt code index + line.growth = depthAt code target := by
    intro index target line label hline hbranch htarget
    have hlocal := (closed label (List.mem_filterMap.mpr
      ⟨line, List.mem_of_getElem? hline, hbranch⟩)).1
    have hfrom : line.isLevel = true := by simp [isLevel, hbranch]
    have hto : (ListingLine.label label).isLevel = true := by simp [isLevel, isTarget, hlocal]
    rw [hlevel hline hfrom, hlevel htarget hto, growth_of_branch hbranch]
    rfl
  have hneeds : ∀ index line, code[index]? = some line →
      line.isTarget = true ∨ line.leaves = true ∨ line.returns = true →
        depthAt code index = 0 := by
    intro index line hline hneeds
    apply hlevel hline
    rcases hneeds with h | h | h <;> simp [isLevel, h]
  constructor
  case closed =>
    intro line hline label hbranch
    exact (closed label (List.mem_filterMap.mpr ⟨line, hline, hbranch⟩)).2
  case branches => exact hbranches
  case nonneg =>
    intro index _
    have hnonneg := moves.nonneg index
    rwa [Int.zero_add] at hnonneg
  case level => exact hneeds
  case paths => exact fun index depth reached => depth_eq_of_reaches hbranches reached
  case returns =>
    intro index line depth reached hline hreturns
    rw [depth_eq_of_reaches hbranches reached]
    exact hneeds index line hline (.inr (.inr hreturns))

end MiniPascal.Assembly
