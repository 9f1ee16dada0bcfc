import MiniPascal.Check
import MiniPascal.Proofs.Binding.Bound

/-!
# Well-formed programs

When a numbered program is correct, said of the program as it is written and not of
the order in which it is checked: the names declared in a block differ, every name in a
declaration stands for something of the right kind that is declared earlier in the
block, around it or in the library, every name in a statement stands for something that
may be used so, and frames are not nested too deeply.
-/

namespace MiniPascal

/-- How a declaration of some kind may be used in a block. -/
inductive NameUse.Allows (tree : Tree) (block : BlockId) : NameUse → DeclKind → Prop
  | type {content : TypeExpr DeclId} : Allows tree block .typeName (.type content)
  | constant {value : Constant} : Allows tree block .constant (.constant value)
  | literal {code : Int} : Allows tree block .constant (.enumLiteral code)
  | assignVariable {content : TypeExpr DeclId} : Allows tree block .target (.variableOf content)
  | assignParameter {ref : NameRef} : Allows tree block .target (.parameter ref)
  /-- A function's result is assigned in its body and in the blocks inside that. -/
  | assignResult {routine : Routine} {body : BlockId} (isFunction : routine.isFunction = true)
      (hasBody : routine.body = some body) (within : tree.isWithin block body = true) :
      Allows tree block .target (.routine routine)
  | readVariable {content : TypeExpr DeclId} : Allows tree block .value (.variableOf content)
  | readParameter {ref : NameRef} : Allows tree block .value (.parameter ref)
  | readConstant {value : Constant} : Allows tree block .value (.constant value)
  | readLiteral {code : Int} : Allows tree block .value (.enumLiteral code)
  /-- A function without parameters is called by its bare name. -/
  | readFunction {routine : Routine} (isFunction : routine.routineClass = .function)
      (noParams : routine.params = []) : Allows tree block .value (.routine routine)
  | call {routine : Routine} {args : Nat} (count : routine.params.length = args) :
      Allows tree block (.call routine.routineClass args) (.routine routine)
  /-- The routine of the library takes any number of arguments. -/
  | callBuiltin {routine : Routine} {args : Nat} (builtin : routine.isBuiltin = true) :
      Allows tree block (.call routine.routineClass args) (.routine routine)

namespace Tree

/-! ### What is declared where -/

def paramsOf (tree : Tree) (block : BlockId) : List DeclId :=
  (tree.decls.toList.findSome? fun decl => decl.kind.routine?.bind fun routine =>
    if routine.body = some block then some routine.params else none).getD []

/-- A declaration and the enumeration literals it brings with it. -/
def declares (tree : Tree) (id : DeclId) : List DeclId :=
  id :: (tree.decls[id]?.map fun decl => Check.literalsOf decl.kind).getD []

def declarationsOf (tree : Tree) (block : BlockId) : List DeclId :=
  (tree.blocks[block]?.map Block.declarations).getD []

/-- Everything declared in a block: the parameters of its routine, and its declarations
with their enumeration literals. -/
def declaredIn (tree : Tree) (block : BlockId) : List DeclId :=
  tree.paramsOf block ++ (tree.declarationsOf block).flatMap tree.declares

def namesOf (tree : Tree) (ids : List DeclId) : List String :=
  (ids.filterMap (tree.decls[·]?)).map Decl.name

def named (tree : Tree) (ids : List DeclId) (name : String) : Option Decl :=
  (ids.filterMap (tree.decls[·]?)).find? (·.name == name)

/-- What a name stands for in a block: a declaration of the nearest block around it
that declares the name, or else of the library. -/
def meaning (tree : Tree) (block : BlockId) (name : String) : Option Decl :=
  ((tree.chain block).findSome? fun outer => tree.named (tree.declaredIn outer) name).or
    (Library.decls.find? (·.name == name))

/-- What a name stands for in a block of which only some declarations are seen. -/
def meaningAfter (tree : Tree) (block : BlockId) (seen : List DeclId) (name : String) :
    Option Decl :=
  (tree.named seen name).or ((tree.enclosing? block).bind fun outer => tree.meaning outer name)

/-! ### Frames -/

/-- The program's block has a frame of its own, and so have the bodies of routines with
parameters. -/
def hasFrame (tree : Tree) (block : BlockId) : Bool :=
  block == tree.body || !(tree.paramsOf block).isEmpty

/-- How many frames a block and the blocks around it have. -/
def frameDepth (tree : Tree) (block : BlockId) : Nat :=
  ((tree.chain block).filter tree.hasFrame).length

/-! ### Correct programs -/

/-- A use of a name in a block is correct, if names stand for these declarations. -/
def Correct (tree : Tree) (names : String → Option Decl) (block : BlockId) (use : Use) : Prop :=
  ∃ decl, names use.2.name = some decl ∧ use.1.Allows tree block decl.kind

/-- A block of a program is correct. -/
structure BlockCorrect (tree : Tree) (id : BlockId) (block : Block) : Prop where
  /-- Everything declared in the block has a name of its own. -/
  distinct : (tree.namesOf (tree.declaredIn id)).Nodup
  /-- Names in a declaration, and in the parameters of a routine, are those of the
  parameters of the block, of its earlier declarations, or of what is around it. -/
  declarations : ∀ before declared after, block.declarations = before ++ declared :: after →
    ∀ decl, tree.decls[declared]? = some decl → ∀ use ∈ tree.usesOf decl.kind,
      tree.Correct (tree.meaningAfter id (tree.paramsOf id ++ before.flatMap tree.declares)) id use
  /-- Names in statements see everything declared in the block and around it. -/
  statements : ∀ use ∈ Statement.usesAll block.statements, tree.Correct (tree.meaning id) id use
  /-- The frame of the block has room for the display of the frames around it. -/
  nesting : tree.frameDepth id ≤ Frame.maxLevel

/-- A program is correct, whatever the order in which it is checked. -/
def WellFormed (tree : Tree) : Prop :=
  ∀ id block, tree.blocks[id]? = some block → tree.BlockCorrect id block

end Tree

/-! ### Objections -/

namespace NameUse

variable {tree : Tree} {block : BlockId} {ref : NameRef} {decl : Decl}

private theorem callObjection?_eq_none_iff {routineClass : RoutineClass} {args : Nat} :
    callObjection? ref decl routineClass args = none ↔
      (call routineClass args).Allows tree block decl.kind := by
  unfold callObjection?
  cases hkind : decl.kind with
  | routine routine =>
      simp only [DeclKind.routine?]
      constructor
      · intro h
        split at h
        · cases h
        next hclass =>
        obtain rfl := not_ne_iff.mp hclass
        split at h
        · cases h
        next hcount =>
        by_cases hbuiltin : routine.isBuiltin = true
        · exact .callBuiltin hbuiltin
        · have hnot : routine.isBuiltin = false := Bool.eq_false_iff.mpr hbuiltin
          exact .call (by_contra fun hne => hcount ⟨hnot, hne⟩)
      · intro h
        cases h with
        | call count => simp [count]
        | callBuiltin builtin => simp [builtin]
  | constant | type | variableOf | parameter | enumLiteral =>
      simp only [DeclKind.routine?, reduceCtorEq, false_iff]
      intro h
      cases h

private theorem valueObjection?_eq_none_iff :
    valueObjection? ref decl = none ↔ value.Allows tree block decl.kind := by
  unfold valueObjection?
  cases hkind : decl.kind with
  | variableOf => exact ⟨fun _ => .readVariable, fun _ => rfl⟩
  | parameter => exact ⟨fun _ => .readParameter, fun _ => rfl⟩
  | constant => exact ⟨fun _ => .readConstant, fun _ => rfl⟩
  | enumLiteral => exact ⟨fun _ => .readLiteral, fun _ => rfl⟩
  | type =>
      simp only [reduceCtorEq, false_iff]
      intro h
      cases h
  | routine routine =>
      simp only
      constructor
      · intro h
        split at h
        · cases h
        next hclass =>
        split at h
        · next hempty => exact .readFunction hclass (List.isEmpty_iff.mp hempty)
        · cases h
      · intro h
        cases h with
        | readFunction isFunction noParams => simp [isFunction, noParams]

private theorem isAssignable_eq_true_iff {kind : DeclKind} :
    isAssignable tree block kind = true ↔ target.Allows tree block kind := by
  cases kind with
  | variableOf => exact ⟨fun _ => .assignVariable, fun _ => rfl⟩
  | parameter => exact ⟨fun _ => .assignParameter, fun _ => rfl⟩
  | constant | type | enumLiteral =>
      constructor
      · intro h
        cases h
      · intro h
        cases h
  | routine routine =>
      unfold isAssignable
      simp only
      constructor
      · intro h
        split at h
        · next body hbody =>
            obtain ⟨isFunction, within⟩ := Bool.and_eq_true_iff.mp h
            exact .assignResult isFunction hbody within
        · cases h
      · intro h
        cases h with
        | assignResult isFunction hasBody within => simp [hasBody, isFunction, within]

/-- Nothing speaks against a use exactly if it is allowed. -/
theorem objection?_eq_none_iff {use : NameUse} :
    use.objection? tree block ref decl = none ↔ use.Allows tree block decl.kind := by
  cases use with
  | value => exact valueObjection?_eq_none_iff
  | call => exact callObjection?_eq_none_iff
  | target =>
      rw [← isAssignable_eq_true_iff]
      unfold objection?
      simp
  | typeName =>
      unfold objection?
      cases hkind : decl.kind with
      | type => exact ⟨fun _ => .type, fun _ => rfl⟩
      | constant | variableOf | parameter | enumLiteral | routine =>
          simp only [reduceCtorEq, false_iff]
          intro h
          cases h
  | constant =>
      unfold objection?
      cases hkind : decl.kind with
      | constant => exact ⟨fun _ => .constant, fun _ => rfl⟩
      | enumLiteral => exact ⟨fun _ => .literal, fun _ => rfl⟩
      | type | variableOf | parameter | routine =>
          simp only [reduceCtorEq, false_iff]
          intro h
          cases h

end NameUse

end MiniPascal
