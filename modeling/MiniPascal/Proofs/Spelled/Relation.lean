import MiniPascal.Proofs.Binding.Uses
import MiniPascal.Proofs.Tree.Lookup
import Mathlib.Data.Option.Basic

/-!
# Constants spelled out

A piece of a program is spelled out when bare names in it are replaced by literals that
they stand for.  Any of the names may be replaced, or none; everything else stays, but the
line of a new literal is not held to anything.
-/

namespace MiniPascal

mutual

/-- The second expression is the first with some names replaced by literals. -/
inductive Expr.Spelled (stands : NameRef → Literal → Prop) : Expr → Expr → Prop
  | constant {ref : NameRef} {value : Literal} (line : Nat) (h : stands ref value) :
      Spelled stands (.name ref) (.literal value line)
  | literal (value : Literal) (line : Nat) :
      Spelled stands (.literal value line) (.literal value line)
  | name (ref : NameRef) : Spelled stands (.name ref) (.name ref)
  | element (ref : NameRef) {index index' : Expr} (hindex : Spelled stands index index') :
      Spelled stands (.element ref index) (.element ref index')
  | call (ref : NameRef) {args args' : List Expr} (hargs : SpelledAll stands args args') :
      Spelled stands (.call ref args) (.call ref args')
  | group {inner inner' : Expr} (line : Nat) (hinner : Spelled stands inner inner') :
      Spelled stands (.group inner line) (.group inner' line)
  | negation {operand operand' : Expr} (line : Nat) (hoperand : Spelled stands operand operand') :
      Spelled stands (.negation operand line) (.negation operand' line)
  | signed (sign : Sign) {operand operand' : Expr} (line : Nat)
      (hoperand : Spelled stands operand operand') :
      Spelled stands (.signed sign operand line) (.signed sign operand' line)
  | binary (op : BinaryOp) {left left' right right' : Expr} (hleft : Spelled stands left left')
      (hright : Spelled stands right right') :
      Spelled stands (.binary op left right) (.binary op left' right')
  | comparison (relation : Relation) {left left' right right' : Expr}
      (hleft : Spelled stands left left') (hright : Spelled stands right right') :
      Spelled stands (.comparison relation left right) (.comparison relation left' right')

inductive Expr.SpelledAll (stands : NameRef → Literal → Prop) : List Expr → List Expr → Prop
  | nil : SpelledAll stands [] []
  | cons {expr expr' : Expr} {others others' : List Expr} (hexpr : Expr.Spelled stands expr expr')
      (hothers : SpelledAll stands others others') :
      SpelledAll stands (expr :: others) (expr' :: others')

end

mutual

/-- The second statement is the first with some names replaced by literals.  The target of
an assignment and the name of a routine stay. -/
inductive Statement.Spelled (stands : NameRef → Literal → Prop) : Statement → Statement → Prop
  | assign (target : NameRef) {index index' : Option Expr} {value value' : Expr}
      (hindex : Option.Rel (Expr.Spelled stands) index index')
      (hvalue : value.Spelled stands value') :
      Spelled stands (.assign target index value) (.assign target index' value')
  | compound {body body' : List Statement} (line : Nat) (hbody : SpelledAll stands body body') :
      Spelled stands (.compound body line) (.compound body' line)
  | ifThen {condition condition' : Expr} {consequence consequence' : Statement} (line : Nat)
      (hcondition : condition.Spelled stands condition')
      (hconsequence : Spelled stands consequence consequence') :
      Spelled stands (.ifThen condition consequence line) (.ifThen condition' consequence' line)
  | ifElse {condition condition' : Expr}
      {consequence consequence' alternative alternative' : Statement} (line : Nat)
      (hcondition : condition.Spelled stands condition')
      (hconsequence : Spelled stands consequence consequence')
      (halternative : Spelled stands alternative alternative') :
      Spelled stands (.ifElse condition consequence alternative line)
        (.ifElse condition' consequence' alternative' line)
  | whileDo {condition condition' : Expr} {body body' : Statement} (line : Nat)
      (hcondition : condition.Spelled stands condition') (hbody : Spelled stands body body') :
      Spelled stands (.whileDo condition body line) (.whileDo condition' body' line)
  | call (ref : NameRef) {args args' : List Expr} (hargs : Expr.SpelledAll stands args args') :
      Spelled stands (.call ref args) (.call ref args')
  | empty (line : Nat) : Spelled stands (.empty line) (.empty line)

inductive Statement.SpelledAll (stands : NameRef → Literal → Prop) :
    List Statement → List Statement → Prop
  | nil : SpelledAll stands [] []
  | cons {statement statement' : Statement} {others others' : List Statement}
      (hstatement : Statement.Spelled stands statement statement')
      (hothers : SpelledAll stands others others') :
      SpelledAll stands (statement :: others) (statement' :: others')

end

/-- A block is spelled out in its statements. -/
inductive Block.Spelled (stands : NameRef → Literal → Prop) (block : Block) : Block → Prop
  | intro {statements : List Statement}
      (h : Statement.SpelledAll stands block.statements statements) :
      Spelled stands block { block with statements }

/-- A tree is spelled out in the statements of its blocks.  What a name may be replaced by
depends on the block. -/
inductive Tree.Spelled (stands : BlockId → NameRef → Literal → Prop) (tree : Tree) : Tree → Prop
  | intro {blocks : Array Block}
      (h : ∀ id, Option.Rel (Block.Spelled (stands id)) tree.blocks[id]? blocks[id]?) :
      Spelled stands tree { tree with blocks }

theorem Expr.SpelledAll.length_eq {stands : NameRef → Literal → Prop} {exprs exprs' : List Expr}
    (h : Expr.SpelledAll stands exprs exprs') : exprs'.length = exprs.length := by
  induction exprs generalizing exprs' with
  | nil =>
      cases h with
      | nil => rfl
  | cons expr others ih =>
      cases h with
      | cons _ hothers => exact congrArg Nat.succ (ih hothers)

/-! ### What the names stand for -/

section Mono

variable {stands stands' : NameRef → Literal → Prop}

mutual

/-- Only what the names that are used stand for matters. -/
theorem Expr.Spelled.mono : ∀ {expr expr' : Expr}, expr.Spelled stands expr' →
    (∀ use ∈ expr.uses, ∀ value, stands use.2 value → stands' use.2 value) →
      expr.Spelled stands' expr'
  | .literal .., _, .literal value line, _ => .literal value line
  | .name ref, _, .name _, _ => .name ref
  | .name _, _, .constant line hstands, h => .constant line (h _ List.mem_cons_self _ hstands)
  | .element .., _, .element ref hindex, h =>
      .element ref (hindex.mono fun use huse => h use (List.mem_cons_of_mem _ huse))
  | .call .., _, .call ref hargs, h =>
      .call ref (hargs.mono fun use huse => h use (List.mem_cons_of_mem _ huse))
  | .group .., _, .group line hinner, h => .group line (hinner.mono h)
  | .negation .., _, .negation line hoperand, h => .negation line (hoperand.mono h)
  | .signed .., _, .signed sign line hoperand, h => .signed sign line (hoperand.mono h)
  | .binary .., _, .binary op hleft hright, h =>
      .binary op (hleft.mono fun use huse => h use (List.mem_append_left _ huse))
        (hright.mono fun use huse => h use (List.mem_append_right _ huse))
  | .comparison .., _, .comparison relation hleft hright, h =>
      .comparison relation (hleft.mono fun use huse => h use (List.mem_append_left _ huse))
        (hright.mono fun use huse => h use (List.mem_append_right _ huse))

theorem Expr.SpelledAll.mono : ∀ {exprs exprs' : List Expr}, Expr.SpelledAll stands exprs exprs' →
    (∀ use ∈ Expr.usesAll exprs, ∀ value, stands use.2 value → stands' use.2 value) →
      Expr.SpelledAll stands' exprs exprs'
  | [], _, .nil, _ => .nil
  | _ :: _, _, .cons hexpr hothers, h =>
      .cons (hexpr.mono fun use huse => h use (List.mem_append_left _ huse))
        (hothers.mono fun use huse => h use (List.mem_append_right _ huse))

end

theorem Expr.Spelled.mono_index {index index' : Option Expr}
    (hindex : Option.Rel (Expr.Spelled stands) index index')
    (h : ∀ use ∈ Expr.usesIn? index, ∀ value, stands use.2 value → stands' use.2 value) :
    Option.Rel (Expr.Spelled stands') index index' := by
  cases hindex with
  | none => exact .none
  | some hindex => exact .some (hindex.mono h)

mutual

theorem Statement.Spelled.mono : ∀ {statement statement' : Statement},
    statement.Spelled stands statement' →
    (∀ use ∈ statement.uses, ∀ value, stands use.2 value → stands' use.2 value) →
      statement.Spelled stands' statement'
  | .assign .., _, .assign target hindex hvalue, h =>
      .assign target
        (Expr.Spelled.mono_index hindex fun use huse =>
          h use (List.mem_cons_of_mem _ (List.mem_append_left _ huse)))
        (hvalue.mono fun use huse => h use (List.mem_cons_of_mem _ (List.mem_append_right _ huse)))
  | .compound .., _, .compound line hbody, h => .compound line (hbody.mono h)
  | .ifThen .., _, .ifThen line hcondition hconsequence, h =>
      .ifThen line (hcondition.mono fun use huse => h use (List.mem_append_left _ huse))
        (hconsequence.mono fun use huse => h use (List.mem_append_right _ huse))
  | .ifElse .., _, .ifElse line hcondition hconsequence halternative, h =>
      .ifElse line
        (hcondition.mono fun use huse =>
          h use (List.mem_append_left _ (List.mem_append_left _ huse)))
        (hconsequence.mono fun use huse =>
          h use (List.mem_append_left _ (List.mem_append_right _ huse)))
        (halternative.mono fun use huse => h use (List.mem_append_right _ huse))
  | .whileDo .., _, .whileDo line hcondition hbody, h =>
      .whileDo line (hcondition.mono fun use huse => h use (List.mem_append_left _ huse))
        (hbody.mono fun use huse => h use (List.mem_append_right _ huse))
  | .call .., _, .call ref hargs, h =>
      .call ref (hargs.mono fun use huse => h use (List.mem_cons_of_mem _ huse))
  | .empty _, _, .empty line, _ => .empty line

theorem Statement.SpelledAll.mono : ∀ {statements statements' : List Statement},
    Statement.SpelledAll stands statements statements' →
    (∀ use ∈ Statement.usesAll statements, ∀ value, stands use.2 value → stands' use.2 value) →
      Statement.SpelledAll stands' statements statements'
  | [], _, .nil, _ => .nil
  | _ :: _, _, .cons hstatement hothers, h =>
      .cons (hstatement.mono fun use huse => h use (List.mem_append_left _ huse))
        (hothers.mono fun use huse => h use (List.mem_append_right _ huse))

end

end Mono

/-! ### Trees -/

namespace Tree.Spelled

variable {stands stands' : BlockId → NameRef → Literal → Prop} {tree tree' after : Tree}

theorem name_eq (h : tree.Spelled stands tree') : tree'.name = tree.name := by
  cases h
  rfl

theorem body_eq (h : tree.Spelled stands tree') : tree'.body = tree.body := by
  cases h
  rfl

theorem checked_eq (h : tree.Spelled stands tree') : tree'.checked = tree.checked := by
  cases h
  rfl

theorem decls_eq (h : tree.Spelled stands tree') : tree'.decls = tree.decls := by
  cases h
  rfl

/-- A number stands for no block in both trees, or for a block and the block spelled out. -/
theorem block_cases (h : tree.Spelled stands tree') (id : BlockId) :
    tree.blocks[id]? = none ∧ tree'.blocks[id]? = none ∨
      ∃ block block', tree.blocks[id]? = some block ∧ tree'.blocks[id]? = some block' ∧
        block.Spelled (stands id) block' := by
  obtain @⟨blocks', hblocks⟩ := h
  have hrel := hblocks id
  change _ ∧ blocks'[id]? = none ∨ ∃ block block', _ ∧ blocks'[id]? = some block' ∧ _
  generalize tree.blocks[id]? = block? at hrel ⊢
  generalize blocks'[id]? = block'? at hrel ⊢
  cases hrel with
  | none => exact .inl ⟨rfl, rfl⟩
  | some hspelled => exact .inr ⟨_, _, rfl, rfl, hspelled⟩

theorem exists_block (h : tree.Spelled stands tree') {id : BlockId} {block : Block}
    (hblock : tree.blocks[id]? = some block) :
    ∃ block', tree'.blocks[id]? = some block' ∧ block.Spelled (stands id) block' := by
  rcases h.block_cases id with ⟨hnone, -⟩ | ⟨block, block', hfound, hfound', hspelled⟩
  · cases hnone.symm.trans hblock
  · obtain rfl := Option.some.inj (hfound.symm.trans hblock)
    exact ⟨block', hfound', hspelled⟩

theorem mono (h : tree.Spelled stands tree')
    (hstands : ∀ id block, tree.blocks[id]? = some block →
      ∀ use ∈ Statement.usesAll block.statements, ∀ value,
        stands id use.2 value → stands' id use.2 value) : tree.Spelled stands' tree' := by
  have hcases := h.block_cases
  obtain @⟨blocks', -⟩ := h
  refine .intro fun id => ?_
  rcases hcases id with ⟨hnone, hnone'⟩ | ⟨block, block', hfound, hfound', ⟨hstatements⟩⟩
  · change blocks'[id]? = none at hnone'
    rw [hnone, hnone']
    exact .none
  · change blocks'[id]? = some _ at hfound'
    rw [hfound, hfound']
    exact .some (.intro (hstatements.mono (hstands id block hfound)))

theorem size_blocks_eq (h : tree.Spelled stands tree') : tree'.blocks.size = tree.blocks.size := by
  have hsame (id : BlockId) : tree'.blocks[id]? = none ↔ tree.blocks[id]? = none := by
    rcases h.block_cases id with ⟨hnone, hnone'⟩ | ⟨block, block', hfound, hfound', -⟩
    · rw [hnone, hnone']
    · rw [hfound, hfound']
      exact iff_of_false (Option.some_ne_none _) (Option.some_ne_none _)
  apply Nat.le_antisymm
  · exact Array.getElem?_eq_none_iff.mp ((hsame _).mpr (Array.getElem?_eq_none (Nat.le_refl _)))
  · exact Array.getElem?_eq_none_iff.mp ((hsame _).mp (Array.getElem?_eq_none (Nat.le_refl _)))

theorem enclosing?_eq (h : tree.Spelled stands tree') (id : BlockId) :
    tree'.enclosing? id = tree.enclosing? id := by
  unfold enclosing?
  rcases h.block_cases id with ⟨hnone, hnone'⟩ | ⟨block, block', hfound, hfound', ⟨-⟩⟩
  · rw [hnone, hnone']
  · rw [hfound, hfound']
    rfl

theorem tableAt_eq (h : tree.Spelled stands tree') (id : BlockId) :
    tree'.tableAt id = tree.tableAt id := by
  unfold tableAt
  rcases h.block_cases id with ⟨hnone, hnone'⟩ | ⟨block, block', hfound, hfound', ⟨-⟩⟩
  · rw [hnone, hnone']
  · rw [hfound, hfound']
    rfl

theorem chain_eq (h : tree.Spelled stands tree') (id : BlockId) : tree'.chain id = tree.chain id :=
  chain_congr h.size_blocks_eq h.enclosing?_eq id

theorem lookup_eq (h : tree.Spelled stands tree') (id : BlockId) (name : String) :
    tree'.lookup id name = tree.lookup id name := by
  rw [lookup_eq_findSome?, lookup_eq_findSome?, h.chain_eq]
  simp only [h.tableAt_eq]

theorem isWithin_eq (h : tree.Spelled stands tree') (inner outer : BlockId) :
    tree'.isWithin inner outer = tree.isWithin inner outer := by
  rw [isWithin, isWithin, h.chain_eq]

end Tree.Spelled

/-! ### Spelling out every name that can be -/

section SpellOut

variable (literal? : NameRef → Option Literal)

mutual

/-- The expression with all bare names that have a literal replaced by it, on their lines. -/
def Expr.spellOut : Expr → Expr
  | .literal value line => .literal value line
  | .name ref => ((literal? ref).map fun value => Expr.literal value ref.line).getD (.name ref)
  | .element ref index => .element ref index.spellOut
  | .call ref args => .call ref (Expr.spellOutAll args)
  | .group inner line => .group inner.spellOut line
  | .negation operand line => .negation operand.spellOut line
  | .signed sign operand line => .signed sign operand.spellOut line
  | .binary op left right => .binary op left.spellOut right.spellOut
  | .comparison relation left right => .comparison relation left.spellOut right.spellOut

def Expr.spellOutAll : List Expr → List Expr
  | [] => []
  | expr :: others => expr.spellOut :: Expr.spellOutAll others

end

mutual

def Statement.spellOut : Statement → Statement
  | .assign target index value =>
    .assign target (index.map (Expr.spellOut literal?)) (value.spellOut literal?)
  | .compound body line => .compound (Statement.spellOutAll body) line
  | .ifThen condition consequence line =>
    .ifThen (condition.spellOut literal?) consequence.spellOut line
  | .ifElse condition consequence alternative line =>
    .ifElse (condition.spellOut literal?) consequence.spellOut alternative.spellOut line
  | .whileDo condition body line => .whileDo (condition.spellOut literal?) body.spellOut line
  | .call ref args => .call ref (Expr.spellOutAll literal? args)
  | .empty line => .empty line

def Statement.spellOutAll : List Statement → List Statement
  | [] => []
  | statement :: others => statement.spellOut :: Statement.spellOutAll others

end

end SpellOut

/-- The tree with all bare names in the statements of its blocks that have a literal
replaced by it. -/
def Tree.spellOut (literal? : BlockId → NameRef → Option Literal) (tree : Tree) : Tree :=
  { tree with
    blocks := tree.blocks.mapIdx fun id block =>
      { block with statements := Statement.spellOutAll (literal? id) block.statements } }

section SpellOut

variable {literal? : NameRef → Option Literal} {stands : NameRef → Literal → Prop}

mutual

theorem Expr.spelled_spellOut (h : ∀ ref value, literal? ref = some value → stands ref value) :
    ∀ expr : Expr, expr.Spelled stands (expr.spellOut literal?)
  | .literal value line => .literal value line
  | .name ref => by
      rw [spellOut]
      cases hvalue : literal? ref with
      | none => exact .name ref
      | some value => exact .constant ref.line (h ref value hvalue)
  | .element ref index => .element ref (Expr.spelled_spellOut h index)
  | .call ref args => .call ref (Expr.spelledAll_spellOutAll h args)
  | .group inner line => .group line (Expr.spelled_spellOut h inner)
  | .negation operand line => .negation line (Expr.spelled_spellOut h operand)
  | .signed sign operand line => .signed sign line (Expr.spelled_spellOut h operand)
  | .binary op left right =>
      .binary op (Expr.spelled_spellOut h left) (Expr.spelled_spellOut h right)
  | .comparison relation left right =>
      .comparison relation (Expr.spelled_spellOut h left) (Expr.spelled_spellOut h right)

theorem Expr.spelledAll_spellOutAll
    (h : ∀ ref value, literal? ref = some value → stands ref value) :
    ∀ exprs : List Expr, Expr.SpelledAll stands exprs (Expr.spellOutAll literal? exprs)
  | [] => .nil
  | expr :: others => .cons (Expr.spelled_spellOut h expr) (Expr.spelledAll_spellOutAll h others)

end

mutual

theorem Statement.spelled_spellOut
    (h : ∀ ref value, literal? ref = some value → stands ref value) :
    ∀ statement : Statement, statement.Spelled stands (statement.spellOut literal?)
  | .assign target index value => by
      have hindex :
          Option.Rel (Expr.Spelled stands) index (index.map (Expr.spellOut literal?)) := by
        cases index with
        | none => exact .none
        | some index => exact .some (index.spelled_spellOut h)
      exact .assign target hindex (value.spelled_spellOut h)
  | .compound body line => .compound line (Statement.spelledAll_spellOutAll h body)
  | .ifThen condition consequence line =>
      .ifThen line (condition.spelled_spellOut h) (Statement.spelled_spellOut h consequence)
  | .ifElse condition consequence alternative line =>
      .ifElse line (condition.spelled_spellOut h) (Statement.spelled_spellOut h consequence)
        (Statement.spelled_spellOut h alternative)
  | .whileDo condition body line =>
      .whileDo line (condition.spelled_spellOut h) (Statement.spelled_spellOut h body)
  | .call ref args => .call ref (Expr.spelledAll_spellOutAll h args)
  | .empty line => .empty line

theorem Statement.spelledAll_spellOutAll
    (h : ∀ ref value, literal? ref = some value → stands ref value) :
    ∀ statements : List Statement,
      Statement.SpelledAll stands statements (Statement.spellOutAll literal? statements)
  | [] => .nil
  | statement :: others =>
      .cons (Statement.spelled_spellOut h statement) (Statement.spelledAll_spellOutAll h others)

end

end SpellOut

/-- A tree can be spelled out in all names that stand for something. -/
theorem Tree.spelled_spellOut {literal? : BlockId → NameRef → Option Literal}
    {stands : BlockId → NameRef → Literal → Prop}
    (h : ∀ block ref value, literal? block ref = some value → stands block ref value)
    (tree : Tree) : tree.Spelled stands (tree.spellOut literal?) := by
  refine .intro fun id => ?_
  rw [Array.getElem?_mapIdx]
  cases tree.blocks[id]? with
  | none => exact .none
  | some block => exact .some (.intro (Statement.spelledAll_spellOutAll (h id) block.statements))

end MiniPascal
