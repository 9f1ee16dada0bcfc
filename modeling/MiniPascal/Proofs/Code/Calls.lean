import MiniPascal.Proofs.Binding.Exprs
import MiniPascal.Proofs.Code.Labels

/-!
# Calls in the code of statements

Code calls a routine once for each place where the statements call it, unless the place
lies in an index for which no code is written.  A name that stands for a constant, an
enumeration literal or a function may have an index, and it is not computed; the index
of a variable or a parameter is, and so is that of an assignment.
-/

namespace MiniPascal

/-! ### Places where routines are called -/

/-- Whether a name is used as a call of the routine: as the name of what is called, or
as a value. -/
def Use.calls (id : DeclId) (use : Use) : Bool :=
  use.1 != .target && use.2.decl? == some id

mutual

def Expr.unwritten (tree : Tree) : Expr → List Use
  | .literal .. | .name _ => []
  | .element ref index => if tree.isWord ref then index.unwritten tree else index.uses
  | .call _ args => Expr.unwrittenAll tree args
  | .group inner _ => inner.unwritten tree
  | .negation operand _ => operand.unwritten tree
  | .signed _ operand _ => operand.unwritten tree
  | .binary _ left right => left.unwritten tree ++ right.unwritten tree
  | .comparison _ left right => left.unwritten tree ++ right.unwritten tree

def Expr.unwrittenAll (tree : Tree) : List Expr → List Use
  | [] => []
  | expr :: others => expr.unwritten tree ++ Expr.unwrittenAll tree others

end

theorem Expr.unwrittenAll_append (tree : Tree) (front back : List Expr) :
    Expr.unwrittenAll tree (front ++ back) =
      Expr.unwrittenAll tree front ++ Expr.unwrittenAll tree back := by
  induction front with
  | nil => rfl
  | cons expr others ih =>
      rw [List.cons_append, unwrittenAll, unwrittenAll, ih, List.append_assoc]

section Written

variable {tree : Tree}

mutual

/-- All of an expression is written if only words have an index. -/
theorem Expr.unwritten_eq_nil (expr : Expr) (h : ∀ ref ∈ expr.indexed, tree.isWord ref = true) :
    expr.unwritten tree = [] := by
  cases expr with
  | literal | name => rfl
  | element ref index =>
      obtain ⟨hword, hinner⟩ := List.forall_mem_cons.mp h
      rw [unwritten, if_pos hword]
      exact index.unwritten_eq_nil hinner
  | call ref args => exact Expr.unwrittenAll_eq_nil args h
  | group inner line => exact inner.unwritten_eq_nil h
  | negation operand line => exact operand.unwritten_eq_nil h
  | signed sign operand line => exact operand.unwritten_eq_nil h
  | binary op left right =>
      obtain ⟨hleft, hright⟩ := List.forall_mem_append.mp h
      rw [unwritten, left.unwritten_eq_nil hleft, right.unwritten_eq_nil hright]
      rfl
  | comparison relation left right =>
      obtain ⟨hleft, hright⟩ := List.forall_mem_append.mp h
      rw [unwritten, left.unwritten_eq_nil hleft, right.unwritten_eq_nil hright]
      rfl

theorem Expr.unwrittenAll_eq_nil (exprs : List Expr)
    (h : ∀ ref ∈ Expr.indexedAll exprs, tree.isWord ref = true) :
    Expr.unwrittenAll tree exprs = [] := by
  cases exprs with
  | nil => rfl
  | cons expr others =>
      obtain ⟨hfirst, hothers⟩ := List.forall_mem_append.mp h
      rw [unwrittenAll, expr.unwritten_eq_nil hfirst, Expr.unwrittenAll_eq_nil others hothers]
      rfl

end

end Written

namespace Code

open MiniPascal.Assembly
open Emit

/-! ### Counting calls -/

/-- How often lines call a label that is written like this. -/
def callsTo (text : String) (lines : List Line) : Nat :=
  ((called lines).map Label.text).count text

theorem callsTo_append (text : String) (front back : List Line) :
    callsTo text (front ++ back) = callsTo text front + callsTo text back := by
  rw [callsTo, called_append, List.map_append, List.count_append]
  rfl

theorem callsTo_eq_zero {text : String} {lines : List Line} (h : called lines = []) :
    callsTo text lines = 0 := by
  rw [callsTo, h]
  rfl

/-- Lines call a routine where the uses of names do, except for those that are not
written. -/
def Tally (id : DeclId) (text : String) (uses unwritten : List Use) (lines : List Line) : Prop :=
  callsTo text lines + unwritten.countP (Use.calls id) = uses.countP (Use.calls id)

namespace Tally

variable {id : DeclId} {text : String} {uses uses' unwritten unwritten' : List Use}
variable {lines lines' : List Line}

/-- Lines that call nothing. -/
theorem silent (h : called lines = []) : Tally id text [] [] lines := by
  rw [Tally, callsTo_eq_zero h]
  rfl

theorem append (first : Tally id text uses unwritten lines)
    (second : Tally id text uses' unwritten' lines') :
    Tally id text (uses ++ uses') (unwritten ++ unwritten') (lines ++ lines') := by
  rw [Tally] at first second
  rw [Tally, callsTo_append, List.countP_append, List.countP_append]
  omega

theorem perm (h : Tally id text uses unwritten lines) (huses : uses.Perm uses')
    (hunwritten : unwritten.Perm unwritten') : Tally id text uses' unwritten' lines := by
  rw [Tally, ← huses.countP_eq, ← hunwritten.countP_eq]
  exact h

/-- Lines that call nothing may stand before the others. -/
theorem before (hfront : called lines = []) (h : Tally id text uses unwritten lines') :
    Tally id text uses unwritten (lines ++ lines') :=
  (silent hfront).append h

theorem cons {line : Line} (hline : line.callee? = none)
    (h : Tally id text uses unwritten lines) : Tally id text uses unwritten (line :: lines) :=
  before (List.filterMap_cons_none hline : called [line] = []) h

/-- Lines that call nothing may stand behind the others. -/
theorem after (h : Tally id text uses unwritten lines) (hback : called lines' = []) :
    Tally id text uses unwritten (lines ++ lines') := by
  rw [Tally, callsTo_append, callsTo_eq_zero hback]
  exact h

/-- Uses that are not written call nothing. -/
theorem unread (h : Tally id text uses unwritten lines) (uses' : List Use) :
    Tally id text (uses ++ uses') (unwritten ++ uses') lines := by
  rw [Tally] at h
  rw [Tally, List.countP_append, List.countP_append]
  omega

/-- A use that is not a call of the routine. -/
theorem cons_other {use : Use} (hother : use.calls id = false)
    (h : Tally id text uses unwritten lines) : Tally id text (use :: uses) unwritten lines := by
  rw [Tally, List.countP_cons_of_neg (Bool.eq_false_iff.mp hother)]
  exact h

end Tally

/-! ### Calls of a routine -/

/-- A routine is called by a label that is written like this, and nothing else is. -/
structure CalledAs (env : Env) (id : DeclId) (text : String) : Prop where
  routine : ∃ decl heading, env.tree.decls[id]? = some decl ∧ decl.kind = .routine heading ∧
    heading.isBuiltin = false
  label : ∀ other label, env.labels.lookup other = some label → (label.text = text ↔ other = id)
  runtime : ∀ label ∈ runtimeFunctions, label.text ≠ text

section Statements

variable {env : Env} {id : DeclId} {text : String} {counter final : Nat} {lines : List Line}

/-- A name of anything but a routine calls nothing. -/
theorem CalledAs.calls_eq_false (named : CalledAs env id text) {use : NameUse} {ref : NameRef}
    {other : DeclId} {decl : Decl} (hid : ref.decl? = some other)
    (hdecl : env.tree.decls[other]? = some decl)
    (hkind : ∀ heading, decl.kind = .routine heading → heading.isBuiltin = true) :
    Use.calls id (use, ref) = false := by
  obtain ⟨routine, heading, hroutine, hheading, huser⟩ := named.routine
  have hne : other ≠ id := by
    rintro rfl
    obtain rfl := Option.some.inj (hroutine.symm.trans hdecl)
    rw [hkind heading hheading] at huser
    cases huser
  have hdecl? : (ref.decl? == some id) = false := by
    rw [hid]
    exact beq_false_of_ne fun hsome => hne (Option.some.inj hsome)
  rw [Use.calls, hdecl?, Bool.and_false]

theorem called_popLines (args : Nat) : called (popLines args) = [] :=
  called_eq_nil (isPlain_popLines args)

theorem called_operationLines (op : BinaryOp) : called (operationLines op) = [] :=
  called_eq_nil (isPlain_operationLines op)

/-- A run-time function is not the routine. -/
theorem CalledAs.callsTo_writeLines (named : CalledAs env id text) {function : Label}
    (hfunction : function ∈ runtimeFunctions) : callsTo text (writeLines function) = 0 :=
  List.count_cons_of_ne (named.runtime function hfunction)

theorem Tally.write {uses unwritten : List Use} (h : Tally id text uses unwritten lines)
    (named : CalledAs env id text) {function : Label} (hfunction : function ∈ runtimeFunctions) :
    Tally id text uses unwritten (lines ++ writeLines function) := by
  rw [Tally, callsTo_append, named.callsTo_writeLines hfunction]
  exact h

theorem tally_pure (h : Emits (pure ()) counter lines final ()) : Tally id text [] [] lines := by
  obtain ⟨rfl, -, -⟩ := emits_pure_iff.mp h
  exact .silent rfl

/-- A call counts for the routine whose name it has, besides the calls in its arguments. -/
theorem Calls.tally {other : DeclId} {args : Nat} {pushed written : Emit Unit}
    (h : Calls env other args pushed written counter lines final) (named : CalledAs env id text)
    {use : NameUse} (huse : (use != .target) = true) {ref : NameRef} (hid : ref.decl? = some other)
    {uses unwritten : List Use}
    (hpushed : ∀ {counter lines final}, pushed.Emits counter lines final () →
      Tally id text uses unwritten lines)
    (hwritten : ∀ {counter lines final}, written.Emits counter lines final () →
      Tally id text uses unwritten lines) :
    Tally id text ((use, ref) :: uses) unwritten lines := by
  cases h with
  | builtin hdecl hkind hbuiltin hemits =>
      apply (hwritten hemits).cons_other
      apply named.calls_eq_false hid hdecl
      intro heading hheading
      obtain rfl := DeclKind.routine.inj (hkind.symm.trans hheading)
      exact hbuiltin
  | @routine decl heading label _ _ front hdecl hkind hbuiltin hlabel hemits =>
      have hargs := hpushed hemits
      have hcall : callsTo text (.instruction none (.call label) "" :: popLines args) =
          [(use, ref)].countP (Use.calls id) := by
        have hcalled : callsTo text (.instruction none (.call label) "" :: popLines args) =
            [label.text].count text := by
          rw [callsTo, called_cons, called_popLines]
          rfl
        have hcalls : Use.calls id (use, ref) = (label.text == text) := by
          rw [Use.calls, hid, huse, Bool.true_and]
          apply Bool.eq_iff_iff.mpr
          rw [beq_iff_eq, beq_iff_eq, Option.some.injEq, named.label other label hlabel]
        rw [hcalled, List.count_singleton, List.countP_singleton, hcalls]
      rw [Tally] at hargs
      have hcons : ((use, ref) :: uses).countP (Use.calls id) =
          [(use, ref)].countP (Use.calls id) + uses.countP (Use.calls id) :=
        @List.countP_append _ _ [(use, ref)] uses
      rw [Tally, callsTo_append, hcall, hcons]
      omega

/-- A name calls the function it stands for.  Its index is written for a word alone. -/
theorem NameCode.tally {ref : NameRef} {index : Emit Unit}
    (h : NameCode env ref index counter lines final) (named : CalledAs env id text)
    {uses unwritten : List Use}
    (hindex : ∀ {counter lines final}, index.Emits counter lines final () →
      Tally id text uses unwritten lines) :
    Tally id text ((.value, ref) :: uses) (if env.tree.isWord ref then unwritten else uses)
      lines := by
  have hword : ∀ {other decl}, ref.decl? = some other → env.tree.decls[other]? = some decl →
      env.tree.isWord ref = decl.kind.isWord := by
    intro other decl hid hdecl
    rw [Tree.isWord, hid, Option.bind_some, hdecl, Option.any_some]
  cases h with
  | @word other decl layout _ _ front hid hdecl hkind hlayout hemits =>
      have hisWord : env.tree.isWord ref = true := by
        rw [hword hid hdecl]
        rcases hkind with ⟨type, hkind⟩ | ⟨type, hkind⟩ <;> rw [hkind] <;> rfl
      rw [if_pos hisWord]
      apply ((hindex hemits).after rfl).cons_other
      apply named.calls_eq_false hid hdecl
      intro heading hheading
      rcases hkind with ⟨type, hkind⟩ | ⟨type, hkind⟩ <;> cases hkind.symm.trans hheading
  | @number other decl value _ hid hdecl hvalue =>
      have hcases : decl.kind.isWord = false ∧ ∀ heading, decl.kind ≠ .routine heading := by
        rw [Tree.declValue, Tree.valueBy] at hvalue
        cases hkind : decl.kind with
        | constant | enumLiteral => exact ⟨rfl, fun heading hheading => by cases hheading⟩
        | type | variableOf | parameter | routine =>
            rw [hkind] at hvalue
            cases hvalue
      rw [if_neg (by rw [hword hid hdecl, hcases.1]; exact Bool.false_ne_true)]
      apply Tally.cons_other _ ((Tally.silent (called_cons _ _)).unread uses)
      apply named.calls_eq_false hid hdecl
      exact fun heading hheading => absurd hheading (hcases.2 heading)
  | @function other _ _ _ hid hcalls =>
      have hcount : Tally id text [(.value, ref)] [] lines :=
        hcalls.tally named rfl hid tally_pure tally_pure
      have hisWord : ¬env.tree.isWord ref = true := by
        have hroutine : ∃ decl heading, env.tree.decls[other]? = some decl ∧
            decl.kind = .routine heading := by
          cases hcalls with
          | builtin hdecl hkind | routine hdecl hkind => exact ⟨_, _, hdecl, hkind⟩
        obtain ⟨decl, heading, hdecl, hkind⟩ := hroutine
        rw [hword hid hdecl, hkind]
        exact Bool.false_ne_true
      rw [if_neg hisWord]
      exact hcount.unread uses

/-- A text that is written is no call, also if it has a name. -/
theorem CalledAs.tally_text (named : CalledAs env id text) {arg : Expr} {given : String}
    (h : env.tree.argumentLiteral? arg = some (.text given)) (hlines : called lines = []) :
    Tally id text arg.uses (arg.unwritten env.tree) lines := by
  cases arg with
  | literal => exact .silent hlines
  | name ref =>
      obtain ⟨other, hid, h⟩ := Option.bind_eq_some_iff.mp h
      obtain ⟨decl, hdecl, h⟩ := Option.bind_eq_some_iff.mp h
      apply Tally.cons_other _ (.silent hlines)
      apply named.calls_eq_false hid hdecl
      intro heading hheading
      rw [hheading] at h
      cases h
  | element | call | group | negation | signed | binary | comparison => cases h

/-! ### Calls in expressions -/

mutual

/-- The code of an expression has the calls of its uses. -/
theorem tally_expr (named : CalledAs env id text) (expr : Expr) {counter final : Nat}
    {lines : List Line} (h : (Code.expr env expr).Emits counter lines final ()) :
    Tally id text expr.uses (expr.unwritten env.tree) lines := by
  cases expr with
  | literal value line =>
      obtain ⟨rfl, -⟩ := emits_literal h
      exact .silent rfl
  | name ref =>
      have hname := (emits_name h).tally named tally_pure
      rw [ite_self] at hname
      exact hname
  | element ref index => exact (emits_element h).tally named (tally_expr named index)
  | call ref args =>
      obtain ⟨other, hid, hcalls⟩ := emits_callExpr h
      exact hcalls.tally named rfl hid (tally_pushAll named args) (tally_writeAll named args)
  | group inner line =>
      rw [Code.expr] at h
      exact tally_expr named inner h
  | negation operand line =>
      obtain ⟨front, hoperand, rfl⟩ := emits_negation h
      exact (tally_expr named operand hoperand).after rfl
  | signed sign operand line =>
      cases sign with
      | plus =>
          rw [Code.expr] at h
          exact tally_expr named operand h
      | minus =>
          obtain ⟨front, hoperand, rfl⟩ := emits_minus h
          exact (tally_expr named operand hoperand).after rfl
  | binary op left right =>
      obtain ⟨first, middle, second, hleft, hright, rfl⟩ := emits_binary h
      apply (tally_expr named left hleft).append
      apply Tally.cons rfl
      exact (tally_expr named right hright).after (called_operationLines op)
  | comparison relation left right =>
      obtain ⟨first, middle, second, hleft, hright, rfl⟩ := emits_comparison h
      apply (tally_expr named left hleft).append
      apply Tally.cons rfl
      exact (tally_expr named right hright).after rfl

/-- Arguments are computed from the last to the first, each once. -/
theorem tally_pushAll (named : CalledAs env id text) (args : List Expr) {counter final : Nat}
    {lines : List Line} (h : (pushAll env args).Emits counter lines final ()) :
    Tally id text (Expr.usesAll args) (Expr.unwrittenAll env.tree args) lines := by
  cases args with
  | nil =>
      obtain ⟨rfl, -⟩ := emits_pushAll_nil h
      exact .silent rfl
  | cons arg others =>
      obtain ⟨first, middle, second, hothers, harg, rfl⟩ := emits_pushAll_cons h
      have hrest := tally_pushAll named others hothers
      have hfirst : Tally id text arg.uses (arg.unwritten env.tree)
          (second ++ [.instruction none (.push .eax) ""]) := (tally_expr named arg harg).after rfl
      exact (hrest.append hfirst).perm List.perm_append_comm List.perm_append_comm

theorem tally_writeAll (named : CalledAs env id text) (args : List Expr) {counter final : Nat}
    {lines : List Line} (h : (writeAll env args).Emits counter lines final ()) :
    Tally id text (Expr.usesAll args) (Expr.unwrittenAll env.tree args) lines := by
  cases args with
  | nil =>
      obtain ⟨rfl, -⟩ := emits_writeAll_nil h
      exact .silent rfl
  | cons arg others =>
      obtain ⟨first, middle, second, hwrite, hothers, rfl⟩ := emits_writeAll_cons h
      apply Tally.append _ (tally_writeAll named others hothers)
      cases hwrite with
      | text htext => exact (named.tally_text htext rfl).write named (by decide)
      | char _ harg => exact (tally_expr named arg harg).write named (by decide)
      | number _ _ harg => exact (tally_expr named arg harg).write named (by decide)

end

/-! ### Calls in statements -/

mutual

/-- The code of a statement has the calls of its uses. -/
theorem tally_statement (named : CalledAs env id text) (statement : Statement)
    {counter final : Nat} {lines : List Line}
    (h : (Code.statement env statement).Emits counter lines final ()) :
    Tally id text statement.uses (Expr.unwrittenAll env.tree statement.exprs) lines := by
  cases statement with
  | assign target index value =>
      obtain ⟨first, middle, second, other, decl, layout, hvalue, hindex, -, -, -, rfl⟩ :=
        emits_assign h
      have hfirst := tally_expr named value hvalue
      have hsecond : Tally id text (Expr.usesIn? index)
          (Expr.unwrittenAll env.tree index.toList) second := by
        cases hindex with
        | none => exact .silent rfl
        | some hindex =>
            rw [Option.toList, Expr.unwrittenAll, Expr.unwrittenAll, List.append_nil]
            exact Tally.cons rfl ((tally_expr named _ hindex).after rfl)
      apply Tally.cons_other rfl
      -- the target and the index come first in the text, but the value comes first in the code
      apply Tally.perm _ List.perm_append_comm (List.Perm.refl _)
      exact hfirst.append (hsecond.after rfl)
  | compound body line =>
      rw [Code.statement] at h
      exact tally_statements named body h
  | ifThen condition consequence line =>
      obtain ⟨first, middle, second, hcondition, hconsequence, rfl⟩ := emits_ifThen h
      apply (tally_expr named condition hcondition).append
      apply Tally.before rfl
      exact (tally_statement named consequence hconsequence).after rfl
  | ifElse condition consequence alternative line =>
      obtain ⟨first, middle, second, middle', third, hcondition, hconsequence, halternative, rfl⟩ :=
        emits_ifElse h
      rw [Statement.uses, Statement.exprs, Expr.unwrittenAll, Expr.unwrittenAll_append,
        List.append_assoc]
      apply (tally_expr named condition hcondition).append
      apply Tally.before rfl
      apply (tally_statement named consequence hconsequence).append
      apply Tally.cons rfl
      apply Tally.cons rfl
      exact (tally_statement named alternative halternative).after rfl
  | whileDo condition body line =>
      obtain ⟨first, middle, second, hcondition, hbody, rfl⟩ := emits_whileDo h
      apply Tally.cons rfl
      apply (tally_expr named condition hcondition).append
      apply Tally.before rfl
      exact (tally_statement named body hbody).after rfl
  | call ref args =>
      obtain ⟨other, hid, hcalls⟩ := emits_callStatement h
      exact hcalls.tally named rfl hid (tally_pushAll named args) (tally_writeAll named args)
  | empty line =>
      obtain ⟨rfl, -⟩ := emits_empty h
      exact .silent rfl

theorem tally_statements (named : CalledAs env id text) (body : List Statement)
    {counter final : Nat} {lines : List Line}
    (h : (statements env body).Emits counter lines final ()) :
    Tally id text (Statement.usesAll body)
      (Expr.unwrittenAll env.tree (Statement.exprsAll body)) lines := by
  cases body with
  | nil =>
      obtain ⟨rfl, -⟩ := emits_statements_nil h
      exact .silent rfl
  | cons first others =>
      obtain ⟨front, middle, back, rfl, hfirst, hothers⟩ := emits_statements_cons h
      rw [Statement.usesAll, Statement.exprsAll, Expr.unwrittenAll_append]
      exact (tally_statement named first hfirst).append (tally_statements named others hothers)

end

end Statements

end Code

end MiniPascal
