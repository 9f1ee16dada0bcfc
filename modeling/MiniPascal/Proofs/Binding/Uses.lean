import MiniPascal.Binding
import Mathlib.Logic.Basic

/-!
# The uses of names

Every use of a name in a piece of a program, in the order of the text, and the
piece with all bindings taken off again.  A traversal is determined by what it
does to the list of uses: it visits them one after another, and what it gives
back differs from what it was given in their bindings alone.
-/

namespace MiniPascal

/-- A use of a name together with what the name is used as. -/
abbrev Use := NameUse × NameRef

/-! ### Listing the uses -/

def Constant.uses : Constant → List Use
  | .literal .. => []
  | .named ref => [(.constant, ref)]

def TypeExpr.uses {Lit : Type} : TypeExpr Lit → List Use
  | .named ref => [(.typeName, ref)]
  | .array index element _ => index.uses ++ element.uses
  | .range low high _ => low.uses ++ high.uses
  | .enumeration .. | .builtin _ => []

mutual

def Expr.uses : Expr → List Use
  | .literal .. => []
  | .name ref => [(.value, ref)]
  | .element ref index => (.value, ref) :: index.uses
  | .call ref args => (.call .function args.length, ref) :: Expr.usesAll args
  | .group inner _ => inner.uses
  | .negation operand _ => operand.uses
  | .signed _ operand _ => operand.uses
  | .binary _ left right => left.uses ++ right.uses
  | .comparison _ left right => left.uses ++ right.uses

def Expr.usesAll : List Expr → List Use
  | [] => []
  | expr :: others => expr.uses ++ Expr.usesAll others

end

def Expr.usesIn? : Option Expr → List Use
  | some index => index.uses
  | none => []

mutual

def Statement.uses : Statement → List Use
  | .assign target index value => (.target, target) :: (Expr.usesIn? index ++ value.uses)
  | .compound body _ => Statement.usesAll body
  | .ifThen condition consequence _ => condition.uses ++ consequence.uses
  | .ifElse condition consequence alternative _ =>
    condition.uses ++ consequence.uses ++ alternative.uses
  | .whileDo condition body _ => condition.uses ++ body.uses
  | .call ref args => (.call .procedure args.length, ref) :: Expr.usesAll args
  | .empty _ => []

def Statement.usesAll : List Statement → List Use
  | [] => []
  | statement :: others => statement.uses ++ Statement.usesAll others

end

def DeclKind.uses : DeclKind → List Use
  | .constant value => value.uses
  | .type content | .variableOf content => content.uses
  | .parameter ref => [(.typeName, ref)]
  | .routine heading => heading.result.toList.map (.typeName, ·)
  | .enumLiteral _ => []

def DeclKind.params : DeclKind → List DeclId
  | .routine heading => heading.params
  | _ => []

/-! ### Taking the bindings off -/

def NameRef.erased (ref : NameRef) : NameRef :=
  .unbound ref.name ref.line

def Use.erased (use : Use) : Use :=
  (use.1, use.2.erased)

def Constant.erased (value : Constant) : Constant :=
  Id.run (value.traverse fun _ ref => pure ref.erased)

def TypeExpr.erased {Lit : Type} (type : TypeExpr Lit) : TypeExpr Lit :=
  Id.run (type.traverse fun _ ref => pure ref.erased)

def Expr.erased (expr : Expr) : Expr :=
  Id.run (expr.traverse fun _ ref => pure ref.erased)

def Expr.erasedAll (exprs : List Expr) : List Expr :=
  Id.run (Expr.traverseAll (fun _ ref => pure ref.erased) exprs)

def Statement.erased (statement : Statement) : Statement :=
  Id.run (statement.traverse fun _ ref => pure ref.erased)

def Statement.erasedAll (statements : List Statement) : List Statement :=
  Id.run (Statement.traverseAll (fun _ ref => pure ref.erased) statements)

def DeclKind.erased : DeclKind → DeclKind
  | .constant value => .constant value.erased
  | .type content => .type content.erased
  | .variableOf content => .variableOf content.erased
  | .parameter ref => .parameter ref.erased
  | .enumLiteral code => .enumLiteral code
  | .routine heading => .routine { heading with result := heading.result.map NameRef.erased }

/-! ### Erasing keeps the uses -/

theorem Constant.uses_erased (value : Constant) :
    value.erased.uses = value.uses.map Use.erased := by
  cases value <;> rfl

theorem TypeExpr.uses_erased {Lit : Type} (type : TypeExpr Lit) :
    type.erased.uses = type.uses.map Use.erased := by
  induction type with
  | named | enumeration | builtin => rfl
  | array index element line ihIndex ihElement =>
      change index.erased.uses ++ element.erased.uses = _
      rw [ihIndex, ihElement, uses, List.map_append]
  | range low high line =>
      change low.erased.uses ++ high.erased.uses = _
      rw [low.uses_erased, high.uses_erased, uses, List.map_append]

theorem Expr.erasedAll_eq_map (exprs : List Expr) :
    Expr.erasedAll exprs = exprs.map Expr.erased := by
  induction exprs with
  | nil => rfl
  | cons first others ih =>
      rw [List.map_cons, ← ih]
      rfl

mutual

theorem Expr.uses_erased (expr : Expr) : expr.erased.uses = expr.uses.map Use.erased := by
  cases expr with
  | literal | name => rfl
  | element ref index =>
      change (NameUse.value, ref.erased) :: index.erased.uses = _
      rw [index.uses_erased]
      rfl
  | call ref args =>
      change (NameUse.call .function (Expr.erasedAll args).length, ref.erased) ::
        Expr.usesAll (Expr.erasedAll args) = _
      rw [Expr.usesAll_erased args, Expr.erasedAll_eq_map, List.length_map]
      rfl
  | group inner line => exact inner.uses_erased
  | negation operand line => exact operand.uses_erased
  | signed sign operand line => exact operand.uses_erased
  | binary op left right =>
      change left.erased.uses ++ right.erased.uses = _
      rw [left.uses_erased, right.uses_erased, uses, List.map_append]
  | comparison relation left right =>
      change left.erased.uses ++ right.erased.uses = _
      rw [left.uses_erased, right.uses_erased, uses, List.map_append]

theorem Expr.usesAll_erased (exprs : List Expr) :
    Expr.usesAll (Expr.erasedAll exprs) = (Expr.usesAll exprs).map Use.erased := by
  cases exprs with
  | nil => rfl
  | cons expr others =>
      change expr.erased.uses ++ Expr.usesAll (Expr.erasedAll others) = _
      rw [expr.uses_erased, Expr.usesAll_erased others, Expr.usesAll, List.map_append]

end

mutual

theorem Statement.uses_erased (statement : Statement) :
    statement.erased.uses = statement.uses.map Use.erased := by
  cases statement with
  | assign target index value =>
      cases index with
      | none =>
          change (NameUse.target, target.erased) :: ([] ++ value.erased.uses) = _
          rw [value.uses_erased]
          rfl
      | some index =>
          change (NameUse.target, target.erased) :: (index.erased.uses ++ value.erased.uses) = _
          rw [index.uses_erased, value.uses_erased, ← List.map_append]
          rfl
  | compound body line => exact Statement.usesAll_erased body
  | ifThen condition consequence line =>
      change condition.erased.uses ++ consequence.erased.uses = _
      rw [condition.uses_erased, Statement.uses_erased consequence, uses, List.map_append]
  | ifElse condition consequence alternative line =>
      change condition.erased.uses ++ consequence.erased.uses ++ alternative.erased.uses = _
      rw [condition.uses_erased, Statement.uses_erased consequence,
        Statement.uses_erased alternative, uses, List.map_append, List.map_append]
  | whileDo condition body line =>
      change condition.erased.uses ++ body.erased.uses = _
      rw [condition.uses_erased, Statement.uses_erased body, uses, List.map_append]
  | call ref args =>
      change (NameUse.call .procedure (Expr.erasedAll args).length, ref.erased) ::
        Expr.usesAll (Expr.erasedAll args) = _
      rw [Expr.usesAll_erased args, Expr.erasedAll_eq_map, List.length_map]
      rfl
  | empty => rfl

theorem Statement.usesAll_erased (statements : List Statement) :
    Statement.usesAll (Statement.erasedAll statements) =
      (Statement.usesAll statements).map Use.erased := by
  cases statements with
  | nil => rfl
  | cons statement others =>
      change statement.erased.uses ++ Statement.usesAll (Statement.erasedAll others) = _
      rw [statement.uses_erased, Statement.usesAll_erased others, Statement.usesAll,
        List.map_append]

end

theorem DeclKind.uses_erased (kind : DeclKind) : kind.erased.uses = kind.uses.map Use.erased := by
  cases kind with
  | constant value => exact value.uses_erased
  | type content => exact content.uses_erased
  | variableOf content => exact content.uses_erased
  | parameter | enumLiteral => rfl
  | routine heading =>
      obtain ⟨result, params, body⟩ := heading
      cases result <;> rfl

@[simp]
theorem DeclKind.params_erased (kind : DeclKind) : kind.erased.params = kind.params := by
  cases kind <;> rfl

/-! ### A traversal visits the uses -/

section Visiting

variable {σ : Type} (visit : NameUse → NameRef → StateM σ NameRef)

/-- Visits uses one after another. -/
def visitUses : List Use → StateM σ (List Use)
  | [] => return []
  | (use, ref) :: others => do
    let ref ← visit use ref
    return (use, ref) :: (← visitUses others)

/-- What a traversal of a piece of a program did: it visited the uses, gave back
a piece with the visited uses, and changed nothing but bindings. -/
structure Visited {α : Type} (uses : α → List Use) (erased : α → α) (before : α) (start : σ)
    (result : α × σ) : Prop where
  visits : (visitUses visit (uses before)).run start = (uses result.1, result.2)
  erased_eq : erased result.1 = erased before

variable {visit}

/-- Uses are visited from the first to the last. -/
theorem visitUses_append {first second first' second' : List Use} {start middle final : σ}
    (hfirst : (visitUses visit first).run start = (first', middle))
    (hsecond : (visitUses visit second).run middle = (second', final)) :
    (visitUses visit (first ++ second)).run start = (first' ++ second', final) := by
  induction first generalizing start first' with
  | nil =>
      obtain ⟨rfl, rfl⟩ := Prod.mk.inj hfirst
      exact hsecond
  | cons head others ih =>
      obtain ⟨rfl, rfl⟩ := Prod.mk.inj hfirst
      have tail := ih (Eq.refl ((visitUses visit others).run
        ((visit head.1 head.2).run start).2))
      exact congrArg (fun result : List Use × σ =>
        ((head.1, ((visit head.1 head.2).run start).1) :: result.1, result.2)) tail

theorem visitUses_cons {use : NameUse} {ref : NameRef} {others others' : List Use}
    {start final : σ}
    (hothers : (visitUses visit others).run ((visit use ref).run start).2 = (others', final)) :
    (visitUses visit ((use, ref) :: others)).run start =
      ((use, ((visit use ref).run start).1) :: others', final) :=
  congrArg (fun result : List Use × σ =>
    ((use, ((visit use ref).run start).1) :: result.1, result.2)) hothers

/-- Visiting a use changes its binding alone. -/
def KeepsUses (visit : NameUse → NameRef → StateM σ NameRef) : Prop :=
  ∀ use ref start, ((visit use ref).run start).1.erased = ref.erased

theorem Constant.visited_traverse (keeps : KeepsUses visit) (value : Constant) (start : σ) :
    Visited visit Constant.uses Constant.erased value start ((value.traverse visit).run start) := by
  cases value with
  | literal => exact ⟨rfl, rfl⟩
  | named ref => exact ⟨rfl, congrArg Constant.named (keeps .constant ref start)⟩

theorem TypeExpr.visited_traverse (keeps : KeepsUses visit) {Lit : Type}
    (type : TypeExpr Lit) (start : σ) :
    Visited visit TypeExpr.uses TypeExpr.erased type start ((type.traverse visit).run start) := by
  induction type generalizing start with
  | named ref => exact ⟨rfl, congrArg TypeExpr.named (keeps .typeName ref start)⟩
  | array index element line ihIndex ihElement =>
      have first := ihIndex start
      have second := ihElement ((index.traverse visit).run start).2
      exact ⟨visitUses_append first.visits second.visits,
        congrArg₂ (TypeExpr.array · · line) first.erased_eq second.erased_eq⟩
  | enumeration => exact ⟨rfl, rfl⟩
  | range low high line =>
      have first := low.visited_traverse keeps start
      have second := high.visited_traverse keeps ((low.traverse visit).run start).2
      exact ⟨visitUses_append first.visits second.visits,
        congrArg₂ (TypeExpr.range · · line) first.erased_eq second.erased_eq⟩
  | builtin => exact ⟨rfl, rfl⟩

mutual

theorem Expr.visited_traverse (keeps : KeepsUses visit) (expr : Expr) (start : σ) :
    Visited visit Expr.uses Expr.erased expr start ((expr.traverse visit).run start) := by
  cases expr with
  | literal => exact ⟨rfl, rfl⟩
  | name ref => exact ⟨rfl, congrArg Expr.name (keeps .value ref start)⟩
  | element ref index =>
      have inner := index.visited_traverse keeps ((visit .value ref).run start).2
      exact ⟨visitUses_cons inner.visits,
        congrArg₂ Expr.element (keeps .value ref start) inner.erased_eq⟩
  | call ref args =>
      have inner := Expr.visited_traverseAll keeps args
        ((visit (.call .function args.length) ref).run start).2
      refine ⟨(visitUses_cons inner.1.visits).trans ?_,
        congrArg₂ Expr.call (keeps _ ref start) inner.1.erased_eq⟩
      exact congrArg (fun count => ((NameUse.call .function count, _) :: _, _)) inner.2.symm
  | group inner line =>
      have within := inner.visited_traverse keeps start
      exact ⟨within.visits, congrArg (Expr.group · line) within.erased_eq⟩
  | negation operand line =>
      have within := operand.visited_traverse keeps start
      exact ⟨within.visits, congrArg (Expr.negation · line) within.erased_eq⟩
  | signed sign operand line =>
      have within := operand.visited_traverse keeps start
      exact ⟨within.visits, congrArg (Expr.signed sign · line) within.erased_eq⟩
  | binary op left right =>
      have first := left.visited_traverse keeps start
      have second := right.visited_traverse keeps ((left.traverse visit).run start).2
      exact ⟨visitUses_append first.visits second.visits,
        congrArg₂ (Expr.binary op) first.erased_eq second.erased_eq⟩
  | comparison relation left right =>
      have first := left.visited_traverse keeps start
      have second := right.visited_traverse keeps ((left.traverse visit).run start).2
      exact ⟨visitUses_append first.visits second.visits,
        congrArg₂ (Expr.comparison relation) first.erased_eq second.erased_eq⟩

/-- The number of arguments is part of how a call uses its name, so it has to stay. -/
theorem Expr.visited_traverseAll (keeps : KeepsUses visit) (exprs : List Expr) (start : σ) :
    Visited visit Expr.usesAll Expr.erasedAll exprs start
      ((Expr.traverseAll visit exprs).run start) ∧
    ((Expr.traverseAll visit exprs).run start).1.length = exprs.length := by
  cases exprs with
  | nil => exact ⟨⟨rfl, rfl⟩, rfl⟩
  | cons expr others =>
      have first := expr.visited_traverse keeps start
      have second := Expr.visited_traverseAll keeps others ((expr.traverse visit).run start).2
      exact ⟨⟨visitUses_append first.visits second.1.visits,
        congrArg₂ List.cons first.erased_eq second.1.erased_eq⟩,
        congrArg Nat.succ second.2⟩

end

mutual

theorem Statement.visited_traverse (keeps : KeepsUses visit) (statement : Statement) (start : σ) :
    Visited visit Statement.uses Statement.erased statement start
      ((statement.traverse visit).run start) := by
  cases statement with
  | assign target index value =>
      cases index with
      | none =>
          have last := value.visited_traverse keeps ((visit .target target).run start).2
          exact ⟨visitUses_cons last.visits,
            congrArg₂ (Statement.assign · none) (keeps .target target start) last.erased_eq⟩
      | some index =>
          have first := index.visited_traverse keeps ((visit .target target).run start).2
          have last := value.visited_traverse keeps
            ((index.traverse visit).run ((visit .target target).run start).2).2
          exact ⟨visitUses_cons (visitUses_append first.visits last.visits),
            congrArg₂ (fun name (operands : Expr × Expr) =>
              Statement.assign name (some operands.1) operands.2)
              (keeps .target target start)
              (congrArg₂ Prod.mk first.erased_eq last.erased_eq)⟩
  | compound body line =>
      have within := Statement.visited_traverseAll keeps body start
      exact ⟨within.visits, congrArg (Statement.compound · line) within.erased_eq⟩
  | ifThen condition consequence line =>
      have first := condition.visited_traverse keeps start
      have second := consequence.visited_traverse keeps ((condition.traverse visit).run start).2
      exact ⟨visitUses_append first.visits second.visits,
        congrArg₂ (Statement.ifThen · · line) first.erased_eq second.erased_eq⟩
  | ifElse condition consequence alternative line =>
      have first := condition.visited_traverse keeps start
      have second := consequence.visited_traverse keeps ((condition.traverse visit).run start).2
      have third := alternative.visited_traverse keeps
        ((consequence.traverse visit).run ((condition.traverse visit).run start).2).2
      exact ⟨visitUses_append (visitUses_append first.visits second.visits) third.visits,
        congrArg₂ (fun test (branches : Statement × Statement) =>
          Statement.ifElse test branches.1 branches.2 line)
          first.erased_eq (congrArg₂ Prod.mk second.erased_eq third.erased_eq)⟩
  | whileDo condition body line =>
      have first := condition.visited_traverse keeps start
      have second := body.visited_traverse keeps ((condition.traverse visit).run start).2
      exact ⟨visitUses_append first.visits second.visits,
        congrArg₂ (Statement.whileDo · · line) first.erased_eq second.erased_eq⟩
  | call ref args =>
      have inner := Expr.visited_traverseAll keeps args
        ((visit (.call .procedure args.length) ref).run start).2
      refine ⟨(visitUses_cons inner.1.visits).trans ?_,
        congrArg₂ Statement.call (keeps _ ref start) inner.1.erased_eq⟩
      exact congrArg (fun count => ((NameUse.call .procedure count, _) :: _, _)) inner.2.symm
  | empty => exact ⟨rfl, rfl⟩

theorem Statement.visited_traverseAll (keeps : KeepsUses visit) (statements : List Statement)
    (start : σ) :
    Visited visit Statement.usesAll Statement.erasedAll statements start
      ((Statement.traverseAll visit statements).run start) := by
  cases statements with
  | nil => exact ⟨rfl, rfl⟩
  | cons statement others =>
      have first := statement.visited_traverse keeps start
      have second := Statement.visited_traverseAll keeps others
        ((statement.traverse visit).run start).2
      exact ⟨visitUses_append first.visits second.visits,
        congrArg₂ List.cons first.erased_eq second.erased_eq⟩

end

end Visiting

end MiniPascal
