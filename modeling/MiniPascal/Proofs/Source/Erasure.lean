import MiniPascal.Proofs.Source.Semantics
import MiniPascal.Proofs.Tree.Erasure

/-!
# Meaning does not depend on bindings

The bindings that a check leaves in a piece of a program change neither the value of
an expression, nor what a statement does, nor the room that either needs.
-/

namespace MiniPascal.Source

open MiniPascal.Machine

variable {names : Names} {store final : Store}

/-! ### Expressions -/

theorem value_erased (names : Names) (store : Store) (expr : Expr) :
    value names store expr.erased = value names store expr := by
  induction expr using Expr.rec
    (motive_2 := fun _ => True) with
  | literal | name | call => rfl
  | element ref index ih =>
      change value names store (.element ref.erased index.erased) = _
      rw [value, value, ih]
      rfl
  | group inner line ih => exact ih
  | negation operand line ih =>
      change value names store (.negation operand.erased line) = _
      rw [value, value, ih]
  | signed sign operand line ih =>
      change value names store (.signed sign operand.erased line) = _
      cases sign with
      | plus => rw [value, value, ih]
      | minus => rw [value, value, ih]
  | binary op left right ihLeft ihRight =>
      change value names store (.binary op left.erased right.erased) = _
      rw [value, value, ihLeft, ihRight]
  | comparison relation left right ihLeft ihRight =>
      change value names store (.comparison relation left.erased right.erased) = _
      rw [value, value, ihLeft, ihRight]
  | nil => trivial
  | cons => trivial

theorem exprDepth_erased (expr : Expr) : exprDepth expr.erased = exprDepth expr := by
  induction expr using Expr.rec
    (motive_2 := fun _ => True) with
  | literal | name | call => rfl
  | element ref index ih => exact ih
  | group inner line ih => exact ih
  | negation operand line ih => exact ih
  | signed sign operand line ih => exact ih
  | binary op left right ihLeft ihRight =>
      change exprDepth (.binary op left.erased right.erased) = _
      rw [exprDepth, exprDepth, ihLeft, ihRight]
  | comparison relation left right ihLeft ihRight =>
      change exprDepth (.comparison relation left.erased right.erased) = _
      rw [exprDepth, exprDepth, ihLeft, ihRight]
  | nil => trivial
  | cons => trivial

theorem bareLiteral?_erased (names : Names) (expr : Expr) :
    bareLiteral? names expr.erased = bareLiteral? names expr := by
  cases expr <;> rfl

theorem event?_erased (names : Names) (store : Store) (arg : Expr) :
    event? names store arg.erased = event? names store arg := by
  rw [event?, event?, bareLiteral?_erased, value_erased]

theorem events?_erased (names : Names) (store : Store) (args : List Expr) :
    (Expr.erasedAll args).mapM (event? names store) = args.mapM (event? names store) := by
  rw [Expr.erasedAll_eq_map, List.mapM_map]
  exact congrArg args.mapM (funext (event?_erased names store))

theorem argsDepth_erased (args : List Expr) : argsDepth (Expr.erasedAll args) = argsDepth args := by
  rw [argsDepth, argsDepth, Expr.erasedAll_eq_map, List.map_map]
  exact congrArg (List.foldr max 1) (List.map_congr_left fun arg _ => exprDepth_erased arg)

/-! ### Statements -/

mutual

theorem statementDepth_erased (statement : Statement) :
    statementDepth statement.erased = statementDepth statement := by
  cases statement with
  | assign target index source =>
      cases index with
      | none => exact exprDepth_erased source
      | some index =>
          change statementDepth (.assign target.erased (some index.erased) source.erased) = _
          rw [statementDepth, statementDepth, exprDepth_erased, exprDepth_erased]
  | compound body line => exact statementsDepth_erased body
  | ifThen condition consequence line =>
      change statementDepth (.ifThen condition.erased consequence.erased line) = _
      rw [statementDepth, statementDepth, exprDepth_erased, statementDepth_erased consequence]
  | ifElse condition consequence alternative line =>
      change statementDepth
        (.ifElse condition.erased consequence.erased alternative.erased line) = _
      rw [statementDepth, statementDepth, exprDepth_erased, statementDepth_erased consequence,
        statementDepth_erased alternative]
  | whileDo condition body line =>
      change statementDepth (.whileDo condition.erased body.erased line) = _
      rw [statementDepth, statementDepth, exprDepth_erased, statementDepth_erased body]
  | call ref args => exact argsDepth_erased args
  | empty line => rfl

theorem statementsDepth_erased (body : List Statement) :
    statementsDepth (Statement.erasedAll body) = statementsDepth body := by
  cases body with
  | nil => rfl
  | cons first others =>
      change statementsDepth (first.erased :: Statement.erasedAll others) = _
      rw [statementsDepth, statementsDepth, statementDepth_erased first,
        statementsDepth_erased others]

end

namespace Exec

variable {statement : Statement} {events : List Event}

theorem erased (h : Exec names store statement events final) :
    Exec names store statement.erased events final := by
  induction h with
  | assign targeted valued indexed =>
      rw [Statement.erased_assign]
      rw [← value_erased] at valued
      apply @assign _ _ (NameRef.erased _) _ _ _ targeted valued
      intro inner hinner
      obtain ⟨source, hsource, rfl⟩ := Option.map_eq_some_iff.mp hinner
      rw [value_erased]
      exact indexed source hsource
  | @write store ref args events called written =>
      rw [← events?_erased] at written
      exact @write _ _ ref.erased _ _ called written
  | empty => exact empty
  | compoundNil => exact compoundNil
  | compoundCons _ _ ihFirst ihOthers => exact compoundCons ihFirst ihOthers
  | ifThen tested nonzero _ ih => exact ifThen ((value_erased ..).trans tested) nonzero ih
  | ifThenSkip tested => exact ifThenSkip ((value_erased ..).trans tested)
  | @ifElse _ final _ consequence alternative _ word events tested _ ih =>
      apply ifElse ((value_erased ..).trans tested)
      change Exec names _ (if word = 0 then alternative.erased else consequence.erased) events final
      rw [← apply_ite Statement.erased]
      exact ih
  | whileDone tested => exact whileDone ((value_erased ..).trans tested)
  | whileStep tested nonzero _ _ ihBody ihRest =>
      exact whileStep ((value_erased ..).trans tested) nonzero ihBody ihRest

/-- A statement without bindings has the form of the statement that it was. -/
theorem of_erased (h : Exec names store statement.erased events final) :
    Exec names store statement events final := by
  generalize herased : statement.erased = bare at h
  induction h generalizing statement with
  | assign targeted valued indexed =>
      obtain ⟨target, index, source, rfl, rfl, rfl, rfl⟩ := Statement.eq_assign_of_erased herased
      rw [value_erased] at valued
      apply @assign _ _ target _ _ _ targeted valued
      intro inner hinner
      rw [← value_erased]
      exact indexed _ (Option.mem_map_of_mem Expr.erased hinner)
  | write called written =>
      obtain ⟨ref, args, rfl, rfl, rfl⟩ := Statement.eq_call_of_erased herased
      rw [events?_erased] at written
      exact write called written
  | empty =>
      obtain rfl := Statement.eq_empty_of_erased herased
      exact empty
  | compoundNil =>
      obtain ⟨body, rfl, hbody⟩ := Statement.eq_compound_of_erased herased
      obtain rfl := Statement.eq_nil_of_erasedAll hbody
      exact compoundNil
  | compoundCons _ _ ihFirst ihOthers =>
      obtain ⟨body, rfl, hbody⟩ := Statement.eq_compound_of_erased herased
      obtain ⟨first, others, rfl, hfirst, rfl⟩ := Statement.eq_cons_of_erasedAll hbody
      exact compoundCons (ihFirst hfirst) (ihOthers rfl)
  | ifThen tested nonzero _ ih =>
      obtain ⟨condition, consequence, rfl, rfl, hbody⟩ := Statement.eq_ifThen_of_erased herased
      exact ifThen ((value_erased ..).symm.trans tested) nonzero (ih hbody)
  | ifThenSkip tested =>
      obtain ⟨condition, consequence, rfl, rfl, -⟩ := Statement.eq_ifThen_of_erased herased
      exact ifThenSkip ((value_erased ..).symm.trans tested)
  | ifElse tested _ ih =>
      obtain ⟨condition, consequence, alternative, rfl, rfl, rfl, rfl⟩ :=
        Statement.eq_ifElse_of_erased herased
      exact ifElse ((value_erased ..).symm.trans tested) (ih (apply_ite Statement.erased ..))
  | whileDone tested =>
      obtain ⟨condition, body, rfl, rfl, -⟩ := Statement.eq_whileDo_of_erased herased
      exact whileDone ((value_erased ..).symm.trans tested)
  | whileStep tested nonzero _ _ ihBody ihRest =>
      obtain ⟨condition, body, rfl, rfl, rfl⟩ := Statement.eq_whileDo_of_erased herased
      exact whileStep ((value_erased ..).symm.trans tested) nonzero (ihBody rfl) (ihRest rfl)

/-- Statements that differ in their bindings alone do the same. -/
theorem of_erased_eq {other : Statement} (h : Exec names store statement events final)
    (heq : other.erased = statement.erased) : Exec names store other events final :=
  of_erased (heq ▸ h.erased)

end Exec

end MiniPascal.Source
