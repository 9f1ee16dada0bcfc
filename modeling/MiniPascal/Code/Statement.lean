import MiniPascal.Code.Expr
import MiniPascal.Statement

/-!
# Code of statements

The code of a statement uses the stack only in passing.  Branches go to labels
that are drawn when the statement begins.
-/

namespace MiniPascal.Code

open MiniPascal.Assembly
open Emit

def branchIfZero (target : Label) : Emit Unit := do
  instruction (.compare (.immediate 0) .eax)
  instruction (.jumpIfEqual target)

mutual

def statement (env : Env) : Statement → Emit Unit
  | .assign target index value => do
    expr env value
    match index with
    | some index => do
      -- every variable is one word, so the index is computed for its calls alone
      instruction (.push .eax)
      expr env index
      instruction (.pop .eax)
    | none => pure ()
    let id ← ofExcept target.resolved
    store (← ofExcept (env.tree.declared id))
  | .compound body _ => statements env body
  | .ifThen condition consequence _ => do
    let done ← freshLabel
    expr env condition
    branchIfZero done
    statement env consequence
    label done
  | .ifElse condition consequence alternative _ => do
    let otherwise ← freshLabel
    let done ← freshLabel
    expr env condition
    branchIfZero otherwise
    statement env consequence
    instruction (.jump done)
    label otherwise
    statement env alternative
    label done
  | .whileDo condition body _ => do
    let top ← freshLabel
    let done ← freshLabel
    label top
    expr env condition
    branchIfZero done
    statement env body
    instruction (.jump top)
    label done
  | .call ref args => do
    let id ← ofExcept ref.resolved
    call env id args.length (pushAll env args) (writeAll env args)
  | .empty _ => return

def statements (env : Env) : List Statement → Emit Unit
  | [] => return
  | first :: others => do
    statement env first
    statements env others

end

end MiniPascal.Code
