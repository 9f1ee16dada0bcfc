import MiniPascal.Proofs.Compile.Bodies
import MiniPascal.Proofs.Compile.Total
import MiniPascal.Proofs.Frames.Accounted
import MiniPascal.Proofs.Oracle.Ends

/-!
# Code of expressions computes them

In a checked program the code of every expression computes what the expression means, when
the routines of the program are known by what an oracle says of them alone.
-/

namespace MiniPascal

open MiniPascal.Assembly
open MiniPascal.Code
open MiniPascal.Machine

/-! ### What is computed -/

/-- A word is left in `eax` and words for the variables.  The frame, the top of the stack,
the display and whatever else is at or above the top of the stack are kept. -/
structure Evaluated {vars : Variables} (before : Machine) (value : Word) (words : vars.Words)
    (after : Machine) : Prop where
  eax : after.eax = value
  words : vars.words after.memory = words
  ebp : after.ebp = before.ebp
  esp : after.esp = before.esp
  display : ∀ level, vars.Displayed before level →
    after.memory.word (after.displayAddress level) =
      before.memory.word (before.displayAddress level)
  memory : ∀ byte, before.esp.toNat ≤ byte → ¬vars.Holds byte →
    after.memory byte = before.memory byte

theorem Leaves.evaluated {vars : Variables} {before after : Machine} {words : vars.Words}
    (h : Leaves before [] words after) : Evaluated before after.eax words after where
  eax := rfl
  words := h.words
  ebp := h.ebp
  esp := BitVec.eq_of_toNat_eq h.esp
  display _ displayed := h.word_display displayed
  memory := h.memory

/-- Lines compute an expression of a block, whatever the oracle and wherever the words of
variables are, as long as the display leads to them and the stack below them has room.  If
the expression has no value, then the lines are not run to their end. -/
def Evaluates (tree : Tree) (labels : RoutineLabels) (block : BlockId) (expr : Expr)
    (lines : List Line) : Prop :=
  ∀ (vars : Variables) (oracle : Oracle vars) (number : DeclId → Int) (machine : Machine),
    tree.Numbers number → vars.Cover tree block → vars.Reached tree machine →
    4 * expr.stackWords ≤ machine.esp.toNat →
      (∀ value words, evaluate? tree number oracle expr (vars.words machine.memory) =
          some (value, words) →
        Ensures tree labels oracle lines machine (Evaluated machine value words)) ∧
      (evaluate? tree number oracle expr (vars.words machine.memory) = none →
        ¬Ensures tree labels oracle lines machine fun _ => True)

/-! ### Expressions of a program -/

namespace CheckedProgram

variable {outline : Outline} {skeleton : Skeleton} {tree : Tree} {block : BlockId} {expr : Expr}

/-- The names of an expression are bound in the block where it stands. -/
theorem bound_of_hasExpr (program : CheckedProgram outline skeleton tree)
    (hexpr : tree.HasExpr block expr) :
    ∀ use ∈ expr.uses, tree.Bound (tree.lookup block) block use := by
  obtain ⟨body, hbody, outer, houter, hpart⟩ := hexpr
  intro use huse
  have hstatements : use ∈ Statement.usesAll body.statements :=
    Statement.uses_subset_of_mem_exprsAll body.statements houter
      (Expr.uses_subset_of_mem_parts outer hpart huse)
  obtain ⟨id, hid, hname⟩ := program.decl?_eq_lookup hbody hstatements
  obtain ⟨id', decl, hid', hdecl, hallows⟩ := program.exists_allows hbody hstatements
  obtain rfl := Option.some.inj (hid.symm.trans hid')
  exact ⟨id, decl, hid, hname, hdecl, NameUse.objection?_eq_none_iff.mpr hallows⟩

/-- Functions are the program's own: those of the library do not have a result. -/
theorem isBuiltin_eq_false (program : CheckedProgram outline skeleton tree) {id : DeclId}
    {decl : Decl} {heading : Routine} (hdecl : tree.decls[id]? = some decl)
    (hkind : decl.kind = .routine heading) (hfunction : heading.isFunction = true) :
    heading.isBuiltin = false := by
  obtain ⟨decl', hdecl', hsettled⟩ :=
    program.settled (Array.getElem?_eq_some_iff.mp hdecl).1
  obtain rfl := Option.some.inj (hdecl.symm.trans hdecl')
  rw [hkind] at hsettled
  obtain ⟨layout, hlayout⟩ := hsettled hfunction
  have hstored := program.isSome_layout? hdecl
  rw [hlayout, hkind, DeclKind.isStored, hfunction, Bool.true_and] at hstored
  exact Bool.not_eq_eq_eq_not.mp hstored.symm

end CheckedProgram

namespace Code.ProgramBodies

variable {outline : Outline} {skeleton : Skeleton} {tree : Tree}
variable {name : String} {counter middle final : Nat} {lines main : List Line}
variable {labels known : RoutineLabels} {codes : List (List Line)} {body : Block}

/-- The label of a routine leads to the routine. -/
theorem routineOf?_eq (h : ProgramBodies tree skeleton.codeOrder name counter lines labels codes
      main body middle final) (program : CheckedProgram outline skeleton tree)
    (hshown : ((shown lines).map Label.text).Nodup) {id : DeclId} {label : Label}
    (hlabel : labels.lookup id = some label) : labels.routineOf? label = some id := by
  apply RoutineLabels.routineOf?_eq (mem_of_lookup hlabel)
  have htexts := h.nodup_text hshown
  rw [List.map_append] at htexts
  have hperm := (h.draws.labels_perm program.nodup_codeOrder).map Label.text
  have hnodup := hperm.nodup_iff.mp (List.nodup_append'.mp htexts).1
  rw [List.map_map] at hnodup
  exact hnodup

/-- Where labels are known that the routines keep, code fits the program. -/
theorem fits (h : ProgramBodies tree skeleton.codeOrder name counter lines labels codes main body
      middle final) (program : CheckedProgram outline skeleton tree)
    (hshown : ((shown lines).map Label.text).Nodup) (within : known.Within labels)
    {vars : Variables} {number : DeclId → Int} {block : BlockId} (numbers : tree.Numbers number)
    (visible : vars.Cover tree block) :
    Env.Fits { tree, labels := known } labels vars number block where
  settled _ hid := program.settled hid
  numbers := numbers
  builtin _ _ _ := program.isBuiltin_eq_false
  named id label hlabel := h.routineOf?_eq program hshown (within id label hlabel)
  visible := visible

/-- With the labels of all routines, code can be written for what is checked. -/
theorem serves (h : ProgramBodies tree skeleton.codeOrder name counter lines labels codes main body
      middle final) (program : CheckedProgram outline skeleton tree)
    (names : String → Option DeclId) : Env.Serves { tree, labels } names where
  settled _ hid := program.settled hid
  labelled _ id _ decl heading hdecl hkind hbuiltin := by
    have hbody : (tree.bodyOf? id).isSome = true := by
      rw [Tree.bodyOf?, hdecl, Option.bind_some, hkind]
      rw [Routine.isBuiltin, Option.isNone_eq_false_iff] at hbuiltin
      exact hbuiltin
    obtain ⟨code, -, _, _, _, _, _, _, found⟩ :=
      exists_of_forall₂_left h.routines (program.mem_codeOrder_iff.mpr hbody)
    exact ⟨_, found.within id _ found.labelled⟩

end Code.ProgramBodies

/-- **The code of expressions computes them, calls included.**  When tokens parse and check to
a tree, its listing is generated, and the routines have labels in it.  With these labels
there is code for every expression that stands in a block of the program and has an index
on variables and parameters only; and whatever labels are known where the expression is
written, its code computes the expression. -/
theorem checkTokens_evaluates {tokens : List Located} {context middle : Context} {tree : Tree}
    (accepted : (Compilation.checkTokens tokens).run context = .ok tree middle)
    (context' : Context) :
    ∃ listing final labels, (Compilation.generate tree).run context' = .ok listing final ∧
      listing.IsCodeOf tree (context'.title?.getD tree.name) context'.labels final.labels labels ∧
      ∀ block expr, tree.HasExpr block expr → (∀ ref ∈ expr.indexed, tree.isWord ref = true) →
        (∀ counter, ∃ lines counter',
          (Code.expr { tree, labels } expr).Emits counter lines counter' ()) ∧
        ∀ known counter lines counter', RoutineLabels.Within known labels →
          (Code.expr { tree, labels := known } expr).Emits counter lines counter' () →
          Evaluates tree labels block expr lines := by
  obtain ⟨outline, skeleton, -, -, program⟩ := Compilation.exists_checkedProgram accepted
  obtain ⟨listing, final, hgenerate⟩ := program.exists_listing context'
  obtain ⟨lines, labels, codes, main, body, between, hlisting, hbodies, hshown⟩ :=
    program.exists_bodies hgenerate
  refine ⟨listing, final, labels, hgenerate,
    ⟨_, lines, codes, main, body, between, hlisting, hbodies⟩, ?_⟩
  intro block expr hexpr hindexed
  have hbound := program.bound_of_hasExpr hexpr
  constructor
  · intro counter
    obtain ⟨lines, counter', done, hemits, -⟩ :=
      (hbodies.serves program (tree.lookup block)).succeeds_expr expr hbound counter
    exact ⟨lines, counter', hemits⟩
  · intro known counter lines counter' hwithin hemits vars oracle number machine hnumbers hvisible
      hreached hroom
    have fits : Env.Fits { tree, labels := known } labels vars number block :=
      hbodies.fits program hshown hwithin hnumbers hvisible
    constructor
    · intro value words hvalue
      have hyields := yields_expr fits expr hemits hbound hindexed hvalue hreached hroom
      apply hyields.mono
      rintro after ⟨rfl, hleaves⟩
      exact hleaves.evaluated
    · intro hnone ends
      obtain ⟨value, words, hvalue⟩ :=
        exists_value fits expr hemits hbound hindexed hreached hroom ends
      cases hnone.symm.trans hvalue

/-- The source of a program with a call of a function, which changes a variable of the
expression that calls it. -/
def callInside : String :=
  "program p; const c = 3; var x: integer; function f(a: integer): integer;
    begin x := a; f := a + 1 end; begin x := x + f(x + 2) * c end."

def oneVariable : Variables where
  ids := [1]
  address _ := 8156
  apart _ hid _ hother hne :=
    absurd ((List.mem_singleton.mp hid).trans (List.mem_singleton.mp hother).symm) hne

/-- The function stores its argument and returns the next number. -/
def storesArgument : Oracle oneVariable := fun _ args _ =>
  (args.headD 0 + 1, fun _ => args.headD 0)

/-- A state in which the variable is 5, and the display holds the frame pointer. -/
def beforeExpression : Machine where
  eax := 0
  ecx := 0
  edx := 0
  ebp := 8192
  esp := 4096
  memory byte := if byte = 8156 then 5 else if byte = 8189 then 32 else 0
  compared? := none
  trace := []

/-- The variable is read before the call changes it. -/
theorem checkTokens_evaluates_callInside :
    ∃ tokens tree middle listing final labels expr lines counter,
      Compilation.scan callInside = .ok tokens ∧
      (Compilation.checkTokens tokens).run (.fresh false false) = .ok tree middle ∧
      (Compilation.generate tree).run middle = .ok listing final ∧
      listing.IsCodeOf tree (middle.title?.getD tree.name) middle.labels final.labels labels ∧
      tree.HasExpr tree.body expr ∧
      (Code.expr { tree, labels } expr).Emits 0 lines counter () ∧
      oneVariable.Reached tree beforeExpression ∧
      Ensures tree labels storesArgument lines beforeExpression fun after =>
        after.eax = 29 ∧ after.memory.word 8156 = 7 ∧ after.esp = 4096 := by
  have hchecks : Compilation.checksWith (fun tree =>
      decide (∀ outer ∈ tree.chain tree.body, ∀ entry ∈ tree.tableAt outer,
        (tree.decls[entry.2]?).any (·.kind.isWord) = true → entry.2 ∈ oneVariable.ids) &&
      decide (tree.decls[1]?.bind Decl.layout? = some ⟨1, -36⟩) &&
      (tree.blocks[tree.body]?).any fun body => (Statement.exprsAll body.statements).any fun expr =>
        expr.indexed.isEmpty && decide (4 * expr.stackWords ≤ 4096) &&
        (evaluate? tree tree.numberOf storesArgument expr
          (oneVariable.words beforeExpression.memory)).any fun result =>
            decide (result.1 = 29 ∧ result.2 ⟨1, List.mem_singleton_self 1⟩ = 7))
      callInside = true := by
    decide +kernel
  obtain ⟨tokens, tree, middle, hscan, htokens, htree⟩ := Compilation.exists_of_checksWith hchecks
  rw [Bool.and_eq_true, Bool.and_eq_true, decide_eq_true_eq, decide_eq_true_eq, Option.any_eq_true]
    at htree
  obtain ⟨⟨htables, hlayout⟩, body, hbody, hexprs⟩ := htree
  obtain ⟨expr, hexpr, htest⟩ := List.any_eq_true.mp hexprs
  rw [Bool.and_eq_true, Bool.and_eq_true, decide_eq_true_eq, Option.any_eq_true] at htest
  obtain ⟨⟨hindexed, hroom⟩, ⟨value, words⟩, hvalue, hresult⟩ := htest
  obtain ⟨rfl, hword⟩ := of_decide_eq_true hresult
  obtain ⟨decl, hdecl, hlaidOut⟩ := Option.bind_eq_some_iff.mp hlayout
  have hreached : oneVariable.Reached tree beforeExpression := by
    constructor
    · intro id _
      change 4096 ≤ 8156
      decide
    · intro id hid
      obtain rfl := List.mem_singleton.mp hid
      refine ⟨decl, ⟨1, -36⟩, hdecl, hlaidOut, ⟨by decide, ?_⟩, by decide⟩
      rintro byte hlow - ⟨id, -, -, hhigh⟩
      change 8188 ≤ byte at hlow
      change byte < 8160 at hhigh
      omega
  have hhasExpr : tree.HasExpr tree.body expr := ⟨body, hbody, expr, hexpr, expr.mem_parts⟩
  obtain ⟨listing, final, labels, hgenerate, hcode, hall⟩ := checkTokens_evaluates htokens middle
  obtain ⟨hemits, hcomputes⟩ := hall tree.body expr hhasExpr (by
    rw [List.isEmpty_iff.mp hindexed]
    exact fun ref href => absurd href List.not_mem_nil)
  obtain ⟨lines, counter, hlines⟩ := hemits 0
  have hcompute := hcomputes labels 0 lines counter (.refl labels) hlines oneVariable storesArgument
    tree.numberOf beforeExpression tree.numbers_numberOf (Variables.cover_of_tables htables)
    hreached hroom
  refine ⟨tokens, tree, middle, listing, final, labels, expr, lines, counter, hscan, htokens,
    hgenerate, hcode, hhasExpr, hlines, hreached, ?_⟩
  apply (hcompute.1 29 words hvalue).mono
  rintro after ⟨heax, hwords, -, hesp, -, -⟩
  refine ⟨heax, ?_, hesp⟩
  rw [← hword, ← hwords]
  rfl

end MiniPascal
