import MiniPascal.Proofs.Assembly.Depth
import MiniPascal.Proofs.Code.Bodies

/-!
# The stack in code

The code of an expression leaves the stack as it found it, at any depth; arguments are
pushed one word each and taken off after the call.  The code of a statement begins and
ends with an empty stack, and its labels and branches stand where it is empty, so the
stack is balanced on every path through the code of a routine.
-/

namespace MiniPascal.Code

open MiniPascal.Assembly
open MiniPascal.Assembly.ListingLine (wordsTakenOff)
open Emit

/-- Lines that take the stack from one depth to another, branch to labels that some code
around them shows, and stay in the frame they run in. -/
structure Shifts (whole : List Line) (depth : Int) (lines : List Line) (depth' : Int) : Prop where
  moves : Moves depth (lines.map Line.listed) depth'
  branches : BranchesInto (whole.map Line.listed) (lines.map Line.listed)
  frameless : Frameless (lines.map Line.listed)

/-- The line neither branches nor is one to branch to, and keeps the stack and the frame. -/
structure Quiet (line : Line) : Prop where
  level : line.listed.isLevel = false
  growth : line.listed.growth = 0
  branch : line.listed.branch? = none
  frame : line.listed.framesStack = false

namespace Shifts

variable {whole front back lines : List Line} {line : Line} {depth depth' depth'' : Int}

theorem nil (h : 0 ≤ depth) : Shifts whole depth [] depth where
  moves := .nil h
  branches := .nil _
  frameless _ hline := absurd hline List.not_mem_nil

theorem append (first : Shifts whole depth front depth')
    (second : Shifts whole depth' back depth'') :
    Shifts whole depth (front ++ back) depth'' where
  moves := by
    rw [List.map_append]
    exact first.moves.append second.moves
  branches := by
    rw [List.map_append]
    exact first.branches.append second.branches
  frameless := by
    rw [List.map_append]
    exact List.forall_mem_append.mpr ⟨first.frameless, second.frameless⟩

/-- A line that may stand at any depth. -/
theorem cons_free (h : 0 ≤ depth) (hlevel : line.listed.isLevel = false)
    (hbranch : line.listed.branch? = none) (hframe : line.listed.framesStack = false)
    (rest : Shifts whole (depth + line.listed.growth) lines depth') :
    Shifts whole depth (line :: lines) depth' where
  moves := by
    apply Moves.cons h _ rest.moves
    rw [hlevel]
    exact fun hfalse => absurd hfalse Bool.false_ne_true
  branches := rest.branches.cons_of_none hbranch
  frameless := List.forall_mem_cons.mpr ⟨hframe, rest.frameless⟩

theorem cons_quiet (h : Quiet line) (rest : Shifts whole depth lines depth') :
    Shifts whole depth (line :: lines) depth' := by
  apply cons_free rest.moves.depth_nonneg h.level h.branch h.frame
  rw [h.growth, Int.add_zero]
  exact rest

theorem of_quiet (hdepth : 0 ≤ depth) (h : ∀ line ∈ lines, Quiet line) :
    Shifts whole depth lines depth := by
  induction lines with
  | nil => exact .nil hdepth
  | cons line lines ih =>
      obtain ⟨hline, hlines⟩ := List.forall_mem_cons.mp h
      exact .cons_quiet hline (ih hlines)

/-- A push before code that finds a word more on the stack. -/
theorem cons_push {source : Operand} {comment : String} (h : 0 ≤ depth)
    (rest : Shifts whole (depth + 1) lines depth') :
    Shifts whole depth (.instruction none (.push source) comment :: lines) depth' :=
  .cons_free h rfl rfl rfl rest

/-- A pop before code that finds a word less on the stack. -/
theorem cons_pop {target : Operand} {comment : String} (h : 0 ≤ depth)
    (rest : Shifts whole depth lines depth') :
    Shifts whole (depth + 1) (.instruction none (.pop target) comment :: lines) depth' := by
  apply cons_free (Int.add_nonneg h Int.one_nonneg) rfl rfl rfl
  change Shifts whole (depth + 1 + -1) lines depth'
  rw [Int.add_neg_cancel_right]
  exact rest

/-- A line where nothing is on the stack. -/
theorem cons_level (hgrowth : line.listed.growth = 0) (hbranch : line.listed.branch? = none)
    (hframe : line.listed.framesStack = false) (rest : Shifts whole 0 lines depth') :
    Shifts whole 0 (line :: lines) depth' where
  moves := by
    apply Moves.cons (Int.le_refl 0) fun _ => rfl
    rw [hgrowth, Int.add_zero]
    exact rest.moves
  branches := rest.branches.cons_of_none hbranch
  frameless := List.forall_mem_cons.mpr ⟨hframe, rest.frameless⟩

end Shifts

section Words

variable {whole lines : List Line} {depth depth' : Int}

/-- A written number reads back: as many words are taken off as it says. -/
theorem wordsTakenOff_text (words : Nat) :
    wordsTakenOff ((Operand.immediate (Frame.wordSize * words)).text ++ "," ++ Operand.esp.text) =
      words := by
  have hbytes : Frame.wordSize * (words : Int) = ((4 * words : Nat) : Int) := by
    rw [Int.natCast_mul]
    rfl
  have htext : ((Operand.immediate (Frame.wordSize * words)).text ++ "," ++
      Operand.esp.text).toList = '$' :: (Nat.toDigits 10 (4 * words) ++ ",%esp".toList) := by
    rw [hbytes]
    calc ("$" ++ toString (4 * words) ++ "," ++ "%esp").toList
        = "$".toList ++ ((toString (4 * words)).toList ++ (",".toList ++ "%esp".toList)) := by
          rw [String.toList_append, String.toList_append, String.toList_append, List.append_assoc,
            List.append_assoc]
      _ = '$' :: ((toString (4 * words)).toList ++ ",%esp".toList) := rfl
      _ = '$' :: (Nat.toDigits 10 (4 * words) ++ ",%esp".toList) := by
          rw [Nat.toString_eq_ofList_toDigits, String.toList_ofList]
  have hdigits : (Nat.toDigits 10 (4 * words) ++ ",%esp".toList).takeWhile Char.isDigit =
      Nat.toDigits 10 (4 * words) := by
    rw [List.takeWhile_append_of_pos fun digit hdigit =>
      Nat.isDigit_of_mem_toDigits (by decide) (by decide) hdigit]
    exact List.append_nil _
  rw [wordsTakenOff, htext]
  simp only [List.drop_succ_cons, List.drop_zero, hdigits, if_pos, List.cons_append,
    Nat.ofDigitChars_ten_toDigits]
  exact Nat.mul_div_cancel_left words (by decide)

/-- What is added to the stack pointer is taken off the stack. -/
theorem Shifts.cons_takeOff {words : Nat} {comment : String} (h : 0 ≤ depth)
    (rest : Shifts whole depth lines depth') :
    Shifts whole (depth + words) (.instruction none
      (.arith .add (.immediate (Frame.wordSize * words)) .esp) comment :: lines) depth' := by
  apply cons_free (Int.add_nonneg h (Int.natCast_nonneg words)) rfl rfl rfl
  have hgrowth : (Line.instruction none
      (.arith .add (.immediate (Frame.wordSize * words)) .esp) comment).listed.growth = -words := by
    change -((wordsTakenOff ((Operand.immediate (Frame.wordSize * words)).text ++ "," ++
      Operand.esp.text) : Nat) : Int) = _
    rw [wordsTakenOff_text]
  rw [hgrowth, Int.add_neg_cancel_right]
  exact rest

theorem quiet_operationLines (op : BinaryOp) : ∀ line ∈ operationLines op, Quiet line := by
  cases op with
  | add | subtract | or | multiply | and => exact List.forall_mem_singleton.mpr ⟨rfl, rfl, rfl, rfl⟩
  | divide =>
      exact List.forall_mem_cons.mpr
        ⟨⟨rfl, rfl, rfl, rfl⟩, List.forall_mem_singleton.mpr ⟨rfl, rfl, rfl, rfl⟩⟩
  | modulo =>
      exact List.forall_mem_cons.mpr ⟨⟨rfl, rfl, rfl, rfl⟩, List.forall_mem_cons.mpr
        ⟨⟨rfl, rfl, rfl, rfl⟩, List.forall_mem_singleton.mpr ⟨rfl, rfl, rfl, rfl⟩⟩⟩

/-- The arguments of a call are taken off after it. -/
theorem shifts_popLines (h : 0 ≤ depth) (args : Nat) :
    Shifts whole (depth + args) (popLines args) depth := by
  unfold popLines
  split
  · next hnone =>
      rw [hnone, Int.natCast_zero, Int.add_zero]
      exact .nil h
  · exact .cons_takeOff h (.nil h)

theorem shifts_writeLines (h : 0 ≤ depth) (function : Label) :
    Shifts whole depth (writeLines function) depth := by
  apply Shifts.cons_push h
  apply Shifts.cons_quiet ⟨rfl, rfl, rfl, rfl⟩
  exact @Shifts.cons_takeOff whole _ depth depth 1 _ h (.nil h)

theorem shifts_textLines (h : 0 ≤ depth) (text : String) (number : Nat) :
    Shifts whole depth (textLines text number) depth := by
  apply Shifts.of_quiet h
  intro line hline
  simp only [textLines, List.mem_cons, List.not_mem_nil, or_false] at hline
  rcases hline with rfl | rfl | rfl | rfl | rfl <;> exact ⟨rfl, rfl, rfl, rfl⟩

end Words

/-! ### Expressions -/

section Expressions

variable {env : Env} {counter final : Nat} {whole lines : List Line} {depth : Int}

theorem Calls.shifts {id : DeclId} {args : Nat} {pushed written : Emit Unit} (h : 0 ≤ depth)
    (calls : Calls env id args pushed written counter lines final)
    (hpushed : ∀ {counter lines final}, pushed.Emits counter lines final () →
      Shifts whole depth lines (depth + args))
    (hwritten : ∀ {counter lines final}, written.Emits counter lines final () →
      Shifts whole depth lines depth) : Shifts whole depth lines depth := by
  cases calls with
  | builtin _ _ _ hemits => exact hwritten hemits
  | routine _ _ _ _ hemits =>
      apply (hpushed hemits).append
      exact .cons_quiet ⟨rfl, rfl, rfl, rfl⟩ (shifts_popLines h args)

theorem shifts_pure (h : 0 ≤ depth) (hemits : Emits (pure ()) counter lines final ()) :
    Shifts whole depth lines depth := by
  obtain ⟨rfl, -, -⟩ := emits_pure_iff.mp hemits
  exact .nil h

theorem NameCode.shifts {ref : NameRef} {index : Emit Unit} (h : 0 ≤ depth)
    (code : NameCode env ref index counter lines final)
    (hindex : ∀ {counter lines final}, index.Emits counter lines final () →
      Shifts whole depth lines depth) : Shifts whole depth lines depth := by
  cases code with
  | word _ _ _ _ hemits =>
      apply (hindex hemits).append
      exact .cons_quiet ⟨rfl, rfl, rfl, rfl⟩ (.cons_quiet ⟨rfl, rfl, rfl, rfl⟩ (.nil h))
  | number => exact .cons_quiet ⟨rfl, rfl, rfl, rfl⟩ (.nil h)
  | function _ calls =>
      apply calls.shifts h _ (shifts_pure h)
      rw [Int.natCast_zero, Int.add_zero]
      exact shifts_pure h

mutual

/-- The code of an expression leaves the stack as it was. -/
theorem shifts_expr (expr : Expr) {counter final : Nat} {lines : List Line} {depth : Int}
    (hdepth : 0 ≤ depth) (h : (Code.expr env expr).Emits counter lines final ()) :
    Shifts whole depth lines depth := by
  have hnext : 0 ≤ depth + 1 := Int.add_nonneg hdepth Int.one_nonneg
  cases expr with
  | literal value line =>
      obtain ⟨rfl, -⟩ := emits_literal h
      exact .cons_quiet ⟨rfl, rfl, rfl, rfl⟩ (.nil hdepth)
  | name ref => exact (emits_name h).shifts hdepth (shifts_pure hdepth)
  | element ref index => exact (emits_element h).shifts hdepth (shifts_expr index hdepth)
  | call ref args =>
      obtain ⟨id, -, calls⟩ := emits_callExpr h
      exact calls.shifts hdepth (shifts_pushAll args hdepth) (shifts_writeAll args hdepth)
  | group inner line =>
      rw [Code.expr] at h
      exact shifts_expr inner hdepth h
  | negation operand line =>
      obtain ⟨front, hoperand, rfl⟩ := emits_negation h
      apply (shifts_expr operand hdepth hoperand).append
      exact .cons_quiet ⟨rfl, rfl, rfl, rfl⟩ (.nil hdepth)
  | signed sign operand line =>
      cases sign with
      | plus =>
          rw [Code.expr] at h
          exact shifts_expr operand hdepth h
      | minus =>
          obtain ⟨front, hoperand, rfl⟩ := emits_minus h
          exact (shifts_expr operand hdepth hoperand).append
            (.cons_quiet ⟨rfl, rfl, rfl, rfl⟩ (.nil hdepth))
  | binary op left right =>
      obtain ⟨first, middle, second, hleft, hright, rfl⟩ := emits_binary h
      apply (shifts_expr left hdepth hleft).append
      apply Shifts.cons_push hdepth
      apply (shifts_expr right hnext hright).append
      apply Shifts.cons_quiet ⟨rfl, rfl, rfl, rfl⟩
      exact .cons_pop hdepth (.of_quiet hdepth (quiet_operationLines op))
  | comparison relation left right =>
      obtain ⟨first, middle, second, hleft, hright, rfl⟩ := emits_comparison h
      apply (shifts_expr left hdepth hleft).append
      apply Shifts.cons_push hdepth
      apply (shifts_expr right hnext hright).append
      apply Shifts.cons_pop hdepth
      apply Shifts.cons_quiet ⟨rfl, rfl, rfl, rfl⟩
      apply Shifts.cons_quiet ⟨rfl, rfl, rfl, rfl⟩
      cases relation <;> exact .cons_quiet ⟨rfl, rfl, rfl, rfl⟩ (.nil hdepth)

/-- Arguments are pushed one word each. -/
theorem shifts_pushAll (args : List Expr) {counter final : Nat} {lines : List Line} {depth : Int}
    (hdepth : 0 ≤ depth) (h : (pushAll env args).Emits counter lines final ()) :
    Shifts whole depth lines (depth + args.length) := by
  cases args with
  | nil =>
      obtain ⟨rfl, -⟩ := emits_pushAll_nil h
      rw [List.length_nil, Int.natCast_zero, Int.add_zero]
      exact .nil hdepth
  | cons arg others =>
      obtain ⟨first, middle, second, hothers, harg, rfl⟩ := emits_pushAll_cons h
      have hpushed : 0 ≤ depth + others.length :=
        Int.add_nonneg hdepth (Int.natCast_nonneg _)
      rw [List.length_cons, Int.natCast_add, Int.natCast_one, ← Int.add_assoc]
      apply (shifts_pushAll others hdepth hothers).append
      apply (shifts_expr arg hpushed harg).append
      exact .cons_push hpushed (.nil (Int.add_nonneg hpushed Int.one_nonneg))

theorem shifts_writeAll (args : List Expr) {counter final : Nat} {lines : List Line} {depth : Int}
    (hdepth : 0 ≤ depth) (h : (writeAll env args).Emits counter lines final ()) :
    Shifts whole depth lines depth := by
  cases args with
  | nil =>
      obtain ⟨rfl, -⟩ := emits_writeAll_nil h
      exact .nil hdepth
  | cons arg others =>
      obtain ⟨first, middle, second, hwrite, hothers, rfl⟩ := emits_writeAll_cons h
      apply Shifts.append _ (shifts_writeAll others hdepth hothers)
      cases hwrite with
      | text => exact (shifts_textLines hdepth _ _).append (shifts_writeLines hdepth _)
      | char _ harg => exact (shifts_expr arg hdepth harg).append (shifts_writeLines hdepth _)
      | number _ _ harg => exact (shifts_expr arg hdepth harg).append (shifts_writeLines hdepth _)

end

end Expressions

/-! ### Statements -/

section Targets

variable {whole lines : List Line} {number : Nat} {depth' : Int}

/-- A branch, to a label that is shown, where nothing is on the stack. -/
theorem Shifts.cons_branch {line : Line}
    (hline : line.listed.branch? = some (Label.numbered number).text)
    (hframe : line.listed.framesStack = false) (hshown : Line.label (.numbered number) ∈ whole)
    (rest : Shifts whole 0 lines depth') : Shifts whole 0 (line :: lines) depth' where
  moves := by
    apply Moves.cons (Int.le_refl 0) fun _ => rfl
    rw [growth_of_branch hline, Int.add_zero]
    exact rest.moves
  branches := rest.branches.cons_of_some hline (isLocalText_numbered number)
    (List.mem_map_of_mem hshown)
  frameless := List.forall_mem_cons.mpr ⟨hframe, rest.frameless⟩

theorem shifts_branchLines (hshown : Line.label (.numbered number) ∈ whole) :
    Shifts whole 0 (branchLines (.numbered number)) 0 :=
  .cons_quiet ⟨rfl, rfl, rfl, rfl⟩ (.cons_branch rfl rfl hshown (.nil (Int.le_refl 0)))

end Targets

section Statements

variable {env : Env} {whole : List Line}

mutual

/-- The code of a statement begins and ends with an empty stack. -/
theorem shifts_statement (statement : Statement) {counter final : Nat} {lines : List Line}
    (h : (Code.statement env statement).Emits counter lines final ()) (hinside : lines ⊆ whole) :
    Shifts whole 0 lines 0 := by
  have hzero := Int.le_refl 0
  cases statement with
  | assign target index value =>
      obtain ⟨first, middle, second, id, decl, layout, hvalue, hindex, -, -, -, rfl⟩ :=
        emits_assign h
      apply (shifts_expr value hzero hvalue).append
      apply Shifts.append _ (.cons_quiet ⟨rfl, rfl, rfl, rfl⟩
        (.cons_quiet ⟨rfl, rfl, rfl, rfl⟩ (.nil hzero)))
      cases hindex with
      | none => exact .nil hzero
      | some hindex =>
          apply Shifts.cons_push hzero
          exact (shifts_expr _ (Int.add_nonneg hzero Int.one_nonneg) hindex).append
            (.cons_pop hzero (.nil hzero))
  | compound body line =>
      rw [Code.statement] at h
      exact shifts_statements body h hinside
  | ifThen condition consequence line =>
      obtain ⟨first, middle, second, hcondition, hconsequence, rfl⟩ := emits_ifThen h
      obtain ⟨-, -, hsecond, hdone, -⟩ := by
        simpa only [List.append_subset, List.cons_subset] using hinside
      apply (shifts_expr condition hzero hcondition).append
      apply (shifts_branchLines hdone).append
      apply (shifts_statement consequence hconsequence hsecond).append
      exact .cons_level rfl rfl rfl (.nil hzero)
  | ifElse condition consequence alternative line =>
      obtain ⟨first, middle, second, middle', third, hcondition, hconsequence, halternative, rfl⟩ :=
        emits_ifElse h
      obtain ⟨-, -, hsecond, -, hotherwise, hthird, hdone, -⟩ := by
        simpa only [List.append_subset, List.cons_subset] using hinside
      apply (shifts_expr condition hzero hcondition).append
      apply (shifts_branchLines hotherwise).append
      apply (shifts_statement consequence hconsequence hsecond).append
      apply Shifts.cons_branch rfl rfl hdone
      apply Shifts.cons_level rfl rfl rfl
      apply (shifts_statement alternative halternative hthird).append
      exact .cons_level rfl rfl rfl (.nil hzero)
  | whileDo condition body line =>
      obtain ⟨first, middle, second, hcondition, hbody, rfl⟩ := emits_whileDo h
      obtain ⟨htop, -, -, hsecond, -, hdone, -⟩ := by
        simpa only [List.append_subset, List.cons_subset] using hinside
      apply Shifts.cons_level rfl rfl rfl
      apply (shifts_expr condition hzero hcondition).append
      apply (shifts_branchLines hdone).append
      apply (shifts_statement body hbody hsecond).append
      apply Shifts.cons_branch rfl rfl htop
      exact .cons_level rfl rfl rfl (.nil hzero)
  | call ref args =>
      obtain ⟨id, -, calls⟩ := emits_callStatement h
      exact calls.shifts hzero (shifts_pushAll args hzero) (shifts_writeAll args hzero)
  | empty line =>
      obtain ⟨rfl, -⟩ := emits_empty h
      exact .nil hzero

theorem shifts_statements (body : List Statement) {counter final : Nat} {lines : List Line}
    (h : (statements env body).Emits counter lines final ()) (hinside : lines ⊆ whole) :
    Shifts whole 0 lines 0 := by
  cases body with
  | nil =>
      obtain ⟨rfl, -⟩ := emits_statements_nil h
      exact .nil (Int.le_refl 0)
  | cons first others =>
      obtain ⟨front, middle, back, rfl, hfirst, hothers⟩ := emits_statements_cons h
      obtain ⟨hfront, hback⟩ := List.append_subset.mp hinside
      exact (shifts_statement first hfirst hfront).append (shifts_statements others hothers hback)

end

/-! ### Routines -/

theorem quiet_resultLines (isFunction : Bool) : ∀ line ∈ resultLines isFunction, Quiet line := by
  cases isFunction with
  | true => exact List.forall_mem_singleton.mpr ⟨rfl, rfl, rfl, rfl⟩
  | false => exact fun _ hline => absurd hline List.not_mem_nil

/-- The code of a body with a frame of its own leaves nothing on the stack. -/
theorem balanced_framedBody {name : String} {isFunction : Bool} {label : Label} {body : Block}
    {counter final : Nat} {lines : List Line}
    (h : (framedBody env name isFunction label body).Emits counter lines final ()) :
    Balanced (lines.map Line.listed) := by
  have hzero := Int.le_refl 0
  obtain ⟨code, hcode, hlines⟩ := emits_framedBody h
  have hinside : code ⊆ lines := by
    rw [hlines]
    exact List.subset_cons_of_subset _ (List.subset_append_left _ _)
  have hstatements := shifts_statements body.statements hcode hinside
  have hresult : Shifts lines 0 (resultLines isFunction) 0 :=
    .of_quiet hzero (quiet_resultLines isFunction)
  apply Moves.balanced
  · rw [hlines, List.map_cons, List.map_append, List.map_append]
    apply Moves.cons hzero fun _ => rfl
    apply hstatements.moves.append
    apply hresult.moves.append
    exact .cons hzero (fun _ => rfl) (.cons hzero (fun _ => rfl) (.nil hzero))
  · nth_rewrite 2 [hlines]
    rw [List.map_cons, List.map_append, List.map_append]
    apply BranchesInto.cons_of_none rfl
    apply hstatements.branches.append
    apply hresult.branches.append
    exact .cons_of_none rfl (.cons_of_none rfl (.nil _))

theorem SharedResult.quiet {decl : Decl} {isFunction : Bool} {lines : List Line}
    (h : SharedResult decl isFunction lines) : ∀ line ∈ lines, Quiet line := by
  cases h with
  | procedure => exact fun _ hline => absurd hline List.not_mem_nil
  | function =>
      exact List.forall_mem_cons.mpr
        ⟨⟨rfl, rfl, rfl, rfl⟩, List.forall_mem_singleton.mpr ⟨rfl, rfl, rfl, rfl⟩⟩

/-- The code of a body without a frame of its own leaves nothing on the stack, though it
has no frame to take down. -/
theorem balanced_inlineBody {decl : Decl} {isFunction : Bool} {label : Label} {body : Block}
    {counter final : Nat} {lines : List Line}
    (h : (inlineBody env decl isFunction label body).Emits counter lines final ()) :
    Balanced (lines.map Line.listed) ∧ Frameless (lines.map Line.listed) := by
  have hzero := Int.le_refl 0
  obtain ⟨code, result, hcode, hresult, hlines⟩ := emits_inlineBody h
  have hinside : code ⊆ lines := by
    rw [hlines]
    exact List.subset_cons_of_subset _ (List.subset_append_left _ _)
  have hshifts : Shifts lines 0 lines 0 := by
    rw [hlines] at hinside ⊢
    apply Shifts.cons_level rfl rfl rfl
    apply (shifts_statements body.statements hcode hinside).append
    apply (Shifts.of_quiet hzero hresult.quiet).append
    exact .cons_level rfl rfl rfl (.nil hzero)
  exact ⟨hshifts.moves.balanced hshifts.branches, hshifts.frameless⟩

end Statements

end MiniPascal.Code
