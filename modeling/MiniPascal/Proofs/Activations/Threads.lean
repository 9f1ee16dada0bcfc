import MiniPascal.Proofs.Activations.Account
import MiniPascal.Proofs.Code.Labels
import MiniPascal.Proofs.Frames.Slots

/-!
# What code has put on the stack

Along the code of a block it is known which words are on the stack, by the lines that
pushed them.  An expression leaves the stack as it found it; a call is passed its arguments
and takes them off again; a store goes to a slot of a frame of a block around, whose
pointer was loaded from the display just before.
-/

namespace MiniPascal.Code

open MiniPascal.Assembly
open Emit

/-! ### Lines that leave the stack alone -/

/-- The operand is a register that has nothing to do with the stack. -/
def isFree : Operand → Bool
  | .register .ebp | .register .esp | .memory .. | .immediate _ => false
  | .register _ => true

/-- The line changes neither the stack nor any memory, and goes on to the next one. -/
def isSilent : Line → Bool
  | .instruction _ (.move _ target) _ | .instruction _ (.arith _ _ target) _
  | .instruction _ (.negate target) _ | .instruction _ (.loadAddress _ target) _ => isFree target
  | .instruction _ .signExtend _ | .instruction _ (.divide _) _ | .instruction _ (.compare ..) _
  | .instruction _ (.storeCondition ..) _ => true
  | .directive _ | .datum .. => true
  | .label _ | .instruction .. => false

/-! ### Spots -/

/-- A place in the code of a block. -/
inductive Spot
  /-- The block was just called; a frame of its own is made next. -/
  | begun
  /-- The frame of the block's own is taken down already. -/
  | ended
  /-- Words are on the stack, pushed on these lines, the latest first; the first few were
  the arguments of a call that has returned. -/
  | inside (pushes : List Nat) (stale : Nat)
  /-- A frame pointer of a level was just loaded from the display. -/
  | loaded (pushes : List Nat) (level : Nat)

/-- The place where the code of a block begins. -/
def Spot.first (tree : Tree) (block : BlockId) : Spot :=
  if tree.isFramed block then .begun else .inside [] 0

def Spot.last (tree : Tree) (block : BlockId) : Spot :=
  if tree.isFramed block then .ended else .inside [] 0

/-- What code is written in: the loaded listing, the program, the codes of its blocks, the
block whose code it is part of, and all of that code. -/
structure Threading where
  image : Image
  tree : Tree
  codes : List PlacedCode
  block : BlockId
  whole : List Line

/-- A line of code on a line of the listing leads from one spot to the next one. -/
inductive Threading.Rule (within : Threading) (index : Nat) : Line → Spot → Spot → Prop
  | silent {line : Line} {pushes : List Nat} (hsilent : isSilent line = true) :
      within.Rule index line (.inside pushes 0) (.inside pushes 0)
  | display {pushes : List Nat} {level : Nat} {comment : String} :
      within.Rule index
        (.instruction none (.move (.memory (Frame.displayOffset level) .ebp) .edx) comment)
        (.inside pushes 0) (.loaded pushes level)
  | fetch {pushes : List Nat} {level : Nat} {line : Line} (hsilent : isSilent line = true) :
      within.Rule index line (.loaded pushes level) (.inside pushes 0)
  | store {pushes : List Nat} {layout : Layout} {comment : String}
      (hstores : within.tree.StoresTo within.block layout) :
      within.Rule index (.instruction none (.move .eax layout.slot) comment)
        (.loaded pushes layout.frameLevel) (.inside pushes 0)
  | push {pushes : List Nat} {comment : String} :
      within.Rule index (.instruction none (.push .eax) comment)
        (.inside pushes 0) (.inside (index :: pushes) 0)
  | pop {pushes : List Nat} {first : Nat} {target : Operand} {comment : String}
      (hfree : isFree target = true) :
      within.Rule index (.instruction none (.pop target) comment)
        (.inside (first :: pushes) 0) (.inside pushes 0)
  | takeOff {pushes pushes' : List Nat} {stale : Nat} {comment : String}
      (hstale : stale ≤ pushes.length) :
      within.Rule index (.instruction none
          (.arith .add (.immediate (Frame.wordSize * pushes.length)) .esp) comment)
        (.inside (pushes ++ pushes') stale) (.inside pushes' 0)
  | label {label : Label} : within.Rule index (.label label) (.inside [] 0) (.inside [] 0)
  | branch {target : Label} {instruction : Instruction} {comment : String}
      (hbranch : instruction = .jump target ∨ instruction = .jumpIfEqual target)
      (hshown : .label target ∈ within.whole) :
      within.Rule index (.instruction none instruction comment) (.inside [] 0) (.inside [] 0)
  | runtime {function : Label} {pushes : List Nat} {comment : String}
      (htarget : within.image.target? function = none) :
      within.Rule index (.instruction none (.call function) comment)
        (.inside pushes 0) (.inside pushes 0)
  | call {label : Label} {args : List Expr} {lines pushes : List Nat} {callee : PlacedCode}
      {comment : String} (hcallee : callee ∈ within.codes)
      (htarget : within.image.target? label = some callee.start)
      (hsees : within.tree.Sees within.block callee.block)
      (hcalls : within.image.CallsBody within.tree within.codes within.block callee.block args
        lines index) :
      within.Rule index (.instruction none (.call label) comment)
        (.inside (lines ++ pushes) 0) (.inside (lines ++ pushes) lines.length)
  | enter {label? : Option Label} {frame : Block} {comment : String}
      (hframe : within.tree.blocks[within.block]? = some frame)
      (hframed : within.tree.isFramed within.block = true) :
      within.Rule index (.instruction label?
          (.enter (Frame.size frame.frameBytes) frame.frameLevel) comment)
        .begun (.inside [] 0)
  | leave {comment : String} (hframed : within.tree.isFramed within.block = true) :
      within.Rule index (.instruction none .leave comment) (.inside [] 0) .ended

/-- Lines that lead from one spot to another, one after another. -/
inductive Threading.Threads (within : Threading) : Nat → Spot → List Line → Spot → Prop
  | nil {index : Nat} {spot : Spot} : within.Threads index spot [] spot
  | cons {index : Nat} {spot spot' spot'' : Spot} {line : Line} {lines : List Line}
      (rule : within.Rule index line spot spot')
      (rest : within.Threads (index + 1) spot' lines spot'') :
      within.Threads index spot (line :: lines) spot''

namespace Threading.Threads

variable {within : Threading} {index : Nat} {spot spot' spot'' : Spot}
variable {line : Line} {lines front back : List Line}

theorem append (first : within.Threads index spot front spot')
    (second : within.Threads (index + front.length) spot' back spot'') :
    within.Threads index spot (front ++ back) spot'' := by
  induction first with
  | nil => exact second
  | cons rule _ ih =>
      apply cons rule
      apply ih
      rw [List.length_cons, ← Nat.add_assoc, Nat.add_right_comm] at second
      exact second

theorem single (rule : within.Rule index line spot spot') :
    within.Threads index spot [line] spot' :=
  .cons rule .nil

/-- Code falls into two parts at a spot. -/
theorem exists_of_append (h : within.Threads index spot (front ++ back) spot'') :
    ∃ spot', within.Threads index spot front spot' ∧
      within.Threads (index + front.length) spot' back spot'' := by
  induction front generalizing index spot with
  | nil => exact ⟨spot, .nil, h⟩
  | cons line front ih =>
      cases h with
      | cons rule rest =>
          obtain ⟨spot', hfront, hback⟩ := ih rest
          refine ⟨spot', .cons rule hfront, ?_⟩
          rw [List.length_cons, ← Nat.add_assoc, Nat.add_right_comm]
          exact hback

/-- Silent lines keep what is on the stack. -/
theorem of_silent {pushes : List Nat} (h : ∀ line ∈ lines, isSilent line = true) :
    within.Threads index (.inside pushes 0) lines (.inside pushes 0) := by
  induction lines generalizing index with
  | nil => exact .nil
  | cons line lines ih =>
      obtain ⟨hline, hlines⟩ := List.forall_mem_cons.mp h
      exact .cons (.silent hline) (ih hlines)

end Threading.Threads

/-! ### Pieces of code -/

section Pieces

variable {within : Threading} {index : Nat} {pushes : List Nat}

theorem isSilent_operationLines (op : BinaryOp) :
    ∀ line ∈ operationLines op, isSilent line = true := by
  cases op with
  | add | subtract | or | multiply | and => exact List.forall_mem_singleton.mpr rfl
  | divide => exact List.forall_mem_cons.mpr ⟨rfl, List.forall_mem_singleton.mpr rfl⟩
  | modulo =>
      exact List.forall_mem_cons.mpr ⟨rfl, List.forall_mem_cons.mpr
        ⟨rfl, List.forall_mem_singleton.mpr rfl⟩⟩

theorem isSilent_textLines (text : String) (number : Nat) :
    ∀ line ∈ textLines text number, isSilent line = true := by
  intro line hline
  simp only [textLines, List.mem_cons, List.not_mem_nil, or_false] at hline
  rcases hline with rfl | rfl | rfl | rfl | rfl <;> rfl

/-- A word is loaded through the display. -/
theorem threads_load (layout : Layout) {comment comment' : String} :
    within.Threads index (.inside pushes 0)
      [.instruction none (.move layout.base .edx) comment,
        .instruction none (.move layout.slot .eax) comment'] (.inside pushes 0) :=
  .cons .display (.single (.fetch rfl))

/-- A word is stored through the display. -/
theorem threads_store {layout : Layout} (h : within.tree.StoresTo within.block layout)
    {comment comment' : String} :
    within.Threads index (.inside pushes 0)
      [.instruction none (.move layout.base .edx) comment,
        .instruction none (.move .eax layout.slot) comment'] (.inside pushes 0) :=
  .cons .display (.single (.store h))

/-- A word is given to a run-time function and taken off again. -/
theorem threads_writeLines {function : Label} (h : within.image.target? function = none) :
    within.Threads index (.inside pushes 0) (writeLines function) (.inside pushes 0) := by
  apply Threading.Threads.cons .push
  apply Threading.Threads.cons (.runtime h)
  exact .single (@Threading.Rule.takeOff within _ [index] pushes 0 _ (Nat.zero_le _))

/-- The arguments of a call are taken off after it. -/
theorem threads_popLines (lines : List Nat) :
    within.Threads index (.inside (lines ++ pushes) lines.length) (popLines lines.length)
      (.inside pushes 0) := by
  unfold popLines
  split
  · next hnone =>
      obtain rfl := List.length_eq_zero_iff.mp hnone
      exact .nil
  · exact .single (.takeOff (Nat.le_refl _))

end Pieces

/-! ### Expressions -/

/-- The uses of names in a piece of the block's statements serve the block, and the calls
in it are calls of the block. -/
structure Threading.Has (within : Threading) (uses : List Use) (calls : List Call) : Prop where
  serves : ∀ use ∈ uses, within.tree.Serves within.block use
  calls : ∀ call ∈ calls, within.tree.HasCall within.block call

theorem Threading.has_append {within : Threading} {uses uses' : List Use}
    {calls calls' : List Call} :
    within.Has (uses ++ uses') (calls ++ calls') ↔
      within.Has uses calls ∧ within.Has uses' calls' := by
  constructor
  · rintro ⟨hserves, hcalls⟩
    rw [List.forall_mem_append] at hserves hcalls
    exact ⟨⟨hserves.1, hcalls.1⟩, hserves.2, hcalls.2⟩
  · rintro ⟨first, second⟩
    exact ⟨List.forall_mem_append.mpr ⟨first.serves, second.serves⟩,
      List.forall_mem_append.mpr ⟨first.calls, second.calls⟩⟩

theorem Threading.Has.of_cons {within : Threading} {use : Use} {uses : List Use} {call : Call}
    {calls : List Call} (h : within.Has (use :: uses) (call :: calls)) :
    within.tree.Serves within.block use ∧ within.tree.HasCall within.block call ∧
      within.Has uses calls := by
  obtain ⟨hserves, hcalls⟩ := h
  rw [List.forall_mem_cons] at hserves hcalls
  exact ⟨hserves.1, hcalls.1, hserves.2, hcalls.2⟩

theorem Threading.Has.of_target {within : Threading} {use : Use} {uses : List Use}
    {calls : List Call} (h : within.Has (use :: uses) calls) :
    within.tree.Serves within.block use ∧ within.Has uses calls := by
  obtain ⟨hserves, hcalls⟩ := h
  rw [List.forall_mem_cons] at hserves
  exact ⟨hserves.1, hserves.2, hcalls⟩

/-- What the code that is written in an environment relies on: its labels lead to the codes
of the blocks, and those of the run-time functions to none. -/
structure Threading.Resolves (within : Threading) (env : Env) : Prop where
  tree_eq : env.tree = within.tree
  runtime : ∀ function ∈ runtimeFunctions, within.image.target? function = none
  leads : within.image.Leads within.codes env

section Expressions

variable {within : Threading} {env : Env} {counter final index : Nat} {lines : List Line}
variable {pushes : List Nat}

theorem Calls.threads (resolves : within.Resolves env) {id : DeclId} {ref : NameRef}
    {args : List Expr} {pushed written : Emit Unit}
    (calls : Calls env id args.length pushed written counter lines final)
    (placed : within.image.Placed index lines) (hid : ref.decl? = some id)
    (has : within.tree.HasCall within.block (ref, args))
    (hcall : ∀ body, within.tree.bodyOf? id = some body →
      within.tree.Sees within.block body ∧ (within.tree.paramsOf body).length = args.length)
    (hpushed : ∀ {counter lines final}, pushed.Emits counter lines final () →
      within.image.Placed index lines →
        ∃ news, within.Threads index (.inside pushes 0) lines (.inside (news ++ pushes) 0) ∧
          within.image.PushesAll env index args news (index + lines.length))
    (hwritten : ∀ {counter lines final}, written.Emits counter lines final () →
      within.image.Placed index lines →
        within.Threads index (.inside pushes 0) lines (.inside pushes 0)) :
    within.Threads index (.inside pushes 0) lines (.inside pushes 0) := by
  cases calls with
  | builtin _ _ _ hemits => exact hwritten hemits placed
  | @routine decl heading label _ _ front hdecl hkind hbuiltin hlabel hemits =>
      obtain ⟨placedFront, placedCall⟩ := Image.placed_append.mp placed
      obtain ⟨news, hfront, hnews⟩ := hpushed hemits placedFront
      have hcount := hnews.length_eq
      obtain ⟨body, hbody⟩ := Option.ne_none_iff_exists'.mp
        (show heading.body ≠ none from fun hnone => by
          rw [Routine.isBuiltin, hnone] at hbuiltin
          cases hbuiltin)
      have hbodyOf : env.tree.bodyOf? id = some body := by
        rw [Tree.bodyOf?, hdecl, Option.bind_some, hkind, DeclKind.routine?, Option.bind_some,
          hbody]
      obtain ⟨callee, hcallee, rfl, htarget⟩ := resolves.leads id label body hlabel hbodyOf
      rw [resolves.tree_eq] at hbodyOf
      obtain ⟨hsees, hparams⟩ := hcall callee.block hbodyOf
      apply hfront.append
      have hcalls : within.image.CallsBody within.tree within.codes within.block callee.block
          args news (index + front.length) :=
        ⟨⟨env, ref, id, index, label, "", resolves.tree_eq, resolves.leads, has, hid, hbodyOf,
          hlabel, hnews, placedCall.head⟩, hparams.symm⟩
      apply Threading.Threads.cons (.call hcallee htarget hsees hcalls)
      rw [← hcount]
      exact threads_popLines news

theorem threads_pure (hemits : Emits (pure ()) counter lines final ()) :
    within.Threads index (.inside pushes 0) lines (.inside pushes 0) := by
  obtain ⟨rfl, -, -⟩ := emits_pure_iff.mp hemits
  exact .nil

/-- A name is a word, a number, or a call of a function without arguments. -/
theorem NameCode.threads (resolves : within.Resolves env) {ref : NameRef} {code : Emit Unit}
    (name : NameCode env ref code counter lines final)
    (placed : within.image.Placed index lines)
    (hserves : within.tree.Serves within.block (.value, ref))
    (hcall : within.tree.HasCall within.block (ref, []))
    (hcode : ∀ {counter lines final}, code.Emits counter lines final () →
      within.image.Placed index lines →
        within.Threads index (.inside pushes 0) lines (.inside pushes 0)) :
    within.Threads index (.inside pushes 0) lines (.inside pushes 0) := by
  cases name with
  | word _ _ _ _ hemits =>
      apply (hcode hemits (Image.placed_append.mp placed).1).append
      exact threads_load _
  | number => exact .of_silent (List.forall_mem_singleton.mpr rfl)
  | @function id _ _ _ hid calls =>
      have calls : Calls env id ([] : List Expr).length (pure ()) (pure ()) counter lines final :=
        calls
      apply calls.threads resolves placed hid hcall
        (fun body hbody => hserves.call 0 rfl id body hid hbody)
      · intro counter lines final hemits _
        obtain ⟨rfl, -, -⟩ := emits_pure_iff.mp hemits
        exact ⟨[], .nil, .nil⟩
      · exact fun hemits _ => threads_pure hemits

/-- The code of an expression leaves the stack as it was. -/
def ThreadsExpr (within : Threading) (env : Env) (expr : Expr) : Prop :=
  ∀ ⦃counter final index : Nat⦄ ⦃lines : List Line⦄ ⦃pushes : List Nat⦄,
    (Code.expr env expr).Emits counter lines final () → within.image.Placed index lines →
    within.Has expr.uses expr.calls →
    within.Threads index (.inside pushes 0) lines (.inside pushes 0)

/-- The left operand waits on the stack until the code after the right one takes it off. -/
theorem threads_operands {left right : Expr} (hleft : ThreadsExpr within env left)
    (hright : ThreadsExpr within env right) {middle : Nat} {first second rest : List Line}
    (hfirst : (Code.expr env left).Emits counter first middle ())
    (hsecond : (Code.expr env right).Emits middle second final ())
    (placed : within.image.Placed index
      (first ++ .instruction none (.push .eax) "" :: (second ++ rest)))
    (has : within.Has (left.uses ++ right.uses) (left.calls ++ right.calls))
    (hrest : ∀ {index pushed : Nat},
      within.Threads index (.inside (pushed :: pushes) 0) rest (.inside pushes 0)) :
    within.Threads index (.inside pushes 0)
      (first ++ .instruction none (.push .eax) "" :: (second ++ rest)) (.inside pushes 0) := by
  obtain ⟨hasLeft, hasRight⟩ := Threading.has_append.mp has
  obtain ⟨placedLeft, placedPush⟩ := Image.placed_append.mp placed
  have placedRight := (Image.placed_append.mp placedPush.tail).1
  apply (hleft hfirst placedLeft hasLeft).append
  apply Threading.Threads.cons .push
  exact (hright hsecond placedRight hasRight).append hrest

theorem threadsExpr_binary {op : BinaryOp} {left right : Expr}
    (hleft : ThreadsExpr within env left) (hright : ThreadsExpr within env right) :
    ThreadsExpr within env (.binary op left right) := by
  intro counter final index lines pushes h placed has
  obtain ⟨first, middle, second, hfirst, hsecond, rfl⟩ := emits_binary h
  apply threads_operands hleft hright hfirst hsecond placed has
  intro index pushed
  apply Threading.Threads.cons (.silent rfl)
  exact .cons (.pop rfl) (.of_silent (isSilent_operationLines op))

theorem threadsExpr_comparison {relation : Relation} {left right : Expr}
    (hleft : ThreadsExpr within env left) (hright : ThreadsExpr within env right) :
    ThreadsExpr within env (.comparison relation left right) := by
  intro counter final index lines pushes h placed has
  obtain ⟨first, middle, second, hfirst, hsecond, rfl⟩ := emits_comparison h
  apply threads_operands hleft hright hfirst hsecond placed has
  intro index pushed
  apply Threading.Threads.cons (.pop rfl)
  exact .cons (.silent rfl) (.cons (.silent rfl) (.single (.silent rfl)))

mutual

theorem threads_expr (resolves : within.Resolves env) (expr : Expr) :
    ThreadsExpr within env expr := by
  intro counter final index lines pushes h placed has
  cases expr with
  | literal value line =>
      obtain ⟨rfl, -⟩ := emits_literal h
      exact .of_silent (List.forall_mem_singleton.mpr rfl)
  | name ref =>
      obtain ⟨hserves, hcall, -⟩ := has.of_cons
      exact (emits_name h).threads resolves placed hserves hcall fun hemits _ =>
        threads_pure hemits
  | element ref inner =>
      obtain ⟨hserves, hcall, has⟩ := has.of_cons
      exact (emits_element h).threads resolves placed hserves hcall fun hemits placed =>
        threads_expr resolves inner hemits placed has
  | call ref args =>
      obtain ⟨hserves, hcall, has⟩ := has.of_cons
      obtain ⟨id, hid, calls⟩ := emits_callExpr h
      exact calls.threads resolves placed hid hcall
        (fun body hbody => hserves.call _ rfl id body hid hbody)
        (fun hemits placed => threads_pushAll resolves args hemits placed has)
        (fun hemits placed => threads_writeAll resolves args hemits placed has)
  | group inner line =>
      rw [Code.expr] at h
      exact threads_expr resolves inner h placed has
  | negation operand line =>
      obtain ⟨front, hoperand, rfl⟩ := emits_negation h
      have placedOperand := (Image.placed_append.mp placed).1
      exact (threads_expr resolves operand hoperand placedOperand has).append
        (.of_silent (List.forall_mem_singleton.mpr rfl))
  | signed sign operand line =>
      cases sign with
      | plus =>
          rw [Code.expr] at h
          exact threads_expr resolves operand h placed has
      | minus =>
          obtain ⟨front, hoperand, rfl⟩ := emits_minus h
          have placedOperand := (Image.placed_append.mp placed).1
          exact (threads_expr resolves operand hoperand placedOperand has).append
            (.of_silent (List.forall_mem_singleton.mpr rfl))
  | binary op left right =>
      exact threadsExpr_binary (threads_expr resolves left) (threads_expr resolves right) h placed
        has
  | comparison relation left right =>
      exact threadsExpr_comparison (threads_expr resolves left) (threads_expr resolves right) h
        placed has

/-- Arguments are pushed from the last to the first. -/
theorem threads_pushAll (resolves : within.Resolves env) (args : List Expr)
    {counter final index : Nat} {lines : List Line} {pushes : List Nat}
    (h : (pushAll env args).Emits counter lines final ())
    (placed : within.image.Placed index lines)
    (has : within.Has (Expr.usesAll args) (Expr.callsAll args)) :
    ∃ news, within.Threads index (.inside pushes 0) lines (.inside (news ++ pushes) 0) ∧
      within.image.PushesAll env index args news (index + lines.length) := by
  cases args with
  | nil =>
      obtain ⟨rfl, -⟩ := emits_pushAll_nil h
      exact ⟨[], .nil, .nil⟩
  | cons arg others =>
      obtain ⟨hasArg, hasOthers⟩ := Threading.has_append.mp has
      obtain ⟨first, middle, second, hothers, harg, rfl⟩ := emits_pushAll_cons h
      obtain ⟨placedOthers, placedArg⟩ := Image.placed_append.mp placed
      obtain ⟨news, hthreads, hpushes⟩ :=
        @threads_pushAll resolves others _ _ index _ pushes hothers placedOthers hasOthers
      refine ⟨(index + first.length + second.length) :: news, ?_, ?_⟩
      · apply hthreads.append
        apply (threads_expr resolves arg harg (Image.placed_append.mp placedArg).1
          hasArg).append
        exact .single .push
      · have hpushed := hpushes.cons harg placedArg
        rw [List.length_append, List.length_append, List.length_singleton, ← Nat.add_assoc,
          ← Nat.add_assoc]
        exact hpushed

theorem threads_writeAll (resolves : within.Resolves env) (args : List Expr)
    {counter final index : Nat} {lines : List Line} {pushes : List Nat}
    (h : (writeAll env args).Emits counter lines final ())
    (placed : within.image.Placed index lines)
    (has : within.Has (Expr.usesAll args) (Expr.callsAll args)) :
    within.Threads index (.inside pushes 0) lines (.inside pushes 0) := by
  cases args with
  | nil =>
      obtain ⟨rfl, -⟩ := emits_writeAll_nil h
      exact .nil
  | cons arg others =>
      obtain ⟨hasArg, hasOthers⟩ := Threading.has_append.mp has
      obtain ⟨first, middle, second, hwrite, hothers, rfl⟩ := emits_writeAll_cons h
      obtain ⟨placedFirst, placedOthers⟩ := Image.placed_append.mp placed
      apply Threading.Threads.append _
        (threads_writeAll resolves others hothers placedOthers hasOthers)
      have hruntime : ∀ function ∈ runtimeFunctions, ∀ {index : Nat},
          within.Threads index (.inside pushes 0) (writeLines function) (.inside pushes 0) :=
        fun function hfunction => threads_writeLines (resolves.runtime function hfunction)
      cases hwrite with
      | text =>
          exact (Threading.Threads.of_silent (isSilent_textLines _ _)).append
            (hruntime _ (by decide))
      | char _ harg =>
          have placedArg := (Image.placed_append.mp placedFirst).1
          exact (threads_expr resolves arg harg placedArg hasArg).append
            (hruntime _ (by decide))
      | number _ _ harg =>
          have placedArg := (Image.placed_append.mp placedFirst).1
          exact (threads_expr resolves arg harg placedArg hasArg).append
            (hruntime _ (by decide))

end

end Expressions

/-! ### Statements -/

section Statements

variable {within : Threading} {env : Env}

theorem threads_branchLines {index number : Nat}
    (hshown : .label (.numbered number) ∈ within.whole) :
    within.Threads index (.inside [] 0) (branchLines (.numbered number)) (.inside [] 0) :=
  .cons (.silent rfl) (.single (.branch (.inr rfl) hshown))

/-- The code of a statement begins and ends with nothing on the stack. -/
def ThreadsStatement (within : Threading) (env : Env) (statement : Statement) : Prop :=
  ∀ ⦃counter final index : Nat⦄ ⦃lines : List Line⦄,
    (Code.statement env statement).Emits counter lines final () →
    within.image.Placed index lines → lines ⊆ within.whole →
    within.Has statement.uses statement.calls →
    within.Threads index (.inside [] 0) lines (.inside [] 0)

theorem threadsStatement_assign (resolves : within.Resolves env) (target : NameRef)
    (inner : Option Expr) (value : Expr) :
    ThreadsStatement within env (.assign target inner value) := by
  intro counter final index lines h placed _ has
  obtain ⟨htarget, has⟩ := has.of_target
  obtain ⟨hasInner, hasValue⟩ := Threading.has_append.mp has
  obtain ⟨first, middle, second, id, decl, layout, hvalue, hindex, hid, hdecl, hlayout, rfl⟩ :=
    emits_assign h
  obtain ⟨placedValue, placedRest⟩ := Image.placed_append.mp placed
  have hstores : within.tree.StoresTo within.block layout := by
    apply htarget.target rfl id layout hid
    rw [← resolves.tree_eq, Tree.layout?, hdecl, Option.bind_some, hlayout]
  apply (threads_expr resolves value hvalue placedValue hasValue).append
  apply Threading.Threads.append _ (threads_store hstores)
  cases hindex with
  | none => exact .nil
  | some hindex =>
      have placedIndex := (Image.placed_append.mp (Image.placed_append.mp placedRest).1.tail).1
      apply Threading.Threads.cons .push
      exact (threads_expr resolves _ hindex placedIndex hasInner).append (.single (.pop rfl))

theorem threadsStatement_ifThen (resolves : within.Resolves env) (condition : Expr)
    {consequence : Statement} {line : Nat}
    (hconsequence : ThreadsStatement within env consequence) :
    ThreadsStatement within env (.ifThen condition consequence line) := by
  intro counter final index lines h placed hinside has
  obtain ⟨hasCondition, hasConsequence⟩ := Threading.has_append.mp has
  obtain ⟨first, middle, second, hcondition, hemits, rfl⟩ := emits_ifThen h
  obtain ⟨-, -, hsecond, hdone, -⟩ := by
    simpa only [List.append_subset, List.cons_subset] using hinside
  obtain ⟨placedFirst, placedRest⟩ := Image.placed_append.mp placed
  have placedSecond := (Image.placed_append.mp (Image.placed_append.mp placedRest).2).1
  apply (threads_expr resolves condition hcondition placedFirst hasCondition).append
  apply (threads_branchLines hdone).append
  exact (hconsequence hemits placedSecond hsecond hasConsequence).append (.single .label)

theorem threadsStatement_ifElse (resolves : within.Resolves env) (condition : Expr)
    {consequence alternative : Statement} {line : Nat}
    (hconsequence : ThreadsStatement within env consequence)
    (halternative : ThreadsStatement within env alternative) :
    ThreadsStatement within env (.ifElse condition consequence alternative line) := by
  intro counter final index lines h placed hinside has
  obtain ⟨has, hasAlternative⟩ := Threading.has_append.mp has
  obtain ⟨hasCondition, hasConsequence⟩ := Threading.has_append.mp has
  obtain ⟨first, middle, second, middle', third, hcondition, hemits, hemits', rfl⟩ :=
    emits_ifElse h
  obtain ⟨-, -, hsecond, -, hotherwise, hthird, hdone, -⟩ := by
    simpa only [List.append_subset, List.cons_subset] using hinside
  obtain ⟨placedFirst, placedRest⟩ := Image.placed_append.mp placed
  obtain ⟨placedSecond, placedJump⟩ :=
    Image.placed_append.mp (Image.placed_append.mp placedRest).2
  have placedThird := (Image.placed_append.mp placedJump.tail.tail).1
  apply (threads_expr resolves condition hcondition placedFirst hasCondition).append
  apply (threads_branchLines hotherwise).append
  apply (hconsequence hemits placedSecond hsecond hasConsequence).append
  apply Threading.Threads.cons (.branch (.inl rfl) hdone)
  apply Threading.Threads.cons .label
  exact (halternative hemits' placedThird hthird hasAlternative).append (.single .label)

theorem threadsStatement_whileDo (resolves : within.Resolves env) (condition : Expr)
    {body : Statement} {line : Nat} (hbody : ThreadsStatement within env body) :
    ThreadsStatement within env (.whileDo condition body line) := by
  intro counter final index lines h placed hinside has
  obtain ⟨hasCondition, hasBody⟩ := Threading.has_append.mp has
  obtain ⟨first, middle, second, hcondition, hemits, rfl⟩ := emits_whileDo h
  obtain ⟨htop, -, -, hsecond, -, hdone, -⟩ := by
    simpa only [List.append_subset, List.cons_subset] using hinside
  obtain ⟨placedFirst, placedRest⟩ := Image.placed_append.mp placed.tail
  have placedSecond := (Image.placed_append.mp (Image.placed_append.mp placedRest).2).1
  apply Threading.Threads.cons .label
  apply (threads_expr resolves condition hcondition placedFirst hasCondition).append
  apply (threads_branchLines hdone).append
  apply (hbody hemits placedSecond hsecond hasBody).append
  exact .cons (.branch (.inl rfl) htop) (.single .label)

mutual

theorem threads_statement (resolves : within.Resolves env) (statement : Statement) :
    ThreadsStatement within env statement := by
  cases statement with
  | assign target inner value => exact threadsStatement_assign resolves target inner value
  | compound body line =>
      intro counter final index lines h placed hinside has
      rw [Code.statement] at h
      exact threads_statements resolves body h placed hinside has
  | ifThen condition consequence line =>
      exact threadsStatement_ifThen resolves condition (threads_statement resolves consequence)
  | ifElse condition consequence alternative line =>
      exact threadsStatement_ifElse resolves condition (threads_statement resolves consequence)
        (threads_statement resolves alternative)
  | whileDo condition body line =>
      exact threadsStatement_whileDo resolves condition (threads_statement resolves body)
  | call ref args =>
      intro counter final index lines h placed _ has
      obtain ⟨hserves, hcall, has⟩ := has.of_cons
      obtain ⟨id, hid, calls⟩ := emits_callStatement h
      exact calls.threads resolves placed hid hcall
        (fun body hbody => hserves.call _ rfl id body hid hbody)
        (fun hemits placed => threads_pushAll resolves args hemits placed has)
        (fun hemits placed => threads_writeAll resolves args hemits placed has)
  | empty line =>
      intro counter final index lines h _ _ _
      obtain ⟨rfl, -⟩ := emits_empty h
      exact .nil

theorem threads_statements (resolves : within.Resolves env) (body : List Statement)
    {counter final index : Nat} {lines : List Line}
    (h : (statements env body).Emits counter lines final ())
    (placed : within.image.Placed index lines) (hinside : lines ⊆ within.whole)
    (has : within.Has (Statement.usesAll body) (Statement.callsAll body)) :
    within.Threads index (.inside [] 0) lines (.inside [] 0) := by
  cases body with
  | nil =>
      obtain ⟨rfl, -⟩ := emits_statements_nil h
      exact .nil
  | cons first others =>
      obtain ⟨hasFirst, hasOthers⟩ := Threading.has_append.mp has
      obtain ⟨front, middle, back, rfl, hfirst, hothers⟩ := emits_statements_cons h
      obtain ⟨hfront, hback⟩ := List.append_subset.mp hinside
      obtain ⟨placedFirst, placedOthers⟩ := Image.placed_append.mp placed
      exact (threads_statement resolves first hfirst placedFirst hfront hasFirst).append
        (threads_statements resolves others hothers placedOthers hback hasOthers)

end

end Statements

/-! ### Bodies -/

section Bodies

variable {within : Threading} {env : Env} {counter final index : Nat} {lines : List Line}
variable {label : Label} {body : Block} {name : String} {isFunction : Bool}

/-- Code is that of the whole block, up to its return. -/
def Threading.Whole (within : Threading) (index : Nat) : Prop :=
  ∃ lines comment, within.whole = lines ++ [.instruction none .ret comment] ∧
    within.Threads index (.first within.tree within.block) lines
      (.last within.tree within.block)

/-- A body with a frame of its own makes it at the beginning and takes it down at the end. -/
theorem whole_framedBody (resolves : within.Resolves env)
    (hbody : within.tree.blocks[within.block]? = some body)
    (hframed : within.tree.isFramed within.block = true)
    (h : (framedBody env name isFunction label body).Emits counter within.whole final ())
    (placed : within.image.Placed index within.whole)
    (has : within.Has (Statement.usesAll body.statements) (Statement.callsAll body.statements)) :
    within.Whole index := by
  obtain ⟨code, hcode, hwhole⟩ := emits_framedBody h
  have hinside : code ⊆ within.whole := by
    rw [hwhole]
    exact List.subset_cons_of_subset _ (List.subset_append_left _ _)
  rw [hwhole] at placed
  have placedCode := (Image.placed_append.mp placed.tail).1
  have hresult : ∀ line ∈ resultLines isFunction, isSilent line = true := by
    cases isFunction with
    | true => exact List.forall_mem_singleton.mpr rfl
    | false => exact fun _ hline => absurd hline List.not_mem_nil
  refine ⟨.instruction (some label) (.enter (Frame.size body.frameBytes) body.frameLevel)
    ("Start of " ++ name) :: (code ++ (resultLines isFunction ++ [.instruction none .leave ""])),
    "End of " ++ name, ?_, ?_⟩
  · rw [hwhole, List.cons_append, List.append_assoc, List.append_assoc]
    rfl
  · rw [Spot.first, Spot.last, if_pos hframed, if_pos hframed]
    apply Threading.Threads.cons (.enter hbody hframed)
    apply (threads_statements resolves body.statements hcode placedCode hinside has).append
    exact (Threading.Threads.of_silent hresult).append (.single (.leave hframed))

/-- A body without a frame of its own leaves all frames alone. -/
theorem whole_inlineBody (resolves : within.Resolves env) {decl : Decl}
    (hshared : within.tree.isFramed within.block = false)
    (h : (inlineBody env decl isFunction label body).Emits counter within.whole final ())
    (placed : within.image.Placed index within.whole)
    (has : within.Has (Statement.usesAll body.statements) (Statement.callsAll body.statements)) :
    within.Whole index := by
  obtain ⟨code, result, hcode, hresult, hwhole⟩ := emits_inlineBody h
  have hinside : code ⊆ within.whole := by
    rw [hwhole]
    exact List.subset_cons_of_subset _ (List.subset_append_left _ _)
  rw [hwhole] at placed
  have placedCode := (Image.placed_append.mp placed.tail).1
  refine ⟨.label label :: (code ++ result), "End of " ++ decl.name, ?_, ?_⟩
  · rw [hwhole, List.cons_append, List.append_assoc]
  · rw [Spot.first, Spot.last, hshared]
    apply Threading.Threads.cons .label
    apply (threads_statements resolves body.statements hcode placedCode hinside has).append
    cases hresult with
    | procedure => exact .nil
    | function => exact threads_load _

end Bodies

end MiniPascal.Code
