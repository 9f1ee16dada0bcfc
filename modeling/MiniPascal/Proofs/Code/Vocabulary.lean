import MiniPascal.Proofs.Code.Bodies
import MiniPascal.Proofs.Tree.Origins

/-!
# What code can say

The lines of code have few forms.  A number that is moved or added is a literal or a
constant used as a value, the zero of a comparison, or the room of arguments.  A comment is
one of a few phrases, or says the name of a declaration.  So what holds of all these forms
holds of every line of a program's code.
-/

namespace MiniPascal.Assembly

def Operand.immediate? : Operand → Option Int
  | .immediate value => some value
  | .register _ | .memory .. => none

/-- The number that an instruction moves or adds. -/
def Instruction.immediate? : Instruction → Option Int
  | .move source _ | .arith .add source _ => source.immediate?
  | _ => none

def Line.immediate? : Line → Option Int
  | .instruction _ done _ => done.immediate?
  | .directive _ | .label _ | .datum .. => none

end MiniPascal.Assembly

namespace MiniPascal

/-! ### Pieces of a text -/

/-- What follows a mark in a piece of a text is a piece of it. -/
theorem sublist_after_mark {mark : Token} {first second tokens : List Token}
    (h : (first ++ mark :: second).Sublist tokens) : second.Sublist tokens :=
  List.sublist_of_cons_sublist ((List.sublist_append_right _ _).trans h)

theorem sublist_separatedTokens {mark : Symbol} {pieces : List (List Token)} {piece : List Token}
    (h : piece ∈ pieces) : piece.Sublist (separatedTokens mark pieces) := by
  cases pieces with
  | nil => exact absurd h List.not_mem_nil
  | cons first others =>
      rcases List.mem_cons.mp h with rfl | hother
      · exact List.sublist_append_left _ _
      · have hwithin : (Token.symbol mark :: piece).Sublist (others.flatMap (.symbol mark :: ·)) :=
          List.sublist_flatten_of_mem (List.mem_map_of_mem hother)
        exact (List.sublist_of_cons_sublist hwithin).trans (List.sublist_append_right _ _)

namespace Expr

/-- The tokens of arguments hold those of each. -/
theorem sublist_tokensOfArguments {args : List Expr} {arg : Expr} (h : arg ∈ args) :
    arg.tokens.Sublist (tokensOfArguments args) := by
  cases args with
  | nil => exact absurd h List.not_mem_nil
  | cons first others =>
      rw [tokensOfArguments_cons]
      have hpiece : arg.tokens.Sublist (separatedTokens .comma ((first :: others).map tokens)) :=
        sublist_separatedTokens (List.mem_map_of_mem h)
      exact (hpiece.trans (List.sublist_append_left _ _)).cons _

/-- There are fewer arguments than tokens of them, if there are any. -/
theorem length_le_tokensOfArguments (args : List Expr) :
    args.length ≤ (tokensOfArguments args).length := by
  cases args with
  | nil => exact Nat.zero_le _
  | cons first others =>
      have hpieces := length_le_separatedTokens .comma ((first :: others).map tokens)
      have htokens : (tokensOfArguments (first :: others)).length =
          (separatedTokens .comma ((first :: others).map tokens)).length + 1 + 1 := by
        rw [tokensOfArguments_cons, List.length_cons, List.length_append, List.length_singleton]
      rw [List.length_map] at hpieces
      omega

/-- Where a call stands in a text, its arguments do, and the text is longer than they are
many. -/
theorem within_of_arguments {args : List Expr} {first : Token} {tokens : List Token}
    (h : (first :: tokensOfArguments args).Sublist tokens) :
    args.length < tokens.length ∧ ∀ arg ∈ args, arg.tokens.Sublist tokens := by
  have hargs := List.sublist_of_cons_sublist h
  refine ⟨?_, fun _ harg => (sublist_tokensOfArguments harg).trans hargs⟩
  exact Nat.lt_of_lt_of_le (Nat.lt_succ_of_le (length_le_tokensOfArguments args)) h.length_le

end Expr

/-- The tokens of statements hold those of each. -/
theorem Statement.sublist_tokensAll {statements : List Statement} {statement : Statement}
    (h : statement ∈ statements) : statement.tokens.Sublist (tokensAll statements) := by
  rw [tokensAll_eq]
  exact sublist_separatedTokens (List.mem_map_of_mem h)

namespace Code

open MiniPascal.Assembly
open Emit

/-! ### Forms of lines -/

/-- A number that the code of a tree can hold, if its text has the given tokens. -/
inductive CodeNumber (tree : Tree) (tokens : List Token) : Int → Prop
  | zero : CodeNumber tree tokens 0
  | word : CodeNumber tree tokens Frame.wordSize
  | arguments {count : Nat} (h : count < tokens.length) :
      CodeNumber tree tokens (Frame.wordSize * count)
  | literal {value : Literal} (h : value.token ∈ tokens) : CodeNumber tree tokens value.value
  | declared {id : DeclId} {decl : Decl} {value : Int} (hdecl : tree.decls[id]? = some decl)
      (hvalue : tree.declValue decl = .ok value) : CodeNumber tree tokens value

/-- The comments that are the same in all code. -/
def phrases : List String :=
  ["", "+", "-", "*", "/", "mod", "or", "and", "not", "- (prefix)", "Test", "Addr(text)",
    "Pop parameter", "Pop parameters", "Fetch return value", "Start program", "Set status 0 and",
    "terminate the program"]

/-- A name that code can mention: the program's, or that of a declaration. -/
inductive CodeName (tree : Tree) (title : String) : String → Prop
  | title : CodeName tree title title
  | declared {id : DeclId} {decl : Decl} (h : tree.decls[id]? = some decl) :
      CodeName tree title decl.name

/-- A comment that code can have. -/
inductive CodeComment (tree : Tree) (title : String) : String → Prop
  | phrase {text : String} (h : text ∈ phrases) : CodeComment tree title text
  | name {name : String} (h : CodeName tree title name) : CodeComment tree title name
  | assigned {name : String} (h : CodeName tree title name) :
      CodeComment tree title (name ++ " :=")
  | start {name : String} (h : CodeName tree title name) :
      CodeComment tree title ("Start of " ++ name)
  | finish {name : String} (h : CodeName tree title name) :
      CodeComment tree title ("End of " ++ name)

def directives : List Directive :=
  [.external "write_char", .external "write_int", .external "write_string", .global "_main",
    .global "main", .dataSection, .textSection, .align 2]

/-- A line that code can have. -/
inductive CodeLine (tree : Tree) (tokens : List Token) (title : String) : Line → Prop
  | directive {order : Directive} (h : order ∈ directives) :
      CodeLine tree tokens title (.directive order)
  | label (place : Label) : CodeLine tree tokens title (.label place)
  | datum (place : Label) (text : String) : CodeLine tree tokens title (.datum place text)
  /-- An instruction that neither moves nor adds a number. -/
  | plain {label? : Option Label} {done : Instruction} {comment : String}
      (hdone : done.immediate? = none) (hcomment : CodeComment tree title comment) :
      CodeLine tree tokens title (.instruction label? done comment)
  | numbered {label? : Option Label} {done : Instruction} {value : Int} {comment : String}
      (hdone : done.immediate? = some value) (hvalue : CodeNumber tree tokens value)
      (hcomment : CodeComment tree title comment) :
      CodeLine tree tokens title (.instruction label? done comment)

def CodeLines (tree : Tree) (tokens : List Token) (title : String) (lines : List Line) : Prop :=
  ∀ line ∈ lines, CodeLine tree tokens title line

section Lines

variable {tree : Tree} {tokens : List Token} {title : String}
variable {line : Line} {lines lines' : List Line}

namespace CodeLines

theorem nil : CodeLines tree tokens title [] :=
  fun _ hline => absurd hline List.not_mem_nil

theorem cons (hline : CodeLine tree tokens title line) (h : CodeLines tree tokens title lines) :
    CodeLines tree tokens title (line :: lines) :=
  List.forall_mem_cons.mpr ⟨hline, h⟩

theorem append (h : CodeLines tree tokens title lines) (h' : CodeLines tree tokens title lines') :
    CodeLines tree tokens title (lines ++ lines') :=
  List.forall_mem_append.mpr ⟨h, h'⟩

end CodeLines

theorem CodeLine.phrased {label? : Option Label} {done : Instruction} {comment : String}
    (hdone : done.immediate? = none) (hcomment : comment ∈ phrases) :
    CodeLine tree tokens title (.instruction label? done comment) :=
  .plain hdone (.phrase hcomment)

/-- An instruction without a comment, and without a number. -/
theorem CodeLine.bare {label? : Option Label} {done : Instruction}
    (hdone : done.immediate? = none) :
    CodeLine tree tokens title (.instruction label? done "") :=
  .phrased hdone List.mem_cons_self

/-- The number on such a line is one of those that code can hold. -/
theorem CodeLine.codeNumber {value : Int} (h : CodeLine tree tokens title line)
    (hvalue : line.immediate? = some value) : CodeNumber tree tokens value := by
  cases h with
  | directive | label | datum => cases hvalue
  | plain hdone => cases hdone.symm.trans hvalue
  | numbered hdone hnumber =>
      obtain rfl := Option.some.inj (hdone.symm.trans hvalue)
      exact hnumber

/-! ### Fixed lines -/

theorem codeLines_operationLines (op : BinaryOp) :
    CodeLines tree tokens title (operationLines op) := by
  cases op with
  | add | subtract | or | multiply | and => exact .cons (.phrased rfl (by decide)) .nil
  | divide => exact .cons (.bare rfl) (.cons (.phrased rfl (by decide)) .nil)
  | modulo =>
      exact .cons (.bare rfl) (.cons (.bare rfl) (.cons (.phrased rfl (by decide)) .nil))

theorem codeLines_popLines {args : Nat} (hargs : args < tokens.length) :
    CodeLines tree tokens title (popLines args) := by
  unfold popLines
  split
  · exact .nil
  · exact .cons (.numbered rfl (.arguments hargs) (.phrase (by decide))) .nil

theorem codeLines_textLines (text : String) (number : Nat) :
    CodeLines tree tokens title (textLines text number) :=
  .cons (.directive (by decide)) (.cons (.datum _ _) (.cons (.directive (by decide))
    (.cons (.directive (by decide)) (.cons (.phrased rfl (by decide)) .nil))))

theorem codeLines_writeLines (function : Label) :
    CodeLines tree tokens title (writeLines function) :=
  .cons (.bare rfl) (.cons (.bare rfl) (.cons (.numbered rfl .word (.phrase (by decide))) .nil))

theorem codeLines_comparisonLines (relation : Relation) :
    CodeLines tree tokens title (comparisonLines relation) :=
  .cons (.bare rfl) (.cons (.bare rfl) (.cons (.numbered rfl .zero (.phrase (by decide)))
    (.cons (.phrased rfl (by decide)) .nil)))

theorem codeLines_branchLines (target : Label) :
    CodeLines tree tokens title (branchLines target) :=
  .cons (.bare rfl) (.cons (.bare rfl) .nil)

theorem codeLines_resultLines (isFunction : Bool) :
    CodeLines tree tokens title (resultLines isFunction) := by
  cases isFunction with
  | false => exact .nil
  | true => exact .cons (.phrased rfl (by decide)) .nil

theorem codeLines_entryLines (program : Label) :
    CodeLines tree tokens title (entryLines program) :=
  .cons (.directive (by decide)) (.cons (.directive (by decide)) (.cons (.directive (by decide))
    (.cons (.directive (by decide)) (.cons (.directive (by decide)) (.cons (.label _)
    (.cons (.phrased rfl (by decide))
    (.cons (.numbered rfl .zero (.phrase (by decide)))
    (.cons (.phrased rfl (by decide)) .nil))))))))

end Lines

/-! ### Expressions -/

section Emitted

variable {env : Env} {tokens : List Token} {title : String}

theorem codeLines_pure {counter final : Nat} {lines : List Line}
    (h : (pure () : Emit Unit).Emits counter lines final ()) :
    CodeLines env.tree tokens title lines := by
  obtain ⟨rfl, -⟩ := emits_pure_iff.mp h
  exact .nil

/-- A call holds the lines of its arguments, and the number of them. -/
theorem Calls.codeLines {id : DeclId} {args : Nat} {pushed written : Emit Unit}
    {counter final : Nat} {lines : List Line}
    (h : Calls env id args pushed written counter lines final) (hargs : args < tokens.length)
    (hpushed : ∀ {counter final lines}, pushed.Emits counter lines final () →
      CodeLines env.tree tokens title lines)
    (hwritten : ∀ {counter final lines}, written.Emits counter lines final () →
      CodeLines env.tree tokens title lines) : CodeLines env.tree tokens title lines := by
  cases h with
  | builtin _ _ _ hemits => exact hwritten hemits
  | routine _ _ _ _ hemits =>
      exact (hpushed hemits).append (.cons (.bare rfl) (codeLines_popLines hargs))

/-- The word or the number of a name has the name beside it. -/
theorem NameCode.codeLines {ref : NameRef} {index : Emit Unit} {counter final : Nat}
    {lines : List Line} (h : NameCode env ref index counter lines final)
    (htokens : 0 < tokens.length)
    (hindex : ∀ {counter final lines}, index.Emits counter lines final () →
      CodeLines env.tree tokens title lines) : CodeLines env.tree tokens title lines := by
  cases h with
  | word _ hdecl _ _ hemits =>
      have hname : CodeComment env.tree title _ := .name (.declared hdecl)
      exact (hindex hemits).append (.cons (.bare rfl) (.cons (.plain rfl hname) .nil))
  | number _ hdecl hvalue =>
      exact .cons (.numbered rfl (.declared hdecl hvalue) (.name (.declared hdecl))) .nil
  | function _ hcalls => exact hcalls.codeLines htokens codeLines_pure codeLines_pure

mutual

theorem codeLines_expr (source : Expr) {counter final : Nat} {lines : List Line}
    (hsource : source.tokens.Sublist tokens)
    (h : (expr env source).Emits counter lines final ()) :
    CodeLines env.tree tokens title lines := by
  cases source with
  | literal value line =>
      obtain ⟨rfl, rfl⟩ := emits_literal h
      have hmem := hsource.subset (List.mem_singleton_self value.token)
      exact .cons (.numbered rfl (.literal hmem) (.phrase List.mem_cons_self)) .nil
  | name ref => exact (emits_name h).codeLines hsource.length_le codeLines_pure
  | element ref index =>
      rw [Expr.tokens] at hsource
      have hindex := (((List.sublist_append_left _ _).cons _).cons _).trans hsource
      have hpos : 0 < tokens.length := Nat.lt_of_lt_of_le (Nat.succ_pos _) hsource.length_le
      exact (emits_element h).codeLines hpos fun hemits => codeLines_expr index hindex hemits
  | call ref args =>
      obtain ⟨id, -, hcalls⟩ := emits_callExpr h
      rw [Expr.tokens] at hsource
      obtain ⟨hlength, hwithin⟩ := Expr.within_of_arguments hsource
      exact hcalls.codeLines hlength (fun hpushed => codeLines_pushAll args hwithin hpushed)
        (fun hwritten => codeLines_writeAll args hwithin hwritten)
  | group inner line =>
      rw [expr] at h
      have hinner := ((List.sublist_append_left _ _).cons _).trans hsource
      exact codeLines_expr inner hinner h
  | negation operand line =>
      obtain ⟨front, hoperand, rfl⟩ := emits_negation h
      have hinner := List.sublist_of_cons_sublist hsource
      exact (codeLines_expr operand hinner hoperand).append
        (.cons (.phrased rfl (by decide)) .nil)
  | signed sign operand line =>
      have hinner := List.sublist_of_cons_sublist hsource
      cases sign with
      | plus =>
          rw [expr] at h
          exact codeLines_expr operand hinner h
      | minus =>
          obtain ⟨front, hoperand, rfl⟩ := emits_minus h
          exact (codeLines_expr operand hinner hoperand).append
            (.cons (.phrased rfl (by decide)) .nil)
  | binary op left right =>
      obtain ⟨first, middle, second, hleft, hright, rfl⟩ := emits_binary h
      have hfirst := (List.sublist_append_left _ _).trans hsource
      have hsecond := sublist_after_mark hsource
      exact (codeLines_expr left hfirst hleft).append (.cons (.bare rfl)
        ((codeLines_expr right hsecond hright).append
          (.cons (.bare rfl) (.cons (.bare rfl) (codeLines_operationLines op)))))
  | comparison relation left right =>
      obtain ⟨first, middle, second, hleft, hright, rfl⟩ := emits_comparison h
      have hfirst := (List.sublist_append_left _ _).trans hsource
      have hsecond := sublist_after_mark hsource
      exact (codeLines_expr left hfirst hleft).append (.cons (.bare rfl)
        ((codeLines_expr right hsecond hright).append (codeLines_comparisonLines relation)))

theorem codeLines_pushAll (args : List Expr) {counter final : Nat} {lines : List Line}
    (hargs : ∀ arg ∈ args, arg.tokens.Sublist tokens)
    (h : (pushAll env args).Emits counter lines final ()) :
    CodeLines env.tree tokens title lines := by
  cases args with
  | nil =>
      obtain ⟨rfl, rfl⟩ := emits_pushAll_nil h
      exact .nil
  | cons arg others =>
      obtain ⟨harg, hothers⟩ := List.forall_mem_cons.mp hargs
      obtain ⟨first, middle, second, hfirst, hsecond, rfl⟩ := emits_pushAll_cons h
      exact (codeLines_pushAll others hothers hfirst).append
        ((codeLines_expr arg harg hsecond).append (.cons (.bare rfl) .nil))

theorem codeLines_writeAll (args : List Expr) {counter final : Nat} {lines : List Line}
    (hargs : ∀ arg ∈ args, arg.tokens.Sublist tokens)
    (h : (writeAll env args).Emits counter lines final ()) :
    CodeLines env.tree tokens title lines := by
  cases args with
  | nil =>
      obtain ⟨rfl, rfl⟩ := emits_writeAll_nil h
      exact .nil
  | cons arg others =>
      obtain ⟨harg, hothers⟩ := List.forall_mem_cons.mp hargs
      obtain ⟨first, middle, second, hwrite, hrest, rfl⟩ := emits_writeAll_cons h
      have hsecond := codeLines_writeAll others hothers hrest
      cases hwrite with
      | text _ =>
          exact ((codeLines_textLines _ _).append (codeLines_writeLines _)).append hsecond
      | char _ hemits | number _ _ hemits =>
          have hfirst := codeLines_expr arg harg hemits
          exact (hfirst.append (codeLines_writeLines _)).append hsecond

end

/-! ### Statements -/

theorem IndexCode.codeLines {index : Option Expr} {counter final : Nat} {lines : List Line}
    (h : IndexCode env index counter lines final)
    (hindex : (Expr.tokensIn? index).Sublist tokens) : CodeLines env.tree tokens title lines := by
  cases h with
  | none => exact .nil
  | some hemits =>
      have hinner := ((List.sublist_append_left _ _).cons _).trans hindex
      exact .cons (.bare rfl) ((codeLines_expr _ hinner hemits).append (.cons (.bare rfl) .nil))

theorem codeLines_assign {target : NameRef} {index : Option Expr} {value : Expr}
    {counter final : Nat} {lines : List Line}
    (hsource : (Statement.assign target index value).tokens.Sublist tokens)
    (h : (statement env (.assign target index value)).Emits counter lines final ()) :
    CodeLines env.tree tokens title lines := by
  obtain ⟨first, middle, second, id, decl, layout, hvalue, hindex, -, hdecl, -, rfl⟩ :=
    emits_assign h
  rw [Statement.tokens] at hsource
  have hrest := List.sublist_of_cons_sublist hsource
  have hwithin := (List.sublist_append_left _ _).trans hrest
  have hassigned := sublist_after_mark hrest
  have hstored : CodeComment env.tree title (decl.name ++ " :=") := .assigned (.declared hdecl)
  exact (codeLines_expr value hassigned hvalue).append
    ((hindex.codeLines hwithin).append (.cons (.bare rfl) (.cons (.plain rfl hstored) .nil)))

mutual

theorem codeLines_statement (source : Statement) {counter final : Nat} {lines : List Line}
    (hsource : source.tokens.Sublist tokens)
    (h : (statement env source).Emits counter lines final ()) :
    CodeLines env.tree tokens title lines := by
  cases source with
  | assign target index value => exact codeLines_assign hsource h
  | compound body line =>
      rw [statement] at h
      have hbody := ((List.sublist_append_left _ _).cons _).trans hsource
      exact codeLines_statements body
        (fun inner hinner => (Statement.sublist_tokensAll hinner).trans hbody) h
  | ifThen condition consequence line =>
      obtain ⟨first, middle, second, hcondition, hconsequence, rfl⟩ := emits_ifThen h
      rw [Statement.tokens] at hsource
      have hrest := List.sublist_of_cons_sublist hsource
      have hfirst := (List.sublist_append_left _ _).trans hrest
      have hsecond := sublist_after_mark hrest
      exact (codeLines_expr condition hfirst hcondition).append
        ((codeLines_branchLines _).append
          ((codeLines_statement consequence hsecond hconsequence).append (.cons (.label _) .nil)))
  | ifElse condition consequence alternative line =>
      obtain ⟨first, middle, second, middle', third, hcondition, hconsequence, halternative, rfl⟩ :=
        emits_ifElse h
      rw [Statement.tokens] at hsource
      have hrest := List.sublist_of_cons_sublist hsource
      have hfirst := (List.sublist_append_left _ _).trans hrest
      have hbranches := sublist_after_mark hrest
      have hsecond := (List.sublist_append_left _ _).trans hbranches
      have hthird := sublist_after_mark hbranches
      have hlast : CodeLines env.tree tokens title third :=
        codeLines_statement alternative hthird halternative
      exact (codeLines_expr condition hfirst hcondition).append
        ((codeLines_branchLines _).append
          ((codeLines_statement consequence hsecond hconsequence).append
            (.cons (.bare rfl) (.cons (.label _) (hlast.append (.cons (.label _) .nil))))))
  | whileDo condition body line =>
      obtain ⟨first, middle, second, hcondition, hbody, rfl⟩ := emits_whileDo h
      rw [Statement.tokens] at hsource
      have hrest := List.sublist_of_cons_sublist hsource
      have hfirst := (List.sublist_append_left _ _).trans hrest
      have hsecond := sublist_after_mark hrest
      have hrepeated : CodeLines env.tree tokens title second :=
        codeLines_statement body hsecond hbody
      exact .cons (.label _) ((codeLines_expr condition hfirst hcondition).append
        ((codeLines_branchLines _).append
          (hrepeated.append (.cons (.bare rfl) (.cons (.label _) .nil)))))
  | call ref args =>
      obtain ⟨id, -, hcalls⟩ := emits_callStatement h
      rw [Statement.tokens] at hsource
      obtain ⟨hlength, hwithin⟩ := Expr.within_of_arguments hsource
      exact hcalls.codeLines hlength (fun hpushed => codeLines_pushAll args hwithin hpushed)
        (fun hwritten => codeLines_writeAll args hwithin hwritten)
  | empty line =>
      obtain ⟨rfl, rfl⟩ := emits_empty h
      exact .nil

theorem codeLines_statements (sources : List Statement) {counter final : Nat} {lines : List Line}
    (hsources : ∀ source ∈ sources, source.tokens.Sublist tokens)
    (h : (statements env sources).Emits counter lines final ()) :
    CodeLines env.tree tokens title lines := by
  cases sources with
  | nil =>
      obtain ⟨rfl, rfl⟩ := emits_statements_nil h
      exact .nil
  | cons first others =>
      obtain ⟨hsource, hsources⟩ := List.forall_mem_cons.mp hsources
      obtain ⟨front, middle, back, rfl, hfirst, hothers⟩ := emits_statements_cons h
      exact (codeLines_statement first hsource hfirst).append
        (codeLines_statements others hsources hothers)

end

/-! ### Programs -/

/-- A body has the name of its routine at its start and its end. -/
theorem codeLines_framedBody {name : String} {isFunction : Bool} {label : Label} {body : Block}
    {counter final : Nat} {lines : List Line} (hname : CodeName env.tree title name)
    (hbody : (Statement.tokensAll body.statements).Sublist tokens)
    (h : (framedBody env name isFunction label body).Emits counter lines final ()) :
    CodeLines env.tree tokens title lines := by
  obtain ⟨code, hcode, rfl⟩ := emits_framedBody h
  have hstatements : CodeLines env.tree tokens title code := codeLines_statements _
    (fun source hsource => (Statement.sublist_tokensAll hsource).trans hbody) hcode
  exact .cons (.plain rfl (.start hname)) (hstatements.append ((codeLines_resultLines _).append
    (.cons (.bare rfl) (.cons (.plain rfl (.finish hname)) .nil))))

theorem codeLines_inlineBody {decl : Decl} {isFunction : Bool} {label : Label} {body : Block}
    {counter final : Nat} {lines : List Line} (hname : CodeName env.tree title decl.name)
    (hbody : (Statement.tokensAll body.statements).Sublist tokens)
    (h : (inlineBody env decl isFunction label body).Emits counter lines final ()) :
    CodeLines env.tree tokens title lines := by
  obtain ⟨code, result, hcode, hresult, rfl⟩ := emits_inlineBody h
  have hstatements : CodeLines env.tree tokens title code := codeLines_statements _
    (fun source hsource => (Statement.sublist_tokensAll hsource).trans hbody) hcode
  have hfetched : CodeLines env.tree tokens title result := by
    cases hresult with
    | procedure => exact .nil
    | function => exact .cons (.bare rfl) (.cons (.phrased rfl (by decide)) .nil)
  exact .cons (.label _) (hstatements.append
    (hfetched.append (.cons (.plain rfl (.finish hname)) .nil)))

end Emitted

section Programs

variable {tree : Tree} {tokens : List Token} {title : String} {labels : RoutineLabels}

/-- All statements of the tree stand in the text with the given tokens. -/
def StatementsWithin (tree : Tree) (tokens : List Token) : Prop :=
  ∀ (id : BlockId) (block : Block), tree.blocks[id]? = some block →
    (Statement.tokensAll block.statements).Sublist tokens

theorem IsRoutineCode.codeLines {id : DeclId} {code : List Line}
    (h : IsRoutineCode tree labels id code) (hwithin : StatementsWithin tree tokens) :
    CodeLines tree tokens title code := by
  obtain ⟨decl, heading, bodyId, known, counter, final, found⟩ := h
  have hname : CodeName tree title decl.name := .declared found.decl_eq
  cases found.code with
  | framed hbody _ hcode => exact codeLines_framedBody hname (hwithin _ _ hbody) hcode
  | shared hbody _ hcode => exact codeLines_inlineBody hname (hwithin _ _ hbody) hcode

/-- All lines of a program's code have one of the forms. -/
theorem ProgramBodies.codeLines {order : List DeclId} {counter middle final : Nat}
    {lines main : List Line} {codes : List (List Line)} {body : Block}
    (h : ProgramBodies tree order title counter lines labels codes main body middle final)
    (hwithin : StatementsWithin tree tokens) : CodeLines tree tokens title lines := by
  have hroutines : CodeLines tree tokens title codes.flatten := by
    intro line hline
    obtain ⟨code, hcode, hmem⟩ := List.mem_flatten.mp hline
    obtain ⟨id, -, hroutine⟩ := exists_of_forall₂_right h.routines hcode
    exact hroutine.codeLines hwithin line hmem
  rw [h.lines_eq]
  exact (codeLines_entryLines _).append
    (hroutines.append (codeLines_framedBody .title (hwithin _ _ h.block) h.main))

end Programs

end Code

end MiniPascal
