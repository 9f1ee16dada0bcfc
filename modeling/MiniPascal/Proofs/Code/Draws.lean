import MiniPascal.Code.Program
import MiniPascal.Proofs.Assembly.Reference

/-!
# Labels that any code shows

Whatever tree code is written for, checked or not, and also if it stops at a fault: the
labels in the lines written are the names of the entry, and labels whose numbers were drawn
since the code began.  Nothing is asked of the tree, so the statements hold of every line
that is ever written.
-/

namespace MiniPascal

open MiniPascal.Assembly

namespace Assembly

/-- The names of the entry, which every program shows. -/
def entryNames : List String :=
  ["_main", "main"]

/-- The label is a name of the entry, or was drawn while the counter went from one number
to another. -/
def Label.ShownBetween (start final : Nat) : Label → Prop
  | .numbered number => start < number ∧ number ≤ final
  | .unit stem _ number => stem ∈ unitStems ∧ start < number ∧ number ≤ final
  | .global name => name ∈ entryNames

variable {start middle final : Nat}

theorem Label.ShownBetween.mono {label : Label} (h : label.ShownBetween start middle)
    (hle : middle ≤ final) : label.ShownBetween start final := by
  cases label with
  | numbered => exact ⟨h.1, Nat.le_trans h.2 hle⟩
  | unit => exact ⟨h.1, h.2.1, Nat.le_trans h.2.2 hle⟩
  | global => exact h

end Assembly

namespace Code

/-- The labels of routines were drawn since a number. -/
def RoutineLabels.Between (start final : Nat) (labels : RoutineLabels) : Prop :=
  ∀ label ∈ labels.map Prod.snd, label.ShownBetween start final

namespace Emit

/-- From a bound on, an emission lets the counter go up and shows only labels drawn since
the start.  What it gives, if it gives something, is as it should be at the counter. -/
def Draws {α : Type} (start bound : Nat) (emit : Emit α) (post : Nat → α → Prop) : Prop :=
  ∀ counter, bound ≤ counter →
    counter ≤ (emit.run counter).counter ∧
    (∀ label ∈ shown (emit.run counter).lines,
      label.ShownBetween start (emit.run counter).counter) ∧
    ∀ value, (emit.run counter).result = .ok value → post (emit.run counter).counter value

variable {α β : Type} {start bound : Nat} {post : Nat → α → Prop} {after : Nat → β → Prop}

/-! ### Rules -/

theorem draws_pure {value : α} (h : ∀ final, bound ≤ final → post final value) :
    Draws start bound (pure value) post := by
  intro counter hbound
  refine ⟨Nat.le_refl _, fun _ hlabel => absurd hlabel List.not_mem_nil, ?_⟩
  rintro _ ⟨⟩
  exact h counter hbound

theorem draws_stop {fault : Fault} : Draws start bound (stop fault) post := by
  intro counter _
  refine ⟨Nat.le_refl _, fun _ hlabel => absurd hlabel List.not_mem_nil, ?_⟩
  rintro _ ⟨⟩

/-- What follows begins where the first part ended, with what it gave. -/
theorem draws_bind {first : Emit α} {next : α → Emit β} (h : Draws start bound first post)
    (hnext : ∀ middle value, bound ≤ middle → post middle value →
      Draws start middle (next value) after) : Draws start bound (first >>= next) after := by
  intro counter hbound
  obtain ⟨hle, hshown, hgives⟩ := h counter hbound
  change counter ≤ (andThen first next counter).counter ∧
    (∀ label ∈ shown (andThen first next counter).lines,
      label.ShownBetween start (andThen first next counter).counter) ∧
    ∀ value, (andThen first next counter).result = .ok value →
      after (andThen first next counter).counter value
  unfold run at hle hshown hgives
  unfold andThen
  revert hle hshown hgives
  obtain ⟨lines, middle, result⟩ := first counter
  intro hle hshown hgives
  cases result with
  | error fault =>
      refine ⟨hle, hshown, ?_⟩
      rintro _ ⟨⟩
  | ok value =>
      obtain ⟨hle', hshown', hgives'⟩ := hnext middle value (Nat.le_trans hbound hle)
        (hgives value rfl) middle (Nat.le_refl _)
      refine ⟨Nat.le_trans hle hle', ?_, hgives'⟩
      intro label hlabel
      change label ∈ shown (lines ++ (next value middle).lines) at hlabel
      rw [shown_append] at hlabel
      rcases List.mem_append.mp hlabel with hlabel | hlabel
      · exact (hshown label hlabel).mono hle'
      · exact hshown' label hlabel

/-- A first part whose value does not matter. -/
theorem draws_then {first : Emit Unit} {next : Emit β}
    (h : Draws start bound first fun _ _ => True) (hnext : Draws start bound next after) :
    Draws start bound (first >>= fun _ => next) after :=
  draws_bind h fun _ _ hbound _ counter hmiddle => hnext counter (Nat.le_trans hbound hmiddle)

theorem Draws.of_le {emit : Emit α} {bound' : Nat} (h : Draws start bound emit post)
    (hle : bound ≤ bound') : Draws start bound' emit post :=
  fun counter hbound => h counter (Nat.le_trans hle hbound)

theorem draws_ofExcept (value : Except Fault α) :
    Draws start bound (ofExcept value) fun _ _ => True := by
  intro counter _
  exact ⟨Nat.le_refl _, fun _ hlabel => absurd hlabel List.not_mem_nil, fun _ _ => trivial⟩

/-- A number that is drawn is above the counter, which stands at it. -/
theorem draws_freshNumber :
    Draws start bound freshNumber fun final number => bound < number ∧ number ≤ final := by
  intro counter hbound
  refine ⟨Nat.le_succ _, fun _ hlabel => absurd hlabel List.not_mem_nil, ?_⟩
  rintro _ ⟨⟩
  exact ⟨Nat.lt_succ_of_le hbound, Nat.le_refl _⟩

theorem draws_freshLabel (hstart : start ≤ bound) :
    Draws start bound freshLabel fun final label => label.ShownBetween start final := by
  refine draws_bind draws_freshNumber fun middle number hbound hnumber => ?_
  refine draws_pure fun final hfinal => ?_
  exact ⟨Nat.lt_of_le_of_lt hstart hnumber.1, Nat.le_trans hnumber.2 hfinal⟩

theorem draws_line {text : Line} (h : ∀ label ∈ text.label?, label.ShownBetween start bound) :
    Draws start bound (line text) fun _ _ => True := by
  intro counter hbound
  refine ⟨Nat.le_refl _, fun label hlabel => ?_, fun _ _ => trivial⟩
  change label ∈ shown [text] at hlabel
  rw [shown_cons, shown_nil, List.append_nil, Option.mem_toList] at hlabel
  exact (h label hlabel).mono hbound

theorem draws_directive (directive : Directive) :
    Draws start bound (Emit.directive directive) fun _ _ => True :=
  draws_line nofun

theorem draws_commented (instruction : Instruction) (comment : String) :
    Draws start bound (commented instruction comment) fun _ _ => True :=
  draws_line nofun

theorem draws_instruction (instruction : Instruction) :
    Draws start bound (Emit.instruction instruction) fun _ _ => True :=
  draws_commented instruction ""

theorem draws_label {place : Label} (h : place.ShownBetween start bound) :
    Draws start bound (label place) fun _ _ => True := by
  apply draws_line
  rintro _ ⟨⟩
  exact h

theorem draws_labelled {place : Label} (h : place.ShownBetween start bound)
    (instruction : Instruction) (comment : String) :
    Draws start bound (labelled place instruction comment) fun _ _ => True := by
  apply draws_line
  rintro _ ⟨⟩
  exact h

end Emit

open Emit

/-! ### Expressions -/

section Constructs

variable {start bound : Nat} {env : Env}

theorem draws_load (decl : Decl) : Draws start bound (load decl) fun _ _ => True :=
  draws_bind (draws_ofExcept _) fun _ _ _ _ =>
    draws_then (draws_instruction _) (draws_commented _ _)

theorem draws_store (decl : Decl) : Draws start bound (store decl) fun _ _ => True :=
  draws_bind (draws_ofExcept _) fun _ _ _ _ =>
    draws_then (draws_instruction _) (draws_commented _ _)

theorem draws_operation (op : BinaryOp) : Draws start bound (operation op) fun _ _ => True := by
  cases op with
  | divide => exact draws_then (draws_instruction _) (draws_commented _ _)
  | modulo =>
      exact draws_then (draws_instruction _)
        (draws_then (draws_instruction _) (draws_commented _ _))
  | add | subtract | or | multiply | and => exact draws_commented _ _

theorem draws_callAt (label : Label) (args : Nat) :
    Draws start bound (callAt label args) fun _ _ => True := by
  refine draws_then (draws_instruction _) ?_
  split
  · exact draws_pure fun _ _ => trivial
  · exact draws_commented _ _

theorem draws_call {id : DeclId} {args : Nat} {pushed written : Emit Unit}
    (hpushed : Draws start bound pushed fun _ _ => True)
    (hwritten : Draws start bound written fun _ _ => True) :
    Draws start bound (call env id args pushed written) fun _ _ => True := by
  refine draws_bind (draws_ofExcept _) fun middle decl hbound _ => ?_
  split
  · exact draws_stop
  · split
    · exact hwritten.of_le hbound
    · refine draws_then (hpushed.of_le hbound) ?_
      split
      · exact draws_callAt _ _
      · exact draws_stop

/-- A text is a datum at a label of its own. -/
theorem draws_textAddress (hstart : start ≤ bound) (text : String) :
    Draws start bound (textAddress text) fun _ _ => True := by
  refine draws_bind (draws_freshLabel hstart) fun middle place hbound hplace => ?_
  have hdatum : ∀ label ∈ (Line.datum place text).label?, label.ShownBetween start middle := by
    rintro _ ⟨⟩
    exact hplace
  exact draws_then (draws_directive _) <| draws_then (draws_line hdatum) <|
    draws_then (draws_directive _) <| draws_then (draws_directive _) (draws_commented _ _)

theorem draws_writeWith (function : Label) :
    Draws start bound (writeWith function) fun _ _ => True :=
  draws_then (draws_instruction _) (draws_then (draws_instruction _) (draws_commented _ _))

theorem draws_nameValue (ref : NameRef) {index : Emit Unit}
    (hindex : Draws start bound index fun _ _ => True) :
    Draws start bound (nameValue env ref index) fun _ _ => True := by
  refine draws_bind (draws_ofExcept _) fun middle id hbound _ => ?_
  refine draws_bind (draws_ofExcept _) fun middle' decl hmiddle _ => ?_
  have hvalue : Draws start middle'
      (ofExcept (env.tree.declValue decl) >>= fun value =>
        commented (.move (.immediate value) .eax) decl.name) fun _ _ => True :=
    draws_bind (draws_ofExcept _) fun _ _ _ _ => draws_commented _ _
  cases decl.kind with
  | variableOf | parameter =>
      exact draws_then (hindex.of_le (Nat.le_trans hbound hmiddle)) (draws_load decl)
  | constant | enumLiteral => exact hvalue
  | type => exact draws_stop
  | routine heading =>
      change Draws start middle' (if heading.isFunction then _ else _) _
      split
      · exact draws_call (draws_pure fun _ _ => trivial) (draws_pure fun _ _ => trivial)
      · exact draws_stop

mutual

/-- Of the labels in the code of an expression, none were drawn before. -/
theorem draws_expr (env : Env) (hstart : start ≤ bound) : ∀ e : Expr,
    Draws start bound (expr env e) fun _ _ => True
  | .literal .. => draws_instruction _
  | .name ref => draws_nameValue ref (draws_pure fun _ _ => trivial)
  | .element ref index => draws_nameValue ref (draws_expr env hstart index)
  | .call _ args =>
      draws_bind (draws_ofExcept _) fun _ _ hbound _ =>
        (draws_call (draws_pushAll env hstart args) (draws_writeAll env hstart args)).of_le hbound
  | .group inner _ => draws_expr env hstart inner
  | .negation operand _ => draws_then (draws_expr env hstart operand) (draws_commented _ _)
  | .signed .plus operand _ => draws_expr env hstart operand
  | .signed .minus operand _ => draws_then (draws_expr env hstart operand) (draws_commented _ _)
  | .binary op left right =>
      draws_then (draws_expr env hstart left) <| draws_then (draws_instruction _) <|
        draws_then (draws_expr env hstart right) <| draws_then (draws_instruction _) <|
          draws_then (draws_instruction _) (draws_operation op)
  | .comparison _ left right =>
      draws_then (draws_expr env hstart left) <| draws_then (draws_instruction _) <|
        draws_then (draws_expr env hstart right) <| draws_then (draws_instruction _) <|
          draws_then (draws_instruction _) <| draws_then (draws_instruction _)
            (draws_commented _ _)

theorem draws_pushAll (env : Env) (hstart : start ≤ bound) : ∀ args : List Expr,
    Draws start bound (pushAll env args) fun _ _ => True
  | [] => draws_pure fun _ _ => trivial
  | arg :: others =>
      draws_then (draws_pushAll env hstart others) <|
        draws_then (draws_expr env hstart arg) (draws_instruction _)

theorem draws_writeAll (env : Env) (hstart : start ≤ bound) : ∀ args : List Expr,
    Draws start bound (writeAll env args) fun _ _ => True
  | [] => draws_pure fun _ _ => trivial
  | arg :: others => by
      have harg : Draws start bound (expr env arg) fun _ _ => True := draws_expr env hstart arg
      have hothers : Draws start bound (writeAll env others) fun _ _ => True :=
        draws_writeAll env hstart others
      rw [writeAll]
      cases env.tree.argumentLiteral? arg with
      | none => exact draws_then harg (draws_then (draws_writeWith _) hothers)
      | some literal =>
          cases literal with
          | text text =>
              exact draws_then (draws_textAddress hstart text)
                (draws_then (draws_writeWith _) hothers)
          | number | char => exact draws_then harg (draws_then (draws_writeWith _) hothers)

end

/-! ### Statements -/

theorem draws_branchIfZero (target : Label) :
    Draws start bound (branchIfZero target) fun _ _ => True :=
  draws_then (draws_instruction _) (draws_instruction _)

mutual

/-- A statement shows the labels that are drawn when it begins, and those inside it. -/
theorem draws_statement (env : Env) {bound : Nat} (hstart : start ≤ bound) : ∀ st : Statement,
    Draws start bound (statement env st) fun _ _ => True
  | .assign target index value => by
      have htarget : Draws start bound
          (ofExcept target.resolved >>= fun id =>
            ofExcept (env.tree.declared id) >>= fun decl => store decl) fun _ _ => True :=
        draws_bind (draws_ofExcept _) fun _ _ _ _ =>
          draws_bind (draws_ofExcept _) fun _ decl _ _ => draws_store decl
      refine draws_then (draws_expr env hstart value) ?_
      cases index with
      | none => exact htarget
      | some index =>
          exact draws_then (draws_instruction _) <| draws_then (draws_expr env hstart index) <|
            draws_then (draws_instruction _) htarget
  | .compound body _ => draws_statements env hstart body
  | .ifThen condition consequence _ =>
      draws_bind (draws_freshLabel hstart) fun _ done hbound hdone =>
        have hstart := Nat.le_trans hstart hbound
        draws_then (draws_expr env hstart condition) <| draws_then (draws_branchIfZero done) <|
          draws_then (draws_statement env hstart consequence) (draws_label hdone)
  | .ifElse condition consequence alternative _ =>
      draws_bind (draws_freshLabel hstart) fun _ otherwise hbound hotherwise =>
        have hstart := Nat.le_trans hstart hbound
        draws_bind (draws_freshLabel hstart) fun _ done hbound hdone =>
          have hstart := Nat.le_trans hstart hbound
          draws_then (draws_expr env hstart condition) <|
            draws_then (draws_branchIfZero otherwise) <|
              draws_then (draws_statement env hstart consequence) <|
                draws_then (draws_instruction _) <|
                  draws_then (draws_label (hotherwise.mono hbound)) <|
                    draws_then (draws_statement env hstart alternative) (draws_label hdone)
  | .whileDo condition body _ =>
      draws_bind (draws_freshLabel hstart) fun _ top hbound htop =>
        have hstart := Nat.le_trans hstart hbound
        draws_bind (draws_freshLabel hstart) fun _ done hbound hdone =>
          have hstart := Nat.le_trans hstart hbound
          draws_then (draws_label (htop.mono hbound)) <|
            draws_then (draws_expr env hstart condition) <|
              draws_then (draws_branchIfZero done) <|
                draws_then (draws_statement env hstart body) <|
                  draws_then (draws_instruction _) (draws_label hdone)
  | .call _ args =>
      draws_bind (draws_ofExcept _) fun _ _ hbound _ =>
        (draws_call (draws_pushAll env hstart args) (draws_writeAll env hstart args)).of_le hbound
  | .empty _ => draws_pure fun _ _ => trivial

theorem draws_statements (env : Env) {bound : Nat} (hstart : start ≤ bound) :
    ∀ body : List Statement, Draws start bound (statements env body) fun _ _ => True
  | [] => draws_pure fun _ _ => trivial
  | first :: others =>
      draws_then (draws_statement env hstart first) (draws_statements env hstart others)

end

/-! ### Routines -/

theorem RoutineLabels.Between.mono {middle final : Nat} {labels : RoutineLabels}
    (h : labels.Between start middle) (hle : middle ≤ final) : labels.Between start final :=
  fun label hlabel => (h label hlabel).mono hle

/-- The labels of routines are drawn before their code is written. -/
theorem draws_labelRoutines (tree : Tree) (ids : List DeclId) {labels : RoutineLabels}
    {bound : Nat} (hstart : start ≤ bound) (hlabels : labels.Between start bound) :
    Draws start bound (labelRoutines tree labels ids) fun final labels =>
      labels.Between start final := by
  induction ids generalizing labels bound with
  | nil => exact draws_pure fun final hfinal => hlabels.mono hfinal
  | cons id others ih =>
      refine draws_bind (draws_ofExcept _) fun middle decl hbound _ => ?_
      refine draws_bind draws_freshNumber fun middle' number hmiddle hnumber => ?_
      have hstart := Nat.le_trans hstart hbound
      apply ih (Nat.le_trans hstart hmiddle)
      intro label hlabel
      rcases List.mem_cons.mp hlabel with rfl | hlabel
      · exact ⟨labelStem_mem _, Nat.lt_of_le_of_lt hstart hnumber.1, hnumber.2⟩
      · exact (hlabels.mono (Nat.le_trans hbound hmiddle)) label hlabel

theorem draws_framedBody (env : Env) (hstart : start ≤ bound) (name : String) (isFunction : Bool)
    {place : Label} (hplace : place.ShownBetween start bound) (body : Block) :
    Draws start bound (framedBody env name isFunction place body) fun _ _ => True := by
  refine draws_then (draws_labelled hplace _ _) ?_
  refine draws_then (draws_statements env hstart body.statements) ?_
  cases isFunction with
  | true =>
      exact draws_then (draws_commented _ _) <| draws_then (draws_instruction _)
        (draws_commented _ _)
  | false => exact draws_then (draws_instruction _) (draws_commented _ _)

theorem draws_inlineBody (env : Env) (hstart : start ≤ bound) (decl : Decl) (isFunction : Bool)
    {place : Label} (hplace : place.ShownBetween start bound) (body : Block) :
    Draws start bound (inlineBody env decl isFunction place body) fun _ _ => True := by
  refine draws_then (draws_label hplace) ?_
  refine draws_then (draws_statements env hstart body.statements) ?_
  cases isFunction with
  | true =>
      exact draws_bind (draws_ofExcept _) fun _ _ _ _ =>
        draws_then (draws_instruction _) <| draws_then (draws_commented _ _)
          (draws_commented _ _)
  | false => exact draws_commented _ _

section Routines

variable {inside : BlockId → RoutineLabels → Emit RoutineLabels}
variable (hinside : ∀ {bound : Nat} {labels : RoutineLabels} (body : BlockId), start ≤ bound →
  labels.Between start bound →
  Draws start bound (inside body labels) fun final labels => labels.Between start final)

include hinside

theorem draws_routine (tree : Tree) (id : DeclId) {bound : Nat} {labels : RoutineLabels}
    (hstart : start ≤ bound) (hlabels : labels.Between start bound) :
    Draws start bound (routine inside tree id labels) fun final labels =>
      labels.Between start final := by
  refine draws_bind (draws_ofExcept _) fun middle decl hbound _ => ?_
  split
  · exact draws_stop
  · split
    · exact draws_stop
    · next body _ =>
        have hstart := Nat.le_trans hstart hbound
        refine draws_bind (hinside body hstart (hlabels.mono hbound)) ?_
        intro middle' labels hmiddle hlabels
        have hstart := Nat.le_trans hstart hmiddle
        split
        · exact draws_stop
        · next place hplace =>
            have hknown := hlabels place (known_of_lookup hplace)
            refine draws_bind (draws_ofExcept _) fun later block hlater _ => ?_
            have hstart := Nat.le_trans hstart hlater
            have hgiven : Draws start later (pure labels : Emit RoutineLabels) fun final labels =>
                labels.Between start final :=
              draws_pure fun _ hfinal => hlabels.mono (Nat.le_trans hlater hfinal)
            split
            · exact draws_then
                (draws_framedBody ⟨tree, labels⟩ hstart _ _ (hknown.mono hlater) block) hgiven
            · exact draws_then
                (draws_inlineBody ⟨tree, labels⟩ hstart decl _ (hknown.mono hlater) block) hgiven

theorem draws_routines (tree : Tree) (ids : List DeclId) {bound : Nat} {labels : RoutineLabels}
    (hstart : start ≤ bound) (hlabels : labels.Between start bound) :
    Draws start bound (routines inside tree ids labels) fun final labels =>
      labels.Between start final := by
  induction ids generalizing labels bound with
  | nil => exact draws_pure fun final hfinal => hlabels.mono hfinal
  | cons id others ih =>
      refine draws_bind (draws_routine hinside tree id hstart hlabels) ?_
      exact fun middle labels hmiddle hlabels => ih (Nat.le_trans hstart hmiddle) hlabels

end Routines

theorem draws_blockRoutines (tree : Tree) (depth : Nat) {bound : Nat} {labels : RoutineLabels}
    (body : BlockId) (hstart : start ≤ bound) (hlabels : labels.Between start bound) :
    Draws start bound (blockRoutines tree depth body labels) fun final labels =>
      labels.Between start final := by
  induction depth generalizing labels bound body with
  | zero => exact draws_stop
  | succ depth ih =>
      refine draws_bind (draws_ofExcept _) fun middle block hbound _ => ?_
      have hstart := Nat.le_trans hstart hbound
      refine draws_bind (draws_labelRoutines tree _ hstart (hlabels.mono hbound)) ?_
      exact fun middle' labels hmiddle hlabels =>
        draws_routines ih tree _ (Nat.le_trans hstart hmiddle) hlabels

/-! ### Programs -/

theorem draws_entry (program : Label) : Draws start bound (entry program) fun _ _ => True := by
  have hnames : ∀ name ∈ entryNames, (Label.global name).ShownBetween start bound :=
    fun _ hname => hname
  exact draws_then (draws_directive _) <| draws_then (draws_directive _) <|
    draws_then (draws_directive _) <| draws_then (draws_directive _) <|
      draws_then (draws_directive _) <| draws_then (draws_label (hnames "_main" (by decide))) <|
        draws_then (draws_labelled (hnames "main" (by decide)) _ _) <|
          draws_then (draws_commented _ _) (draws_commented _ _)

/-- The code of any tree, begun at a counter, shows the names of the entry and labels that
were drawn since. -/
theorem draws_program (tree : Tree) (name : String) (counter : Nat) :
    Draws counter counter (program tree name) fun _ _ => True := by
  unfold program
  split
  · refine draws_bind draws_freshNumber fun middle number hbound hnumber => ?_
    have hprogram : (Label.unit Label.programStem name number).ShownBetween counter middle :=
      ⟨by decide, hnumber⟩
    refine draws_then (draws_entry _) ?_
    refine draws_bind (draws_blockRoutines tree _ tree.body hbound nofun) ?_
    intro middle' labels hmiddle hlabels
    refine draws_bind (draws_ofExcept _) fun later body hlater _ => ?_
    exact draws_framedBody ⟨tree, labels⟩ (by omega) name false (hprogram.mono (by omega)) body
  · exact draws_stop

end Constructs

end Code

end MiniPascal
