import MiniPascal.Proofs.Assembly.LabelText
import MiniPascal.Proofs.Code.Shape
import Mathlib.Data.List.Nodup

/-!
# Labels of statements

The code of statements is a fragment: it shows the labels that were drawn for it and
no others, jumps to each of them or loads its address exactly once, and calls what has
a label already.  Numbers are drawn from one counter, so labels that are drawn one
after another differ.
-/

namespace MiniPascal

namespace Assembly

/-- Whether the label is a branch target or a datum. -/
def Label.isLocal : Label → Bool
  | .numbered _ => true
  | _ => false

def Instruction.aim? : Instruction → Option Label
  | .jump target | .jumpIfEqual target | .loadAddress target _ => some target
  | _ => none

def Instruction.callee? : Instruction → Option Label
  | .call target => some target
  | _ => none

namespace Line

def label? : Line → Option Label
  | .directive _ => none
  | .label place => some place
  | .instruction place? _ _ => place?
  | .datum place _ => some place

def aim? : Line → Option Label
  | .instruction _ done _ => done.aim?
  | _ => none

def callee? : Line → Option Label
  | .instruction _ done _ => done.callee?
  | _ => none

/-- The line neither shows a label nor refers to one. -/
def IsPlain (line : Line) : Prop :=
  line.label? = none ∧ line.aim? = none ∧ line.callee? = none

end Line

def shown (lines : List Line) : List Label :=
  lines.filterMap Line.label?

def aimed (lines : List Line) : List Label :=
  lines.filterMap Line.aim?

def called (lines : List Line) : List Label :=
  lines.filterMap Line.callee?

section Lines

variable (line : Line) (lines lines' : List Line)

@[simp]
theorem shown_nil : shown [] = [] := rfl

@[simp]
theorem aimed_nil : aimed [] = [] := rfl

@[simp]
theorem called_nil : called [] = [] := rfl

@[simp]
theorem shown_append : shown (lines ++ lines') = shown lines ++ shown lines' :=
  List.filterMap_append

@[simp]
theorem aimed_append : aimed (lines ++ lines') = aimed lines ++ aimed lines' :=
  List.filterMap_append

@[simp]
theorem called_append : called (lines ++ lines') = called lines ++ called lines' :=
  List.filterMap_append

theorem shown_cons : shown (line :: lines) = line.label?.toList ++ shown lines := by
  cases h : line.label? with
  | none => exact List.filterMap_cons_none h
  | some label => exact List.filterMap_cons_some h

theorem aimed_cons : aimed (line :: lines) = line.aim?.toList ++ aimed lines := by
  cases h : line.aim? with
  | none => exact List.filterMap_cons_none h
  | some label => exact List.filterMap_cons_some h

theorem called_cons : called (line :: lines) = line.callee?.toList ++ called lines := by
  cases h : line.callee? with
  | none => exact List.filterMap_cons_none h
  | some label => exact List.filterMap_cons_some h

variable {lines}

theorem shown_eq_nil (h : ∀ line ∈ lines, line.IsPlain) : shown lines = [] :=
  List.filterMap_eq_nil_iff.mpr fun line hline => (h line hline).1

theorem aimed_eq_nil (h : ∀ line ∈ lines, line.IsPlain) : aimed lines = [] :=
  List.filterMap_eq_nil_iff.mpr fun line hline => (h line hline).2.1

theorem called_eq_nil (h : ∀ line ∈ lines, line.IsPlain) : called lines = [] :=
  List.filterMap_eq_nil_iff.mpr fun line hline => (h line hline).2.2

end Lines

end Assembly

namespace Code

open MiniPascal.Assembly
open Emit

/-! ### Drawing labels -/

/-- Labels are drawn while the counter goes up, one for each number. -/
structure Drawn (labels : List Label) (counter final : Nat) : Prop where
  counter_le : counter ≤ final
  numbers : (labels.map Label.number?).Perm
    ((List.range' (counter + 1) (final - counter)).map some)

namespace Drawn

variable {labels labels' : List Label} {counter middle final : Nat}

theorem nil (counter : Nat) : Drawn [] counter counter where
  counter_le := Nat.le_refl counter
  numbers := by
    rw [Nat.sub_self]
    exact List.Perm.nil

theorem singleton {label : Label} (h : label.number? = some (counter + 1)) :
    Drawn [label] counter (counter + 1) where
  counter_le := Nat.le_succ counter
  numbers := by
    rw [Nat.add_sub_cancel_left, List.map_singleton, h]
    exact List.Perm.refl _

/-- What is drawn later has the numbers that follow. -/
theorem append (first : Drawn labels counter middle) (second : Drawn labels' middle final) :
    Drawn (labels ++ labels') counter final where
  counter_le := Nat.le_trans first.counter_le second.counter_le
  numbers := by
    have hfirst := first.counter_le
    have hsecond := second.counter_le
    have hmiddle : counter + 1 + (middle - counter) = middle + 1 := by omega
    have hlength : middle - counter + (final - middle) = final - counter := by omega
    have hrange := @List.range'_append_1 (counter + 1) (middle - counter) (final - middle)
    rw [hmiddle, hlength] at hrange
    rw [List.map_append, ← hrange, List.map_append]
    exact first.numbers.append second.numbers

/-- A local label is drawn before the others. -/
theorem cons (rest : Drawn labels (counter + 1) final) :
    Drawn (.numbered (counter + 1) :: labels) counter final :=
  (@Drawn.singleton counter (.numbered (counter + 1)) rfl).append rest

theorem perm (h : Drawn labels counter final) (hperm : labels.Perm labels') :
    Drawn labels' counter final where
  counter_le := h.counter_le
  numbers := (hperm.map Label.number?).symm.trans h.numbers

theorem exists_number (h : Drawn labels counter final) {label : Label} (hlabel : label ∈ labels) :
    ∃ number, label.number? = some number := by
  have hmem := h.numbers.mem_iff.mp (List.mem_map_of_mem hlabel)
  obtain ⟨number, -, hnumber⟩ := List.mem_map.mp hmem
  exact ⟨number, hnumber.symm⟩

theorem nodup_numbers (h : Drawn labels counter final) : (labels.map Label.number?).Nodup := by
  rw [h.numbers.nodup_iff]
  exact List.Nodup.map (fun _ _ => Option.some.inj) List.nodup_range'

/-- Labels that are drawn are written differently. -/
theorem nodup_text (h : Drawn labels counter final) : (labels.map Label.text).Nodup := by
  apply List.Nodup.map_on
  · intro label hlabel label' hlabel' htext
    obtain ⟨number, hnumber⟩ := h.exists_number hlabel
    obtain ⟨number', hnumber'⟩ := h.exists_number hlabel'
    have hsame := Label.number?_eq_of_text_eq hnumber hnumber' htext
    apply List.inj_on_of_nodup_map h.nodup_numbers hlabel hlabel'
    rw [hnumber, hnumber', hsame]
  · exact h.nodup_numbers.of_map _

/-- The numbers at the ends of the written labels are those that were drawn. -/
theorem trailing_numbers (h : Drawn labels counter final) :
    ((labels.map Label.text).filterMap trailingNumber?).Perm
      (List.range' (counter + 1) (final - counter)) := by
  have hread : (labels.map Label.text).filterMap trailingNumber? =
      (labels.map Label.number?).filterMap id := by
    rw [List.filterMap_map, List.filterMap_map]
    apply List.filterMap_congr
    intro label hlabel
    obtain ⟨number, hnumber⟩ := h.exists_number hlabel
    simp only [Function.comp, Label.trailingNumber?_text hnumber, hnumber, id]
  have hrange : ((List.range' (counter + 1) (final - counter)).map some).filterMap id =
      List.range' (counter + 1) (final - counter) := by
    rw [List.filterMap_map]
    exact List.filterMap_some
  rw [hread, ← hrange]
  exact h.numbers.filterMap id

end Drawn

/-! ### Fragments -/

/-- The functions that are linked with every program. -/
def runtimeFunctions : List Label :=
  [writeChar, writeInt, writeString]

/-- Code that was written while the label counter went up, with calls of known labels. -/
inductive Fragment (known : List Label) : Nat → List Line → Nat → Prop
  | plain {counter : Nat} {lines : List Line} (h : ∀ line ∈ lines, line.IsPlain) :
      Fragment known counter lines counter
  | call {counter : Nat} {label : Label} {comment : String}
      (h : label ∈ known ∨ label ∈ runtimeFunctions) :
      Fragment known counter [.instruction none (.call label) comment] counter
  | append {counter middle final : Nat} {front back : List Line}
      (first : Fragment known counter front middle) (second : Fragment known middle back final) :
      Fragment known counter (front ++ back) final
  | text {counter : Nat} (text : String) :
      Fragment known counter (textLines text (counter + 1)) (counter + 1)
  | ifThen {counter middle final : Nat} {condition consequence : List Line}
      (first : Fragment known (counter + 1) condition middle)
      (second : Fragment known middle consequence final) :
      Fragment known counter (condition ++ (branchLines (.numbered (counter + 1)) ++
        (consequence ++ [.label (.numbered (counter + 1))]))) final
  | ifElse {counter middle middle' final : Nat} {condition consequence alternative : List Line}
      (first : Fragment known (counter + 2) condition middle)
      (second : Fragment known middle consequence middle')
      (third : Fragment known middle' alternative final) :
      Fragment known counter (condition ++ (branchLines (.numbered (counter + 1)) ++
        (consequence ++ .instruction none (.jump (.numbered (counter + 2))) "" ::
          .label (.numbered (counter + 1)) ::
            (alternative ++ [.label (.numbered (counter + 2))])))) final
  | whileDo {counter middle final : Nat} {condition body : List Line}
      (first : Fragment known (counter + 2) condition middle)
      (second : Fragment known middle body final) :
      Fragment known counter (.label (.numbered (counter + 1)) :: (condition ++
        (branchLines (.numbered (counter + 2)) ++
          (body ++ [.instruction none (.jump (.numbered (counter + 1))) "",
            .label (.numbered (counter + 2))])))) final

namespace Fragment

variable {known : List Label} {counter final : Nat} {lines : List Line}

/-- The labels that a fragment shows are drawn for it. -/
theorem drawn (h : Fragment known counter lines final) : Drawn (shown lines) counter final := by
  induction h with
  | plain h =>
      rw [shown_eq_nil h]
      exact .nil _
  | call => exact .nil _
  | append _ _ ih ih' =>
      rw [shown_append]
      exact ih.append ih'
  | text => exact .singleton rfl
  | ifThen _ _ ih ih' =>
      apply (Drawn.cons (ih.append ih')).perm
      apply List.perm_iff_count.mpr
      intro label
      simp only [branchLines, shown_append, shown_cons, shown_nil, Line.label?, Option.toList,
        List.count_append, List.count_cons, List.count_nil]
      omega
  | ifElse _ _ _ ih ih' ih'' =>
      apply (Drawn.cons (Drawn.cons (ih.append (ih'.append ih'')))).perm
      apply List.perm_iff_count.mpr
      intro label
      simp only [branchLines, shown_append, shown_cons, shown_nil, Line.label?, Option.toList,
        List.count_append, List.count_cons, List.count_nil, Nat.add_assoc, Nat.reduceAdd]
      omega
  | whileDo _ _ ih ih' =>
      apply (Drawn.cons (Drawn.cons (ih.append ih'))).perm
      apply List.perm_iff_count.mpr
      intro label
      simp only [branchLines, shown_append, shown_cons, shown_nil, Line.label?, Option.toList,
        List.count_append, List.count_cons, List.count_nil, Nat.add_assoc, Nat.reduceAdd]
      omega

/-- Each label of a fragment is referred to once, besides by calls. -/
theorem aimed_perm (h : Fragment known counter lines final) : (aimed lines).Perm (shown lines) := by
  induction h with
  | plain h => rw [shown_eq_nil h, aimed_eq_nil h]
  | call => exact List.Perm.nil
  | append _ _ ih ih' =>
      rw [shown_append, aimed_append]
      exact ih.append ih'
  | text => exact List.Perm.refl _
  | ifThen _ _ ih ih' =>
      apply List.perm_iff_count.mpr
      intro label
      simp only [branchLines, shown_append, shown_cons, shown_nil, aimed_append, aimed_cons,
        aimed_nil, Line.label?, Line.aim?, Instruction.aim?, Option.toList, List.count_append,
        List.count_cons, List.count_nil, ih.count_eq, ih'.count_eq]
      omega
  | ifElse _ _ _ ih ih' ih'' =>
      apply List.perm_iff_count.mpr
      intro label
      simp only [branchLines, shown_append, shown_cons, shown_nil, aimed_append, aimed_cons,
        aimed_nil, Line.label?, Line.aim?, Instruction.aim?, Option.toList, List.count_append,
        List.count_cons, List.count_nil, ih.count_eq, ih'.count_eq, ih''.count_eq]
      omega
  | whileDo _ _ ih ih' =>
      apply List.perm_iff_count.mpr
      intro label
      simp only [branchLines, shown_append, shown_cons, shown_nil, aimed_append, aimed_cons,
        aimed_nil, Line.label?, Line.aim?, Instruction.aim?, Option.toList, List.count_append,
        List.count_cons, List.count_nil, ih.count_eq, ih'.count_eq]
      omega

/-- A fragment shows no label of a callable unit. -/
theorem isLocal (h : Fragment known counter lines final) :
    ∀ label ∈ shown lines, label.isLocal = true := by
  induction h with
  | plain h =>
      rw [shown_eq_nil h]
      exact fun _ hlabel => absurd hlabel List.not_mem_nil
  | call => exact fun _ hlabel => absurd hlabel List.not_mem_nil
  | append _ _ ih ih' =>
      rw [shown_append]
      exact List.forall_mem_append.mpr ⟨ih, ih'⟩
  | text => exact List.forall_mem_singleton.mpr rfl
  | ifThen _ _ ih ih' =>
      intro label hlabel
      simp only [branchLines, shown_append, shown_cons, shown_nil, Line.label?, Option.toList,
        List.nil_append, List.append_nil, List.mem_append, List.mem_singleton] at hlabel
      rcases hlabel with hlabel | hlabel | rfl
      · exact ih label hlabel
      · exact ih' label hlabel
      · rfl
  | ifElse _ _ _ ih ih' ih'' =>
      intro label hlabel
      simp only [branchLines, shown_append, shown_cons, shown_nil, Line.label?, Option.toList,
        List.nil_append, List.append_nil, List.mem_append, List.mem_singleton] at hlabel
      rcases hlabel with hlabel | hlabel | rfl | hlabel | rfl
      · exact ih label hlabel
      · exact ih' label hlabel
      · rfl
      · exact ih'' label hlabel
      · rfl
  | whileDo _ _ ih ih' =>
      intro label hlabel
      simp only [branchLines, shown_append, shown_cons, shown_nil, Line.label?, Option.toList,
        List.nil_append, List.append_nil, List.mem_append, List.mem_singleton] at hlabel
      rcases hlabel with rfl | hlabel | hlabel | rfl
      · rfl
      · exact ih label hlabel
      · exact ih' label hlabel
      · rfl

/-- Only what has a label is called. -/
theorem called_known (h : Fragment known counter lines final) :
    ∀ label ∈ called lines, label ∈ known ∨ label ∈ runtimeFunctions := by
  induction h with
  | plain h =>
      rw [called_eq_nil h]
      exact fun _ hlabel => absurd hlabel List.not_mem_nil
  | call h => exact List.forall_mem_singleton.mpr h
  | append _ _ ih ih' =>
      rw [called_append]
      exact List.forall_mem_append.mpr ⟨ih, ih'⟩
  | text => exact fun _ hlabel => absurd hlabel List.not_mem_nil
  | ifThen _ _ ih ih' =>
      simp only [branchLines, called_append, called_cons, called_nil, Line.callee?,
        Instruction.callee?, Option.toList, List.nil_append, List.append_nil]
      exact List.forall_mem_append.mpr ⟨ih, ih'⟩
  | ifElse _ _ _ ih ih' ih'' =>
      simp only [branchLines, called_append, called_cons, called_nil, Line.callee?,
        Instruction.callee?, Option.toList, List.nil_append, List.append_nil]
      exact List.forall_mem_append.mpr ⟨ih, List.forall_mem_append.mpr ⟨ih', ih''⟩⟩
  | whileDo _ _ ih ih' =>
      simp only [branchLines, called_append, called_cons, called_nil, Line.callee?,
        Instruction.callee?, Option.toList, List.nil_append, List.append_nil]
      exact List.forall_mem_append.mpr ⟨ih, ih'⟩

end Fragment

/-! ### Statements are fragments -/

section Statements

variable {env : Env} {known : List Label} {counter final : Nat} {lines : List Line}

theorem fragment_nil (counter : Nat) : Fragment known counter [] counter :=
  .plain fun _ h => absurd h List.not_mem_nil

/-- A line that neither shows a label nor refers to one, before a fragment. -/
theorem Fragment.cons {line : Line} (hline : line.IsPlain)
    (rest : Fragment known counter lines final) : Fragment known counter (line :: lines) final :=
  .append (.plain (List.forall_mem_singleton.mpr hline)) rest

theorem isPlain_operationLines (op : BinaryOp) : ∀ line ∈ operationLines op, line.IsPlain := by
  cases op <;> simp [operationLines, Line.IsPlain, Line.label?, Line.aim?, Line.callee?,
    Instruction.aim?, Instruction.callee?]

theorem isPlain_popLines (args : Nat) : ∀ line ∈ popLines args, line.IsPlain := by
  unfold popLines
  split
  · exact fun _ h => absurd h List.not_mem_nil
  · exact List.forall_mem_singleton.mpr ⟨rfl, rfl, rfl⟩

/-- The labels of routines are known. -/
theorem known_of_lookup {labels : RoutineLabels} {id : DeclId} {label : Label}
    (h : labels.lookup id = some label) : label ∈ labels.map Prod.snd := by
  induction labels with
  | nil => cases h
  | cons entry labels ih =>
      obtain ⟨key, found⟩ := entry
      rw [List.lookup_cons] at h
      split at h
      · obtain rfl := Option.some.inj h
        exact List.mem_cons_self
      · exact List.mem_cons_of_mem _ (ih h)

theorem Calls.fragment {id : DeclId} {args : Nat} {pushed written : Emit Unit}
    (h : Calls env id args pushed written counter lines final)
    (hknown : env.labels.map Prod.snd ⊆ known)
    (hpushed : ∀ {counter lines final}, pushed.Emits counter lines final () →
      Fragment known counter lines final)
    (hwritten : ∀ {counter lines final}, written.Emits counter lines final () →
      Fragment known counter lines final) : Fragment known counter lines final := by
  cases h with
  | builtin _ _ _ hemits => exact hwritten hemits
  | routine _ _ _ hlabel hemits =>
      apply Fragment.append (hpushed hemits)
      exact .append (.call (.inl (hknown (known_of_lookup hlabel))))
        (.plain (isPlain_popLines args))

theorem fragment_writeLines {function : Label} (h : function ∈ runtimeFunctions) :
    Fragment known counter (writeLines function) counter :=
  .cons ⟨rfl, rfl, rfl⟩ (.append (.call (.inr h)) (.cons ⟨rfl, rfl, rfl⟩ (fragment_nil counter)))

theorem fragment_pure (h : Emits (pure ()) counter lines final ()) :
    Fragment known counter lines final := by
  obtain ⟨rfl, rfl, -⟩ := emits_pure_iff.mp h
  exact fragment_nil _

theorem NameCode.fragment {ref : NameRef} {index : Emit Unit}
    (h : NameCode env ref index counter lines final) (hknown : env.labels.map Prod.snd ⊆ known)
    (hindex : ∀ {counter lines final}, index.Emits counter lines final () →
      Fragment known counter lines final) : Fragment known counter lines final := by
  cases h with
  | word _ _ _ _ hemits =>
      apply Fragment.append (hindex hemits)
      exact .cons ⟨rfl, rfl, rfl⟩ (.cons ⟨rfl, rfl, rfl⟩ (fragment_nil _))
  | number => exact .cons ⟨rfl, rfl, rfl⟩ (fragment_nil _)
  | function _ hcalls => exact hcalls.fragment hknown fragment_pure fragment_pure

mutual

/-- The code of an expression is a fragment. -/
theorem fragment_expr (hknown : env.labels.map Prod.snd ⊆ known) (expr : Expr)
    {counter final : Nat} {lines : List Line}
    (h : (Code.expr env expr).Emits counter lines final ()) :
    Fragment known counter lines final := by
  cases expr with
  | literal value line =>
      obtain ⟨rfl, rfl⟩ := emits_literal h
      exact .cons ⟨rfl, rfl, rfl⟩ (fragment_nil _)
  | name ref => exact (emits_name h).fragment hknown fragment_pure
  | element ref index => exact (emits_element h).fragment hknown (fragment_expr hknown index)
  | call ref args =>
      obtain ⟨id, -, hcalls⟩ := emits_callExpr h
      exact hcalls.fragment hknown (fragment_pushAll hknown args) (fragment_writeAll hknown args)
  | group inner line =>
      rw [Code.expr] at h
      exact fragment_expr hknown inner h
  | negation operand line =>
      obtain ⟨front, hoperand, rfl⟩ := emits_negation h
      exact (fragment_expr hknown operand hoperand).append (.cons ⟨rfl, rfl, rfl⟩ (fragment_nil _))
  | signed sign operand line =>
      cases sign with
      | plus =>
          rw [Code.expr] at h
          exact fragment_expr hknown operand h
      | minus =>
          obtain ⟨front, hoperand, rfl⟩ := emits_minus h
          exact (fragment_expr hknown operand hoperand).append
            (.cons ⟨rfl, rfl, rfl⟩ (fragment_nil _))
  | binary op left right =>
      obtain ⟨first, middle, second, hleft, hright, rfl⟩ := emits_binary h
      apply (fragment_expr hknown left hleft).append
      apply Fragment.cons ⟨rfl, rfl, rfl⟩
      apply (fragment_expr hknown right hright).append
      exact .cons ⟨rfl, rfl, rfl⟩ (.cons ⟨rfl, rfl, rfl⟩ (.plain (isPlain_operationLines op)))
  | comparison relation left right =>
      obtain ⟨first, middle, second, hleft, hright, rfl⟩ := emits_comparison h
      apply (fragment_expr hknown left hleft).append
      apply Fragment.cons ⟨rfl, rfl, rfl⟩
      apply (fragment_expr hknown right hright).append
      exact .cons ⟨rfl, rfl, rfl⟩ (.cons ⟨rfl, rfl, rfl⟩ (.cons ⟨rfl, rfl, rfl⟩
        (.cons ⟨rfl, rfl, rfl⟩ (fragment_nil _))))

theorem fragment_pushAll (hknown : env.labels.map Prod.snd ⊆ known) (args : List Expr)
    {counter final : Nat} {lines : List Line}
    (h : (pushAll env args).Emits counter lines final ()) : Fragment known counter lines final := by
  cases args with
  | nil =>
      obtain ⟨rfl, rfl⟩ := emits_pushAll_nil h
      exact fragment_nil _
  | cons arg others =>
      obtain ⟨first, middle, second, hothers, harg, rfl⟩ := emits_pushAll_cons h
      apply (fragment_pushAll hknown others hothers).append
      exact (fragment_expr hknown arg harg).append (.cons ⟨rfl, rfl, rfl⟩ (fragment_nil _))

theorem fragment_writeAll (hknown : env.labels.map Prod.snd ⊆ known) (args : List Expr)
    {counter final : Nat} {lines : List Line}
    (h : (writeAll env args).Emits counter lines final ()) :
    Fragment known counter lines final := by
  cases args with
  | nil =>
      obtain ⟨rfl, rfl⟩ := emits_writeAll_nil h
      exact fragment_nil _
  | cons arg others =>
      obtain ⟨first, middle, second, hwrite, hothers, rfl⟩ := emits_writeAll_cons h
      apply Fragment.append _ (fragment_writeAll hknown others hothers)
      cases hwrite with
      | text => exact (Fragment.text _).append (fragment_writeLines (by decide))
      | char _ harg =>
          exact (fragment_expr hknown arg harg).append (fragment_writeLines (by decide))
      | number _ _ harg =>
          exact (fragment_expr hknown arg harg).append (fragment_writeLines (by decide))

end

mutual

/-- The code of a statement is a fragment. -/
theorem fragment_statement (hknown : env.labels.map Prod.snd ⊆ known) (statement : Statement)
    {counter final : Nat} {lines : List Line}
    (h : (Code.statement env statement).Emits counter lines final ()) :
    Fragment known counter lines final := by
  cases statement with
  | assign target index value =>
      obtain ⟨first, middle, second, id, decl, layout, hvalue, hindex, -, -, -, rfl⟩ :=
        emits_assign h
      apply (fragment_expr hknown value hvalue).append
      apply Fragment.append _ (.cons ⟨rfl, rfl, rfl⟩ (.cons ⟨rfl, rfl, rfl⟩ (fragment_nil _)))
      cases hindex with
      | none => exact fragment_nil _
      | some hindex =>
          apply Fragment.cons ⟨rfl, rfl, rfl⟩
          exact (fragment_expr hknown _ hindex).append (.cons ⟨rfl, rfl, rfl⟩ (fragment_nil _))
  | compound body line =>
      rw [Code.statement] at h
      exact fragment_statements hknown body h
  | ifThen condition consequence line =>
      obtain ⟨first, middle, second, hcondition, hconsequence, rfl⟩ := emits_ifThen h
      exact .ifThen (fragment_expr hknown condition hcondition)
        (fragment_statement hknown consequence hconsequence)
  | ifElse condition consequence alternative line =>
      obtain ⟨first, middle, second, middle', third, hcondition, hconsequence, halternative, rfl⟩ :=
        emits_ifElse h
      exact .ifElse (fragment_expr hknown condition hcondition)
        (fragment_statement hknown consequence hconsequence)
        (fragment_statement hknown alternative halternative)
  | whileDo condition body line =>
      obtain ⟨first, middle, second, hcondition, hbody, rfl⟩ := emits_whileDo h
      exact .whileDo (fragment_expr hknown condition hcondition)
        (fragment_statement hknown body hbody)
  | call ref args =>
      obtain ⟨id, -, hcalls⟩ := emits_callStatement h
      exact hcalls.fragment hknown (fragment_pushAll hknown args) (fragment_writeAll hknown args)
  | empty line =>
      obtain ⟨rfl, rfl⟩ := emits_empty h
      exact fragment_nil _

theorem fragment_statements (hknown : env.labels.map Prod.snd ⊆ known) (body : List Statement)
    {counter final : Nat} {lines : List Line}
    (h : (statements env body).Emits counter lines final ()) :
    Fragment known counter lines final := by
  cases body with
  | nil =>
      obtain ⟨rfl, rfl⟩ := emits_statements_nil h
      exact fragment_nil _
  | cons first others =>
      obtain ⟨front, middle, back, rfl, hfirst, hothers⟩ := emits_statements_cons h
      exact (fragment_statement hknown first hfirst).append
        (fragment_statements hknown others hothers)

end

end Statements

end Code

end MiniPascal
