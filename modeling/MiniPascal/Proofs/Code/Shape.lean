import MiniPascal.Code.Program
import MiniPascal.Proofs.Code.Emission

/-!
# The shape of code

What an emission that ended with a value has written, read off construct by
construct.  The pieces of a construct are emissions themselves, from the counter
where the one before them ended.
-/

namespace MiniPascal.Code

open MiniPascal.Assembly
open Emit

/-! ### Sequences -/

namespace Emit.Emits

variable {α β : Type} {counter final : Nat} {lines : List Line} {result : β}

theorem of_line_bind {text : Line} {next : Unit → Emit β}
    (h : (Emit.line text >>= next).Emits counter lines final result) :
    ∃ back, lines = text :: back ∧ (next ()).Emits counter back final result := by
  obtain ⟨_, _, _, back, hline, hnext, rfl⟩ := emits_bind_iff.mp h
  obtain ⟨rfl, rfl⟩ := emits_line_iff.mp hline
  exact ⟨back, rfl, hnext⟩

theorem of_ofExcept_bind {given : Except Fault α} {next : α → Emit β}
    (h : (ofExcept given >>= next).Emits counter lines final result) :
    ∃ value, given = .ok value ∧ (next value).Emits counter lines final result := by
  obtain ⟨_, _, value, back, hgiven, hnext, rfl⟩ := emits_bind_iff.mp h
  obtain ⟨rfl, rfl, hvalue⟩ := emits_ofExcept_iff.mp hgiven
  exact ⟨value, hvalue, hnext⟩

theorem of_freshNumber_bind {next : Nat → Emit β}
    (h : (freshNumber >>= next).Emits counter lines final result) :
    (next (counter + 1)).Emits (counter + 1) lines final result := by
  obtain ⟨_, _, _, back, hnumber, hnext, rfl⟩ := emits_bind_iff.mp h
  obtain ⟨rfl, rfl, rfl⟩ := emits_freshNumber_iff.mp hnumber
  exact hnext

theorem of_freshLabel_bind {next : Label → Emit β}
    (h : (freshLabel >>= next).Emits counter lines final result) :
    (next (.numbered (counter + 1))).Emits (counter + 1) lines final result := by
  obtain ⟨_, _, _, back, hlabel, hnext, rfl⟩ := emits_bind_iff.mp h
  obtain ⟨rfl, rfl, rfl⟩ := emits_freshLabel_iff.mp hlabel
  exact hnext

/-- A first part without a value. -/
theorem of_then {first : Emit Unit} {next : Unit → Emit β}
    (h : (first >>= next).Emits counter lines final result) :
    ∃ front middle back, lines = front ++ back ∧ first.Emits counter front middle () ∧
      (next ()).Emits middle back final result := by
  obtain ⟨front, middle, _, back, hfirst, hnext, rfl⟩ := emits_bind_iff.mp h
  exact ⟨front, middle, back, rfl, hfirst, hnext⟩

end Emit.Emits

section Shapes

variable {env : Env} {counter final : Nat} {lines : List Line}

/-! ### Words and calls -/

theorem emits_line {text : Line} (h : (Emit.line text).Emits counter lines final ()) :
    lines = [text] ∧ final = counter :=
  emits_line_iff.mp h

theorem storage_eq_ok_iff {decl : Decl} {layout : Layout} :
    storage decl = .ok layout ↔ decl.layout? = some layout := by
  unfold storage
  cases decl.layout? <;> simp

/-- A word is reached through the display word of its frame level. -/
theorem emits_load {decl : Decl} (h : (load decl).Emits counter lines final ()) :
    ∃ layout, decl.layout? = some layout ∧ final = counter ∧
      lines = [.instruction none (.move layout.base .edx) "",
        .instruction none (.move layout.slot .eax) decl.name] := by
  obtain ⟨layout, hlayout, h₁⟩ := h.of_ofExcept_bind
  obtain ⟨_, rfl, h₂⟩ := h₁.of_line_bind
  obtain ⟨rfl, rfl⟩ := emits_line h₂
  exact ⟨layout, storage_eq_ok_iff.mp hlayout, rfl, rfl⟩

theorem emits_store {decl : Decl} (h : (store decl).Emits counter lines final ()) :
    ∃ layout, decl.layout? = some layout ∧ final = counter ∧
      lines = [.instruction none (.move layout.base .edx) "",
        .instruction none (.move .eax layout.slot) (decl.name ++ " :=")] := by
  obtain ⟨layout, hlayout, h₁⟩ := h.of_ofExcept_bind
  obtain ⟨_, rfl, h₂⟩ := h₁.of_line_bind
  obtain ⟨rfl, rfl⟩ := emits_line h₂
  exact ⟨layout, storage_eq_ok_iff.mp hlayout, rfl, rfl⟩

def operationLines : BinaryOp → List Line
  | .add => [.instruction none (.arith .add .ecx .eax) "+"]
  | .subtract => [.instruction none (.arith .subtract .ecx .eax) "-"]
  | .or => [.instruction none (.arith .or .ecx .eax) "or"]
  | .multiply => [.instruction none (.arith .multiply .ecx .eax) "*"]
  | .divide => [.instruction none .signExtend "", .instruction none (.divide .ecx) "/"]
  | .modulo => [.instruction none .signExtend "", .instruction none (.divide .ecx) "",
      .instruction none (.move .edx .eax) "mod"]
  | .and => [.instruction none (.arith .and .ecx .eax) "and"]

theorem emits_operation {op : BinaryOp} (h : (operation op).Emits counter lines final ()) :
    lines = operationLines op ∧ final = counter := by
  cases op with
  | add | subtract | or | multiply | and => exact emits_line h
  | divide =>
      obtain ⟨_, rfl, h₁⟩ := h.of_line_bind
      obtain ⟨rfl, rfl⟩ := emits_line h₁
      exact ⟨rfl, rfl⟩
  | modulo =>
      obtain ⟨_, rfl, h₂⟩ := h.of_line_bind
      obtain ⟨_, rfl, h₃⟩ := h₂.of_line_bind
      obtain ⟨rfl, rfl⟩ := emits_line h₃
      exact ⟨rfl, rfl⟩

/-- The line that takes arguments off the stack, if there are any. -/
def popLines (args : Nat) : List Line :=
  if args = 0 then []
  else [.instruction none (.arith .add (.immediate (Frame.wordSize * args)) .esp) "Pop parameters"]

theorem emits_callAt {label : Label} {args : Nat}
    (h : (callAt label args).Emits counter lines final ()) :
    lines = .instruction none (.call label) "" :: popLines args ∧ final = counter := by
  obtain ⟨_, rfl, h₁⟩ := h.of_line_bind
  unfold popLines
  split at h₁
  · next hnone =>
      obtain ⟨rfl, rfl, -⟩ := emits_pure_iff.mp h₁
      rw [if_pos hnone]
      exact ⟨rfl, rfl⟩
  · next hsome =>
      obtain ⟨rfl, rfl⟩ := emits_line h₁
      rw [if_neg hsome]
      exact ⟨rfl, rfl⟩

/-- The library's routine is written out; any other is called at its label, with its
arguments on the stack. -/
inductive Calls (env : Env) (id : DeclId) (args : Nat) (pushed written : Emit Unit) :
    Nat → List Line → Nat → Prop
  | builtin {decl : Decl} {heading : Routine} {counter final : Nat} {lines : List Line}
      (hdecl : env.tree.decls[id]? = some decl) (hkind : decl.kind = .routine heading)
      (hbuiltin : heading.isBuiltin = true) (hwritten : written.Emits counter lines final ()) :
      Calls env id args pushed written counter lines final
  | routine {decl : Decl} {heading : Routine} {label : Label} {counter final : Nat}
      {lines : List Line} (hdecl : env.tree.decls[id]? = some decl)
      (hkind : decl.kind = .routine heading) (hbuiltin : heading.isBuiltin = false)
      (hlabel : env.labels.lookup id = some label)
      (hpushed : pushed.Emits counter lines final ()) :
      Calls env id args pushed written counter
        (lines ++ .instruction none (.call label) "" :: popLines args) final

theorem declared_eq_ok_iff {tree : Tree} {id : DeclId} {decl : Decl} :
    tree.declared id = .ok decl ↔ tree.decls[id]? = some decl := by
  unfold Tree.declared
  cases tree.decls[id]? <;> simp

theorem Calls.exists_decl {id : DeclId} {args : Nat} {pushed written : Emit Unit}
    (h : Calls env id args pushed written counter lines final) :
    ∃ decl, env.tree.decls[id]? = some decl := by
  cases h with
  | builtin hdecl | routine hdecl => exact ⟨_, hdecl⟩

/-- What is called is a routine. -/
theorem Calls.exists_routine {id : DeclId} {args : Nat} {pushed written : Emit Unit} {decl : Decl}
    (h : Calls env id args pushed written counter lines final)
    (hdecl : env.tree.decls[id]? = some decl) : ∃ heading, decl.kind = .routine heading := by
  cases h with
  | builtin hdecl' hkind | routine hdecl' hkind =>
      obtain rfl := Option.some.inj (hdecl'.symm.trans hdecl)
      exact ⟨_, hkind⟩

theorem emits_call {id : DeclId} {args : Nat} {pushed written : Emit Unit}
    (h : (call env id args pushed written).Emits counter lines final ()) :
    Calls env id args pushed written counter lines final := by
  obtain ⟨decl, hdecl, h₁⟩ := h.of_ofExcept_bind
  split at h₁
  · exact absurd h₁ not_emits_stop
  · next heading hheading =>
      have hkind := DeclKind.routine?_eq_some_iff.mp hheading
      have hdecl := declared_eq_ok_iff.mp hdecl
      split at h₁
      · next hbuiltin => exact .builtin hdecl hkind hbuiltin h₁
      · next hbuiltin =>
          obtain ⟨front, middle, back, rfl, hpushed, h₂⟩ := h₁.of_then
          split at h₂
          · next label hlabel =>
              obtain ⟨rfl, rfl⟩ := emits_callAt h₂
              exact .routine hdecl hkind (Bool.eq_false_iff.mpr hbuiltin) hlabel hpushed
          · exact absurd h₂ not_emits_stop

def textLines (text : String) (number : Nat) : List Line :=
  [.directive .dataSection, .datum (.numbered number) text, .directive (.align 2),
    .directive .textSection,
    .instruction none (.loadAddress (.numbered number) .eax) "Addr(text)"]

theorem emits_textAddress {text : String}
    (h : (textAddress text).Emits counter lines final ()) :
    lines = textLines text (counter + 1) ∧ final = counter + 1 := by
  obtain ⟨_, rfl, h₁⟩ := h.of_freshLabel_bind.of_line_bind
  obtain ⟨_, rfl, h₂⟩ := h₁.of_line_bind
  obtain ⟨_, rfl, h₃⟩ := h₂.of_line_bind
  obtain ⟨_, rfl, h₄⟩ := h₃.of_line_bind
  obtain ⟨rfl, rfl⟩ := emits_line h₄
  exact ⟨rfl, rfl⟩

def writeLines (function : Label) : List Line :=
  [.instruction none (.push .eax) "", .instruction none (.call function) "",
    .instruction none (.arith .add (.immediate Frame.wordSize) .esp) "Pop parameter"]

theorem emits_writeWith {function : Label}
    (h : (writeWith function).Emits counter lines final ()) :
    lines = writeLines function ∧ final = counter := by
  obtain ⟨_, rfl, h₁⟩ := h.of_line_bind
  obtain ⟨_, rfl, h₂⟩ := h₁.of_line_bind
  obtain ⟨rfl, rfl⟩ := emits_line h₂
  exact ⟨rfl, rfl⟩

/-! ### Names -/

theorem resolved_eq_ok_iff {ref : NameRef} {id : DeclId} :
    ref.resolved = .ok id ↔ ref.decl? = some id := by
  unfold NameRef.resolved
  cases ref.decl? <;> simp

/-- A name stands for the word of a variable, for a number, or for a call of a function. -/
inductive NameCode (env : Env) (ref : NameRef) (index : Emit Unit) :
    Nat → List Line → Nat → Prop
  | word {id : DeclId} {decl : Decl} {layout : Layout} {counter final : Nat} {lines : List Line}
      (hid : ref.decl? = some id) (hdecl : env.tree.decls[id]? = some decl)
      (hkind : (∃ type, decl.kind = .variableOf type) ∨ ∃ type, decl.kind = .parameter type)
      (hlayout : decl.layout? = some layout) (hindex : index.Emits counter lines final ()) :
      NameCode env ref index counter
        (lines ++ [.instruction none (.move layout.base .edx) "",
          .instruction none (.move layout.slot .eax) decl.name]) final
  | number {id : DeclId} {decl : Decl} {value : Int} {counter : Nat}
      (hid : ref.decl? = some id) (hdecl : env.tree.decls[id]? = some decl)
      (hvalue : env.tree.declValue decl = .ok value) :
      NameCode env ref index counter
        [.instruction none (.move (.immediate value) .eax) decl.name] counter
  | function {id : DeclId} {counter final : Nat} {lines : List Line}
      (hid : ref.decl? = some id)
      (hcalls : Calls env id 0 (pure ()) (pure ()) counter lines final) :
      NameCode env ref index counter lines final

theorem emits_nameValue {ref : NameRef} {index : Emit Unit}
    (h : (nameValue env ref index).Emits counter lines final ()) :
    NameCode env ref index counter lines final := by
  obtain ⟨id, hid, h₁⟩ := h.of_ofExcept_bind
  obtain ⟨decl, hdecl, h₂⟩ := h₁.of_ofExcept_bind
  have hid := resolved_eq_ok_iff.mp hid
  have hdecl := declared_eq_ok_iff.mp hdecl
  cases hkind : decl.kind with
  | variableOf type =>
      rw [hkind] at h₂
      obtain ⟨front, middle, back, rfl, hindex, h₃⟩ := h₂.of_then
      obtain ⟨layout, hlayout, rfl, rfl⟩ := emits_load h₃
      exact .word hid hdecl (.inl ⟨type, hkind⟩) hlayout hindex
  | parameter type =>
      rw [hkind] at h₂
      obtain ⟨front, middle, back, rfl, hindex, h₃⟩ := h₂.of_then
      obtain ⟨layout, hlayout, rfl, rfl⟩ := emits_load h₃
      exact .word hid hdecl (.inr ⟨type, hkind⟩) hlayout hindex
  | constant | enumLiteral =>
      rw [hkind] at h₂
      obtain ⟨value, hvalue, h₄⟩ := h₂.of_ofExcept_bind
      obtain ⟨rfl, rfl⟩ := emits_line h₄
      exact .number hid hdecl hvalue
  | routine heading =>
      simp only [hkind] at h₂
      split at h₂
      · exact .function hid (emits_call h₂)
      · exact absurd h₂ not_emits_stop
  | type =>
      rw [hkind] at h₂
      exact absurd h₂ not_emits_stop

/-! ### Expressions -/

theorem emits_literal {value : Literal} {line : Nat}
    (h : (expr env (.literal value line)).Emits counter lines final ()) :
    lines = [.instruction none (.move (.immediate value.value) .eax) ""] ∧ final = counter := by
  rw [expr] at h
  exact emits_line h

theorem emits_name {ref : NameRef} (h : (expr env (.name ref)).Emits counter lines final ()) :
    NameCode env ref (pure ()) counter lines final := by
  rw [expr] at h
  exact emits_nameValue h

theorem emits_element {ref : NameRef} {index : Expr}
    (h : (expr env (.element ref index)).Emits counter lines final ()) :
    NameCode env ref (expr env index) counter lines final := by
  rw [expr] at h
  exact emits_nameValue h

theorem emits_callExpr {ref : NameRef} {args : List Expr}
    (h : (expr env (.call ref args)).Emits counter lines final ()) :
    ∃ id, ref.decl? = some id ∧
      Calls env id args.length (pushAll env args) (writeAll env args) counter lines final := by
  rw [expr] at h
  obtain ⟨id, hid, h₁⟩ := h.of_ofExcept_bind
  exact ⟨id, resolved_eq_ok_iff.mp hid, emits_call h₁⟩

theorem emits_negation {operand : Expr} {line : Nat}
    (h : (expr env (.negation operand line)).Emits counter lines final ()) :
    ∃ front, (expr env operand).Emits counter front final () ∧
      lines = front ++ [.instruction none (.arith .xor (.immediate 1) .eax) "not"] := by
  rw [expr] at h
  obtain ⟨front, middle, back, rfl, hoperand, h₁⟩ := h.of_then
  obtain ⟨rfl, rfl⟩ := emits_line h₁
  exact ⟨front, hoperand, rfl⟩

theorem emits_minus {operand : Expr} {line : Nat}
    (h : (expr env (.signed .minus operand line)).Emits counter lines final ()) :
    ∃ front, (expr env operand).Emits counter front final () ∧
      lines = front ++ [.instruction none (.negate .eax) "- (prefix)"] := by
  rw [expr] at h
  obtain ⟨front, middle, back, rfl, hoperand, h₁⟩ := h.of_then
  obtain ⟨rfl, rfl⟩ := emits_line h₁
  exact ⟨front, hoperand, rfl⟩

/-- The left operand waits on the stack for the right one. -/
theorem emits_binary {op : BinaryOp} {left right : Expr}
    (h : (expr env (.binary op left right)).Emits counter lines final ()) :
    ∃ first middle second, (expr env left).Emits counter first middle () ∧
      (expr env right).Emits middle second final () ∧
      lines = first ++ .instruction none (.push .eax) "" ::
        (second ++ .instruction none (.move .eax .ecx) "" ::
          .instruction none (.pop .eax) "" :: operationLines op) := by
  rw [expr] at h
  obtain ⟨first, middle, _, rfl, hleft, h₁⟩ := h.of_then
  obtain ⟨_, rfl, h₂⟩ := h₁.of_line_bind
  obtain ⟨second, _, _, rfl, hright, h₃⟩ := h₂.of_then
  obtain ⟨_, rfl, h₄⟩ := h₃.of_line_bind
  obtain ⟨_, rfl, h₅⟩ := h₄.of_line_bind
  obtain ⟨rfl, rfl⟩ := emits_operation h₅
  exact ⟨first, middle, second, hleft, hright, rfl⟩

def comparisonLines (relation : Relation) : List Line :=
  [.instruction none (.pop .ecx) "", .instruction none (.compare .eax .ecx) "",
    .instruction none (.move (.immediate 0) .eax) "",
    .instruction none (.storeCondition relation (.register .al)) "Test"]

theorem emits_comparison {relation : Relation} {left right : Expr}
    (h : (expr env (.comparison relation left right)).Emits counter lines final ()) :
    ∃ first middle second, (expr env left).Emits counter first middle () ∧
      (expr env right).Emits middle second final () ∧
      lines = first ++ .instruction none (.push .eax) "" ::
        (second ++ comparisonLines relation) := by
  rw [expr] at h
  obtain ⟨first, middle, _, rfl, hleft, h₁⟩ := h.of_then
  obtain ⟨_, rfl, h₂⟩ := h₁.of_line_bind
  obtain ⟨second, _, _, rfl, hright, h₃⟩ := h₂.of_then
  obtain ⟨_, rfl, h₄⟩ := h₃.of_line_bind
  obtain ⟨_, rfl, h₅⟩ := h₄.of_line_bind
  obtain ⟨_, rfl, h₆⟩ := h₅.of_line_bind
  obtain ⟨rfl, rfl⟩ := emits_line h₆
  exact ⟨first, middle, second, hleft, hright, rfl⟩

/-! ### Arguments -/

theorem emits_pushAll_nil (h : (pushAll env []).Emits counter lines final ()) :
    lines = [] ∧ final = counter := by
  rw [pushAll] at h
  obtain ⟨rfl, rfl, -⟩ := emits_pure_iff.mp h
  exact ⟨rfl, rfl⟩

theorem emits_pushAll_cons {arg : Expr} {others : List Expr}
    (h : (pushAll env (arg :: others)).Emits counter lines final ()) :
    ∃ first middle second, (pushAll env others).Emits counter first middle () ∧
      (expr env arg).Emits middle second final () ∧
      lines = first ++ (second ++ [.instruction none (.push .eax) ""]) := by
  rw [pushAll] at h
  obtain ⟨first, middle, _, rfl, hothers, h₁⟩ := h.of_then
  obtain ⟨second, _, _, rfl, harg, h₂⟩ := h₁.of_then
  obtain ⟨rfl, rfl⟩ := emits_line h₂
  exact ⟨first, middle, second, hothers, harg, rfl⟩

/-- An argument is written as a text, a character or a number. -/
inductive WriteCode (env : Env) (arg : Expr) : Nat → List Line → Nat → Prop
  | text {text : String} {counter : Nat}
      (htext : env.tree.argumentLiteral? arg = some (.text text)) :
      WriteCode env arg counter (textLines text (counter + 1) ++ writeLines writeString)
        (counter + 1)
  | char {char : Char} {counter final : Nat} {lines : List Line}
      (hchar : env.tree.argumentLiteral? arg = some (.char char))
      (harg : (expr env arg).Emits counter lines final ()) :
      WriteCode env arg counter (lines ++ writeLines writeChar) final
  | number {counter final : Nat} {lines : List Line}
      (htext : ∀ text, env.tree.argumentLiteral? arg ≠ some (.text text))
      (hchar : ∀ char, env.tree.argumentLiteral? arg ≠ some (.char char))
      (harg : (expr env arg).Emits counter lines final ()) :
      WriteCode env arg counter (lines ++ writeLines writeInt) final

theorem emits_writeAll_nil (h : (writeAll env []).Emits counter lines final ()) :
    lines = [] ∧ final = counter := by
  rw [writeAll] at h
  obtain ⟨rfl, rfl, -⟩ := emits_pure_iff.mp h
  exact ⟨rfl, rfl⟩

theorem emits_writeAll_cons {arg : Expr} {others : List Expr}
    (h : (writeAll env (arg :: others)).Emits counter lines final ()) :
    ∃ first middle second, WriteCode env arg counter first middle ∧
      (writeAll env others).Emits middle second final () ∧ lines = first ++ second := by
  rw [writeAll] at h
  split at h
  · next text htext =>
      obtain ⟨_, _, _, rfl, haddress, h₁⟩ := h.of_then
      obtain ⟨_, middle, second, rfl, hwrite, h₂⟩ := h₁.of_then
      obtain ⟨rfl, rfl⟩ := emits_textAddress haddress
      obtain ⟨rfl, rfl⟩ := emits_writeWith hwrite
      exact ⟨_, _, second, .text htext, h₂, (List.append_assoc _ _ _).symm⟩
  · next char hchar =>
      obtain ⟨first, _, _, rfl, harg, h₃⟩ := h.of_then
      obtain ⟨_, middle, second, rfl, hwrite, h₄⟩ := h₃.of_then
      obtain ⟨rfl, rfl⟩ := emits_writeWith hwrite
      exact ⟨_, _, second, .char hchar harg, h₄, (List.append_assoc _ _ _).symm⟩
  · next htext hchar =>
      obtain ⟨first, _, _, rfl, harg, h₅⟩ := h.of_then
      obtain ⟨_, middle, second, rfl, hwrite, h₆⟩ := h₅.of_then
      obtain ⟨rfl, rfl⟩ := emits_writeWith hwrite
      exact ⟨_, _, second, .number htext hchar harg, h₆, (List.append_assoc _ _ _).symm⟩

/-! ### Statements -/

def branchLines (target : Label) : List Line :=
  [.instruction none (.compare (.immediate 0) .eax) "",
    .instruction none (.jumpIfEqual target) ""]

theorem emits_branchIfZero {target : Label}
    (h : (branchIfZero target).Emits counter lines final ()) :
    lines = branchLines target ∧ final = counter := by
  obtain ⟨_, rfl, h₁⟩ := h.of_line_bind
  obtain ⟨rfl, rfl⟩ := emits_line h₁
  exact ⟨rfl, rfl⟩

/-- An index is computed after the value, which waits on the stack. -/
inductive IndexCode (env : Env) : Option Expr → Nat → List Line → Nat → Prop
  | none {counter : Nat} : IndexCode env none counter [] counter
  | some {index : Expr} {counter final : Nat} {lines : List Line}
      (hindex : (expr env index).Emits counter lines final ()) :
      IndexCode env (some index) counter (.instruction none (.push .eax) "" ::
        (lines ++ [.instruction none (.pop .eax) ""])) final

theorem emits_assign {target : NameRef} {index : Option Expr} {value : Expr}
    (h : (statement env (.assign target index value)).Emits counter lines final ()) :
    ∃ first middle second id decl layout, (expr env value).Emits counter first middle () ∧
      IndexCode env index middle second final ∧ target.decl? = some id ∧
      env.tree.decls[id]? = some decl ∧ decl.layout? = some layout ∧
      lines = first ++ (second ++ [.instruction none (.move layout.base .edx) "",
        .instruction none (.move .eax layout.slot) (decl.name ++ " :=")]) := by
  have hstored : ∀ {counter final : Nat} {lines : List Line},
      Emits (ofExcept target.resolved >>= fun id => ofExcept (env.tree.declared id) >>= store)
        counter lines final () →
      ∃ id decl layout, target.decl? = some id ∧ env.tree.decls[id]? = some decl ∧
        decl.layout? = some layout ∧ final = counter ∧
        lines = [.instruction none (.move layout.base .edx) "",
          .instruction none (.move .eax layout.slot) (decl.name ++ " :=")] := by
    intro counter final lines h
    obtain ⟨id, hid, h₁⟩ := h.of_ofExcept_bind
    obtain ⟨decl, hdecl, h₂⟩ := h₁.of_ofExcept_bind
    obtain ⟨layout, hlayout, hfinal, hlines⟩ := emits_store h₂
    exact ⟨id, decl, layout, resolved_eq_ok_iff.mp hid, declared_eq_ok_iff.mp hdecl, hlayout,
      hfinal, hlines⟩
  rw [statement] at h
  obtain ⟨first, middle, _, rfl, hvalue, h₃⟩ := h.of_then
  cases index with
  | none =>
      obtain ⟨id, decl, layout, hid, hdecl, hlayout, rfl, rfl⟩ := hstored h₃
      exact ⟨first, _, [], id, decl, layout, hvalue, .none, hid, hdecl, hlayout, rfl⟩
  | some index =>
      obtain ⟨_, rfl, h₄⟩ := h₃.of_line_bind
      obtain ⟨second, _, _, rfl, hindex, h₅⟩ := h₄.of_then
      obtain ⟨_, rfl, h₆⟩ := h₅.of_line_bind
      obtain ⟨id, decl, layout, hid, hdecl, hlayout, rfl, rfl⟩ := hstored h₆
      refine ⟨first, middle, _, id, decl, layout, hvalue, .some hindex, hid, hdecl, hlayout, ?_⟩
      rw [List.cons_append, List.append_assoc]
      rfl

theorem emits_ifThen {condition : Expr} {consequence : Statement} {line : Nat}
    (h : (statement env (.ifThen condition consequence line)).Emits counter lines final ()) :
    ∃ first middle second, (expr env condition).Emits (counter + 1) first middle () ∧
      (statement env consequence).Emits middle second final () ∧
      lines = first ++ (branchLines (.numbered (counter + 1)) ++
        (second ++ [.label (.numbered (counter + 1))])) := by
  rw [statement] at h
  obtain ⟨first, middle, _, rfl, hcondition, h₁⟩ := h.of_freshLabel_bind.of_then
  obtain ⟨_, _, _, rfl, hbranch, h₂⟩ := h₁.of_then
  obtain ⟨rfl, rfl⟩ := emits_branchIfZero hbranch
  obtain ⟨second, _, _, rfl, hconsequence, h₃⟩ := h₂.of_then
  obtain ⟨rfl, rfl⟩ := emits_line h₃
  exact ⟨first, _, second, hcondition, hconsequence, rfl⟩

theorem emits_ifElse {condition : Expr} {consequence alternative : Statement} {line : Nat}
    (h : (statement env (.ifElse condition consequence alternative line)).Emits
      counter lines final ()) :
    ∃ first middle second middle' third, (expr env condition).Emits (counter + 2) first middle () ∧
      (statement env consequence).Emits middle second middle' () ∧
      (statement env alternative).Emits middle' third final () ∧
      lines = first ++ (branchLines (.numbered (counter + 1)) ++
        (second ++ .instruction none (.jump (.numbered (counter + 2))) "" ::
          .label (.numbered (counter + 1)) ::
            (third ++ [.label (.numbered (counter + 2))]))) := by
  rw [statement] at h
  obtain ⟨first, middle, _, rfl, hcondition, h₁⟩ :=
    h.of_freshLabel_bind.of_freshLabel_bind.of_then
  obtain ⟨_, _, _, rfl, hbranch, h₂⟩ := h₁.of_then
  obtain ⟨rfl, rfl⟩ := emits_branchIfZero hbranch
  obtain ⟨second, middle', _, rfl, hconsequence, h₃⟩ := h₂.of_then
  obtain ⟨_, rfl, h₄⟩ := h₃.of_line_bind
  obtain ⟨_, rfl, h₅⟩ := h₄.of_line_bind
  obtain ⟨third, _, _, rfl, halternative, h₆⟩ := h₅.of_then
  obtain ⟨rfl, rfl⟩ := emits_line h₆
  exact ⟨first, _, second, middle', third, hcondition, hconsequence, halternative, rfl⟩

theorem emits_whileDo {condition : Expr} {body : Statement} {line : Nat}
    (h : (statement env (.whileDo condition body line)).Emits counter lines final ()) :
    ∃ first middle second, (expr env condition).Emits (counter + 2) first middle () ∧
      (statement env body).Emits middle second final () ∧
      lines = .label (.numbered (counter + 1)) :: (first ++
        (branchLines (.numbered (counter + 2)) ++
          (second ++ [.instruction none (.jump (.numbered (counter + 1))) "",
            .label (.numbered (counter + 2))]))) := by
  rw [statement] at h
  obtain ⟨_, rfl, h₁⟩ := h.of_freshLabel_bind.of_freshLabel_bind.of_line_bind
  obtain ⟨first, middle, _, rfl, hcondition, h₂⟩ := h₁.of_then
  obtain ⟨_, _, _, rfl, hbranch, h₃⟩ := h₂.of_then
  obtain ⟨rfl, rfl⟩ := emits_branchIfZero hbranch
  obtain ⟨second, _, _, rfl, hbody, h₄⟩ := h₃.of_then
  obtain ⟨_, rfl, h₅⟩ := h₄.of_line_bind
  obtain ⟨rfl, rfl⟩ := emits_line h₅
  exact ⟨first, _, second, hcondition, hbody, rfl⟩

theorem emits_callStatement {ref : NameRef} {args : List Expr}
    (h : (statement env (.call ref args)).Emits counter lines final ()) :
    ∃ id, ref.decl? = some id ∧
      Calls env id args.length (pushAll env args) (writeAll env args) counter lines final := by
  rw [statement] at h
  obtain ⟨id, hid, h₁⟩ := h.of_ofExcept_bind
  exact ⟨id, resolved_eq_ok_iff.mp hid, emits_call h₁⟩

theorem emits_empty {line : Nat} (h : (statement env (.empty line)).Emits counter lines final ()) :
    lines = [] ∧ final = counter := by
  rw [statement] at h
  obtain ⟨rfl, rfl, -⟩ := emits_pure_iff.mp h
  exact ⟨rfl, rfl⟩

theorem emits_statements_nil (h : (statements env []).Emits counter lines final ()) :
    lines = [] ∧ final = counter := by
  rw [statements] at h
  obtain ⟨rfl, rfl, -⟩ := emits_pure_iff.mp h
  exact ⟨rfl, rfl⟩

theorem emits_statements_cons {first : Statement} {others : List Statement}
    (h : (statements env (first :: others)).Emits counter lines final ()) :
    ∃ front middle back, lines = front ++ back ∧
      (statement env first).Emits counter front middle () ∧
      (statements env others).Emits middle back final () := by
  rw [statements] at h
  exact h.of_then

/-! ### Bodies -/

def resultLines (isFunction : Bool) : List Line :=
  if isFunction then
    [.instruction none (.move (.memory Frame.resultOffset .ebp) .eax) "Fetch return value"]
  else []

theorem emits_framedBody {name : String} {isFunction : Bool} {label : Label} {body : Block}
    (h : (framedBody env name isFunction label body).Emits counter lines final ()) :
    ∃ code, (statements env body.statements).Emits counter code final () ∧
      lines = .instruction (some label) (.enter (Frame.size body.frameBytes) body.frameLevel)
          ("Start of " ++ name) ::
        (code ++ (resultLines isFunction ++ [.instruction none .leave "",
          .instruction none .ret ("End of " ++ name)])) := by
  obtain ⟨_, rfl, h₁⟩ := h.of_line_bind
  obtain ⟨code, _, _, rfl, hcode, h₂⟩ := h₁.of_then
  unfold resultLines
  split at h₂
  · next hfunction =>
      obtain ⟨_, rfl, h₃⟩ := h₂.of_line_bind
      obtain ⟨_, rfl, h₄⟩ := h₃.of_line_bind
      obtain ⟨rfl, rfl⟩ := emits_line h₄
      rw [if_pos hfunction]
      exact ⟨code, hcode, rfl⟩
  · next hprocedure =>
      obtain ⟨_, rfl, h₅⟩ := h₂.of_line_bind
      obtain ⟨rfl, rfl⟩ := emits_line h₅
      rw [if_neg hprocedure]
      exact ⟨code, hcode, rfl⟩

/-- The result of a function without a frame of its own lies in the frame around it. -/
inductive SharedResult (decl : Decl) : Bool → List Line → Prop
  | procedure : SharedResult decl false []
  | function {layout : Layout} (hlayout : decl.layout? = some layout) :
      SharedResult decl true [.instruction none (.move layout.base .edx) "",
        .instruction none (.move layout.slot .eax) "Fetch return value"]

theorem emits_inlineBody {decl : Decl} {isFunction : Bool} {label : Label} {body : Block}
    (h : (inlineBody env decl isFunction label body).Emits counter lines final ()) :
    ∃ code result, (statements env body.statements).Emits counter code final () ∧
      SharedResult decl isFunction result ∧
      lines = .label label ::
        (code ++ (result ++ [.instruction none .ret ("End of " ++ decl.name)])) := by
  obtain ⟨_, rfl, h₁⟩ := h.of_line_bind
  obtain ⟨code, _, _, rfl, hcode, h₂⟩ := h₁.of_then
  cases isFunction with
  | true =>
      obtain ⟨layout, hlayout, h₃⟩ := Emits.of_ofExcept_bind h₂
      obtain ⟨_, rfl, h₄⟩ := h₃.of_line_bind
      obtain ⟨_, rfl, h₅⟩ := h₄.of_line_bind
      obtain ⟨rfl, rfl⟩ := emits_line h₅
      exact ⟨code, _, hcode, .function (storage_eq_ok_iff.mp hlayout), rfl⟩
  | false =>
      obtain ⟨rfl, rfl⟩ := emits_line h₂
      exact ⟨code, [], hcode, .procedure, rfl⟩

def entryLines (program : Label) : List Line :=
  [.directive (.external writeChar.text), .directive (.external writeInt.text),
    .directive (.external writeString.text), .directive (.global "_main"),
    .directive (.global "main"), .label (.global "_main"),
    .instruction (some (.global "main")) (.call program) "Start program",
    .instruction none (.move (.immediate 0) .eax) "Set status 0 and",
    .instruction none .ret "terminate the program"]

theorem emits_entry {program : Label} (h : (entry program).Emits counter lines final ()) :
    lines = entryLines program ∧ final = counter := by
  obtain ⟨_, rfl, h₁⟩ := h.of_line_bind
  obtain ⟨_, rfl, h₂⟩ := h₁.of_line_bind
  obtain ⟨_, rfl, h₃⟩ := h₂.of_line_bind
  obtain ⟨_, rfl, h₄⟩ := h₃.of_line_bind
  obtain ⟨_, rfl, h₅⟩ := h₄.of_line_bind
  obtain ⟨_, rfl, h₆⟩ := h₅.of_line_bind
  obtain ⟨_, rfl, h₇⟩ := h₆.of_line_bind
  obtain ⟨_, rfl, h₈⟩ := h₇.of_line_bind
  obtain ⟨rfl, rfl⟩ := emits_line h₈
  exact ⟨rfl, rfl⟩

end Shapes

/-! ### Routines -/

section Routines

variable {tree : Tree} {inside : BlockId → RoutineLabels → Emit RoutineLabels}
variable {labels labels' : RoutineLabels} {counter final : Nat} {lines : List Line}

theorem blockOf_eq_ok_iff {id : BlockId} {block : Block} :
    blockOf tree id = .ok block ↔ tree.blocks[id]? = some block := by
  unfold blockOf
  cases tree.blocks[id]? <;> simp

/-- The code of a routine's body, with a frame of its own or without one. -/
inductive BodyCode (env : Env) (decl : Decl) (heading : Routine) (bodyId : BlockId)
    (label : Label) : Nat → List Line → Nat → Prop
  | framed {body : Block} {counter final : Nat} {lines : List Line}
      (hbody : env.tree.blocks[bodyId]? = some body) (howns : body.ownsFrame bodyId = true)
      (hcode : (framedBody env decl.name heading.isFunction label body).Emits
        counter lines final ()) :
      BodyCode env decl heading bodyId label counter lines final
  | shared {body : Block} {counter final : Nat} {lines : List Line}
      (hbody : env.tree.blocks[bodyId]? = some body) (hshares : body.ownsFrame bodyId = false)
      (hcode : (inlineBody env decl heading.isFunction label body).Emits
        counter lines final ()) :
      BodyCode env decl heading bodyId label counter lines final

/-- The routines inside a routine come first. -/
theorem emits_routine {id : DeclId}
    (h : (routine inside tree id labels).Emits counter lines final labels') :
    ∃ decl heading bodyId label front middle back, tree.decls[id]? = some decl ∧
      decl.kind = .routine heading ∧ heading.body = some bodyId ∧
      (inside bodyId labels).Emits counter front middle labels' ∧
      labels'.lookup id = some label ∧
      BodyCode { tree, labels := labels' } decl heading bodyId label middle back final ∧
      lines = front ++ back := by
  obtain ⟨decl, hdecl, h₁⟩ := h.of_ofExcept_bind
  split at h₁
  · exact absurd h₁ not_emits_stop
  · next heading hheading =>
      split at h₁
      · exact absurd h₁ not_emits_stop
      · next bodyId hbodyId =>
          obtain ⟨front, middle, found, _, hinside, h₂, rfl⟩ := emits_bind_iff.mp h₁
          split at h₂
          · exact absurd h₂ not_emits_stop
          · next label hlabel =>
              obtain ⟨body, hbody, h₃⟩ := h₂.of_ofExcept_bind
              have hbody := blockOf_eq_ok_iff.mp hbody
              split at h₃
              · next howns =>
                  obtain ⟨back, _, _, rfl, hcode, h₄⟩ := h₃.of_then
                  obtain ⟨rfl, rfl, rfl⟩ := emits_pure_iff.mp h₄
                  rw [List.append_nil]
                  exact ⟨decl, heading, bodyId, label, front, middle, back,
                    declared_eq_ok_iff.mp hdecl, DeclKind.routine?_eq_some_iff.mp hheading,
                    hbodyId, hinside, hlabel, .framed hbody howns hcode, rfl⟩
              · next hshares =>
                  obtain ⟨back, _, _, rfl, hcode, h₅⟩ := h₃.of_then
                  obtain ⟨rfl, rfl, rfl⟩ := emits_pure_iff.mp h₅
                  rw [List.append_nil]
                  exact ⟨decl, heading, bodyId, label, front, middle, back,
                    declared_eq_ok_iff.mp hdecl, DeclKind.routine?_eq_some_iff.mp hheading,
                    hbodyId, hinside, hlabel,
                    .shared hbody (Bool.eq_false_iff.mpr hshares) hcode, rfl⟩

theorem emits_labelRoutines_cons {id : DeclId} {ids : List DeclId}
    (h : (labelRoutines tree labels (id :: ids)).Emits counter lines final labels') :
    ∃ decl, tree.decls[id]? = some decl ∧
      (labelRoutines tree ((id, .unit (labelStem decl.kind) decl.name (counter + 1)) :: labels)
        ids).Emits (counter + 1) lines final labels' := by
  obtain ⟨decl, hdecl, h₁⟩ := h.of_ofExcept_bind
  exact ⟨decl, declared_eq_ok_iff.mp hdecl, h₁.of_freshNumber_bind⟩

/-- Drawing labels writes nothing. -/
theorem lines_labelRoutines {ids : List DeclId}
    (h : (labelRoutines tree labels ids).Emits counter lines final labels') : lines = [] := by
  induction ids generalizing labels counter with
  | nil => exact (emits_pure_iff.mp h).1
  | cons id ids ih =>
      obtain ⟨decl, -, hothers⟩ := emits_labelRoutines_cons h
      exact ih hothers

/-- The routines of a block have their labels before any of their code. -/
theorem emits_blockRoutines {depth : Nat} {id : BlockId}
    (h : (blockRoutines tree depth id labels).Emits counter lines final labels') :
    ∃ depth' block middle between, depth = depth' + 1 ∧ tree.blocks[id]? = some block ∧
      (labelRoutines tree labels block.routines).Emits counter [] middle between ∧
      (routines (blockRoutines tree depth') tree block.routines between).Emits
        middle lines final labels' := by
  cases depth with
  | zero => exact absurd h not_emits_stop
  | succ depth =>
      obtain ⟨block, hblock, h₁⟩ := h.of_ofExcept_bind
      obtain ⟨front, middle, between, back, hlabels, h₂, rfl⟩ := emits_bind_iff.mp h₁
      obtain rfl : front = [] := lines_labelRoutines hlabels
      exact ⟨depth, block, middle, between, rfl, blockOf_eq_ok_iff.mp hblock, hlabels, h₂⟩

end Routines

end MiniPascal.Code
