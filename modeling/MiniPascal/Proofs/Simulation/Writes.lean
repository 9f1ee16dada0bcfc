import MiniPascal.Proofs.Code.Labels
import MiniPascal.Proofs.Simulation.Expressions

/-!
# Arguments are written as they mean

The code that writes arguments gives each of them to the run-time function for its kind,
so the events are those of the arguments in order.
-/

namespace MiniPascal

open MiniPascal.Assembly
open MiniPascal.Code
open MiniPascal.Machine
open MiniPascal.Source

namespace Image

/-- Labels lead where they are shown, and the run-time functions are not among them. -/
structure Resolves (image : Image) : Prop where
  distinct : image.Distinct
  runtime : ∀ function ∈ runtimeFunctions, image.target? function = none

variable {image : Image} {start : Nat} {before : Machine}

/-- A run-time function writes the word on top of the stack. -/
theorem exists_writes_of_call (resolves : image.Resolves) {function : Label}
    (hfunction : function ∈ runtimeFunctions) {event : Event}
    (hevent : image.written? function.text before.top = some event) {comment : String}
    (placed : image.Placed start [.instruction none (.call function) comment]) :
    ∃ after, image.Runs start [.instruction none (.call function) comment] before after ∧
      Writes [event] before after := by
  have hcall : image.step ⟨start, before⟩ =
      (image.callRuntime function.text before).map (⟨start + 1, ·⟩) := by
    rw [step_instruction placed.head, execAt, resolves.runtime function hfunction]
  rw [callRuntime, hevent] at hcall
  refine ⟨_, .of_step hcall, ⟨rfl, rfl, rfl, ?_⟩⟩
  intro byte hbyte
  exact if_pos hbyte

/-- The word in `eax` is given to a run-time function. -/
theorem runs_writeLines (resolves : image.Resolves) {function : Label}
    (hfunction : function ∈ runtimeFunctions) {event : Event}
    (hevent : image.written? function.text before.eax = some event) (hroom : 4 ≤ before.esp.toNat)
    (placed : image.Placed start (writeLines function)) :
    ∃ after, image.Runs start (writeLines function) before after ∧
      Writes [event] before after := by
  obtain ⟨pushed, hpush, hsaved, -⟩ := exists_saved_of_push hroom before.eax
  have placedCall : image.Placed (start + 1) ([.instruction none (.call function) ""] ++
      [.instruction none (.arith .add (.immediate Frame.wordSize) .esp) "Pop parameter"]) :=
    placed.tail
  rw [← hsaved.top] at hevent
  obtain ⟨called, hcall, hwrites⟩ := exists_writes_of_call resolves hfunction hevent
    (placed_append.mp placedCall).1
  have hpop : called.exec (.arith .add (.immediate Frame.wordSize) .esp) =
      some { called.popped with compared? := none } := rfl
  exact ⟨_, .cons placed hpush (hcall.append (.exec placed.tail.tail hpop)),
    (hsaved.writes_of_popped hwrites).of_eq rfl rfl rfl rfl⟩

end Image

section Arguments

variable {image : Image} {env : Env} {names : Names} {scope : String → Option DeclId}
  {slots : List String} {block : BlockId} {frame : Nat} {store : Store} {before : Machine}

theorem argumentLiteral?_eq_none {tree : Tree} {ref : NameRef} {id : DeclId} {decl : Decl}
    (hid : ref.decl? = some id) (hdecl : tree.decls[id]? = some decl)
    (hkind : ∀ constant, decl.kind ≠ .constant constant) :
    tree.argumentLiteral? (.name ref) = none := by
  simp only [Tree.argumentLiteral?, hid, hdecl, Option.bind_eq_bind, Option.bind_some]

/-- An argument is a bare literal in the code if it is one in the source. -/
theorem argumentLiteral?_eq (agrees : Agrees env.tree slots scope names) {arg : Expr}
    (bound : ∀ use ∈ arg.uses, env.tree.Bound scope block use) :
    env.tree.argumentLiteral? arg = bareLiteral? names arg := by
  cases arg with
  | name ref =>
      obtain ⟨id, decl, hid, hscope, hdecl, -⟩ := bound _ List.mem_cons_self
      have hdenotes := agrees ref.name id hscope
      rw [bareLiteral?]
      cases hmeaning : names ref.name with
      | none =>
          rw [hmeaning] at hdenotes
          cases hdenotes
      | some meaning =>
          rw [hmeaning] at hdenotes
          cases hdenotes with
          | constant denotes => exact denotes.argumentLiteral?_eq hid
          | word found kind | typeName found kind | write found kind =>
              apply argumentLiteral?_eq_none hid found
              intro constant hconstant
              cases kind.symm.trans hconstant
  | literal | element | call | group | negation | signed | binary | comparison => rfl

/-- A value that is computed is given to a run-time function. -/
theorem Computes.exists_writes (resolves : image.Resolves) {start : Nat} {lines : List Line}
    {word : Word} (h : Computes image start lines before word) {function : Label}
    (hfunction : function ∈ runtimeFunctions) {event : Event}
    (hevent : image.written? function.text word = some event) (hroom : 4 ≤ before.esp.toNat)
    (placed : image.Placed (start + lines.length) (writeLines function)) :
    ∃ after, image.Runs start (lines ++ writeLines function) before after ∧
      Writes [event] before after := by
  obtain ⟨middle, hruns, rfl, hkeeps⟩ := h
  obtain ⟨after, hlast, hwrites⟩ := Image.runs_writeLines resolves hfunction hevent
    (hkeeps.esp ▸ hroom) placed
  exact ⟨after, hruns.append hlast, Writes.trans hkeeps hwrites⟩

/-- The address of a text is loaded. -/
theorem computes_textAddress {text : String} {number start : Nat}
    (placed : image.Placed start (textLines text number)) :
    Computes image start (textLines text number) before (image.datum (.numbered number)) := by
  rw [textLines] at placed ⊢
  have hload : image.step ⟨start + 1 + 1 + 1 + 1, before⟩ =
      some ⟨start + 1 + 1 + 1 + 1 + 1,
        { before with eax := image.datum (.numbered number) }⟩ := by
    rw [Image.step_instruction placed.tail.tail.tail.tail.head]
    rfl
  refine ⟨{ before with eax := image.datum (.numbered number) }, ?_, rfl,
    (Keeps.refl before).of_eq rfl rfl rfl rfl⟩
  apply Image.Runs.cons_skip placed (fun _ _ _ => Line.noConfusion)
  apply Image.Runs.cons_skip placed.tail (fun _ _ _ => Line.noConfusion)
  apply Image.Runs.cons_skip placed.tail.tail (fun _ _ _ => Line.noConfusion)
  apply Image.Runs.cons_skip placed.tail.tail.tail (fun _ _ _ => Line.noConfusion)
  exact .of_step hload

/-- The code of an argument writes what is written for it. -/
theorem exists_writes_of_writeCode (resolves : image.Resolves)
    (agrees : Agrees env.tree slots scope names) {arg : Expr} {counter final start : Nat}
    {lines : List Line} (hcode : WriteCode env arg counter lines final)
    (bound : ∀ use ∈ arg.uses, env.tree.Bound scope block use) {event : Event}
    (hevent : event? names store arg = some event) (placed : image.Placed start lines)
    (inFrame : InFrame frame slots store before)
    (hroom : 4 * max (exprDepth arg) 1 ≤ before.esp.toNat) :
    ∃ after, image.Runs start lines before after ∧ Writes [event] before after := by
  rw [event?, ← argumentLiteral?_eq agrees bound] at hevent
  cases hcode with
  | @text text counter htext =>
      rw [htext] at hevent
      obtain rfl := Option.some.inj hevent
      obtain ⟨placedText, placedWrite⟩ := Image.placed_append.mp placed
      have hfound := image.text_datum (.numbered (counter + 1)) text
        (List.mem_of_getElem? placedText.tail.head)
      apply (computes_textAddress placedText).exists_writes resolves (by decide) _ (by omega)
        placedWrite
      rw [← hfound]
      rfl
  | char hchar hemits =>
      rw [hchar] at hevent
      obtain ⟨word, hvalue, rfl⟩ := Option.map_eq_some_iff.mp hevent
      obtain ⟨placedArg, placedWrite⟩ := Image.placed_append.mp placed
      exact (computes_expr agrees arg hemits bound hvalue placedArg inFrame
        (by omega)).exists_writes resolves (by decide) rfl (by omega) placedWrite
  | number htext hchar hemits =>
      have hint : (value names store arg).map Event.int = some event := by
        split at hevent
        · next text heq => exact absurd heq (htext text)
        · next char heq => exact absurd heq (hchar char)
        · exact hevent
        · exact hevent
      obtain ⟨word, hvalue, rfl⟩ := Option.map_eq_some_iff.mp hint
      obtain ⟨placedArg, placedWrite⟩ := Image.placed_append.mp placed
      exact (computes_expr agrees arg hemits bound hvalue placedArg inFrame
        (by omega)).exists_writes resolves (by decide) rfl (by omega) placedWrite

theorem argsDepth_cons (arg : Expr) (args : List Expr) :
    argsDepth (arg :: args) = max (exprDepth arg) (argsDepth args) := rfl

theorem one_le_argsDepth (args : List Expr) : 1 ≤ argsDepth args := by
  induction args with
  | nil => exact Nat.le_refl 1
  | cons arg args ih => exact Nat.le_trans ih (Nat.le_max_right _ _)

/-- The code of arguments writes what is written for them, in order. -/
theorem exists_writes_of_writeAll (resolves : image.Resolves)
    (agrees : Agrees env.tree slots scope names) {args : List Expr} {counter final start : Nat}
    {lines : List Line} {before : Machine}
    (h : (writeAll env args).Emits counter lines final ())
    (bound : ∀ use ∈ Expr.usesAll args, env.tree.Bound scope block use) {events : List Event}
    (hevents : args.mapM (event? names store) = some events) (placed : image.Placed start lines)
    (inFrame : InFrame frame slots store before)
    (hroom : 4 * argsDepth args ≤ before.esp.toNat) :
    ∃ after, image.Runs start lines before after ∧ Writes events before after := by
  induction args generalizing counter lines start before events with
  | nil =>
      obtain ⟨rfl, -⟩ := emits_writeAll_nil h
      obtain rfl := Option.some.inj hevents
      exact ⟨before, .nil before, Keeps.refl before⟩
  | cons arg args ih =>
      obtain ⟨first, middle, second, hcode, hrest, rfl⟩ := emits_writeAll_cons h
      obtain ⟨hbound, hbounds⟩ := List.forall_mem_append.mp bound
      rw [List.mapM_cons] at hevents
      obtain ⟨event, hevent, hmore⟩ := Option.bind_eq_some_iff.mp hevents
      obtain ⟨others, hothers, hresult⟩ := Option.bind_eq_some_iff.mp hmore
      obtain rfl := Option.some.inj hresult
      obtain ⟨placedFirst, placedSecond⟩ := Image.placed_append.mp placed
      rw [argsDepth_cons] at hroom
      have hone := one_le_argsDepth args
      obtain ⟨written, hruns, hwrites⟩ := exists_writes_of_writeCode resolves agrees hcode hbound
        hevent placedFirst inFrame (by omega)
      obtain ⟨after, hlast, hwrites'⟩ := ih hrest hbounds hothers placedSecond
        (inFrame.of_writes hwrites) (by rw [hwrites.esp]; omega)
      exact ⟨after, hruns.append hlast, hwrites.trans hwrites'⟩

end Arguments

end MiniPascal
