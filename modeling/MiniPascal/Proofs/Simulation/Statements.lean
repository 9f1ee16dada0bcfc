import MiniPascal.Proofs.Simulation.Writes

/-!
# Statements run as they mean

A statement that ends in the source ends in the code as well, in front of the line after
its code: the words of the variables are those of the store at the end, and the events
are the same.  The stack is as high as before, and nothing above the frame has changed.
-/

namespace MiniPascal

open MiniPascal.Assembly
open MiniPascal.Code
open MiniPascal.Machine
open MiniPascal.Source

namespace Machine

variable {frame : Nat} {before middle after : Machine} {events events' : List Event}

/-- Events were written, and nothing from the frame on was changed. -/
structure Performs (frame : Nat) (events : List Event) (before after : Machine) : Prop where
  ebp : after.ebp = before.ebp
  esp : after.esp = before.esp
  trace : after.trace = before.trace ++ events
  memory : ∀ byte, frame ≤ byte → after.memory byte = before.memory byte

theorem Performs.refl (frame : Nat) (machine : Machine) : Performs frame [] machine machine :=
  ⟨rfl, rfl, (List.append_nil _).symm, fun _ _ => rfl⟩

theorem Performs.trans (h : Performs frame events before middle)
    (h' : Performs frame events' middle after) :
    Performs frame (events ++ events') before after where
  ebp := h'.ebp.trans h.ebp
  esp := h'.esp.trans h.esp
  trace := by rw [h'.trace, h.trace, List.append_assoc]
  memory byte hbyte := (h'.memory byte hbyte).trans (h.memory byte hbyte)

/-- The stack lies below the frame. -/
theorem Writes.performs (h : Writes events before after) (hle : before.esp.toNat ≤ frame) :
    Performs frame events before after :=
  ⟨h.ebp, h.esp, h.trace, fun byte hbyte => h.memory byte (Nat.le_trans hle hbyte)⟩

end Machine

/-! ### Branches -/

namespace Image

variable {image : Image} {start index : Nat} {label : Label} {before : Machine}
  {lines : List Line}

/-- A label leads to the line that it stands on. -/
theorem Resolves.target?_eq (resolves : image.Resolves)
    (placed : image.Placed start (.label label :: lines)) : image.target? label = some start :=
  target?_eq_some resolves.distinct placed.head rfl

theorem steps_jump (htarget : image.target? label = some index) {comment : String}
    (placed : image.Placed start (.instruction none (.jump label) comment :: lines)) :
    image.Steps ⟨start, before⟩ ⟨index, before⟩ := by
  apply Relation.ReflTransGen.single
  rw [step_instruction placed.head, execAt, htarget]
  rfl

/-- The word in `eax` was compared with zero. -/
def tested (machine : Machine) : Machine :=
  { machine with compared? := some (machine.eax, 0) }

theorem keeps_tested (machine : Machine) : machine.Keeps (tested machine) :=
  (Keeps.refl machine).of_eq rfl rfl rfl rfl

theorem exec_test (machine : Machine) :
    machine.exec (.compare (.immediate 0) .eax) = some (tested machine) := rfl

theorem runs_test (placed : image.Placed start (branchLines label)) :
    image.Runs start [.instruction none (.compare (.immediate 0) .eax) ""] before
      (tested before) := by
  have hplaced : image.Placed start ([.instruction none (.compare (.immediate 0) .eax) ""] ++
      [.instruction none (.jumpIfEqual label) ""]) := placed
  exact .exec (placed_append.mp hplaced).1 (exec_test before)

/-- A zero branches. -/
theorem steps_branch (heax : before.eax = 0) (htarget : image.target? label = some index)
    (placed : image.Placed start (branchLines label)) :
    image.Steps ⟨start, before⟩ ⟨index, tested before⟩ := by
  have hlast : image.step ⟨start + 1, tested before⟩ = some ⟨index, tested before⟩ := by
    rw [step_instruction placed.tail.head]
    exact (if_pos heax).trans (by rw [htarget]; rfl)
  exact (runs_test placed).tail hlast

/-- Any other word goes on. -/
theorem runs_branch (heax : before.eax ≠ 0) (placed : image.Placed start (branchLines label)) :
    image.Runs start (branchLines label) before (tested before) := by
  have hlast : image.step ⟨start + 1, tested before⟩ = some ⟨start + 1 + 1, tested before⟩ := by
    rw [step_instruction placed.tail.head]
    exact if_neg heax
  exact .cons placed (exec_test before) (.of_step hlast)

theorem runs_label (placed : image.Placed start [.label label]) :
    image.Runs start [.label label] before before :=
  .skip placed fun _ _ _ => Line.noConfusion

end Image

section Statements

variable {image : Image} {env : Env} {names : Names} {scope : String → Option DeclId}
  {slots : List String} {block : BlockId} {frame : Nat} {store middle final : Store}
  {start index : Nat} {before : Machine} {events events' : List Event}

/-! ### Conditions -/

/-- A condition that is zero leads to the label of its branch. -/
theorem Computes.steps_branch {first : List Line} {label : Label}
    (h : Computes image start first before 0) (htarget : image.target? label = some index)
    (placed : image.Placed (start + first.length) (branchLines label)) :
    ∃ after, image.Steps ⟨start, before⟩ ⟨index, after⟩ ∧ before.Keeps after := by
  obtain ⟨after, hruns, heax, hkeeps⟩ := h
  exact ⟨Image.tested after, hruns.trans (Image.steps_branch heax htarget placed),
    hkeeps.trans (Image.keeps_tested after)⟩

/-- A condition that is not zero leads to the code behind its branch. -/
theorem Computes.runs_branch {first : List Line} {label : Label} {word : Word}
    (h : Computes image start first before word) (nonzero : word ≠ 0)
    (placed : image.Placed (start + first.length) (branchLines label)) :
    ∃ after, image.Runs start (first ++ branchLines label) before after ∧
      before.Keeps after := by
  obtain ⟨after, hruns, rfl, hkeeps⟩ := h
  exact ⟨Image.tested after, hruns.append (Image.runs_branch nonzero placed),
    hkeeps.trans (Image.keeps_tested after)⟩

/-! ### Assignments -/

/-- The word of one variable is stored, and those of the others stay. -/
theorem InFrame.set (h : InFrame frame slots store before) (nodup : slots.Nodup) {name : String}
    (hslot : slots[index]? = some name) {word : Word} {after : Machine}
    (hebp : after.ebp = before.ebp) (hesp : after.esp = before.esp)
    (hmemory : after.memory = before.memory.store (slotAddress frame index) word) :
    InFrame frame slots (store.set name word) after where
  ebp := hebp ▸ h.ebp
  room := hesp ▸ h.room
  display := by
    have hroom := h.room
    have hindex := (List.getElem?_eq_some_iff.mp hslot).1
    rw [hmemory, hebp, ← h.display]
    apply Memory.word_store_of_apart
    rw [slotAddress]
    omega
  words index' name' hslot' := by
    have hroom := h.room
    have hindex := (List.getElem?_eq_some_iff.mp hslot).1
    have hindex' := (List.getElem?_eq_some_iff.mp hslot').1
    rw [hmemory, Store.set]
    by_cases hsame : index' = index
    · subst hsame
      rw [if_pos (Option.some.inj (hslot'.symm.trans hslot))]
      exact Memory.word_store_self _ _ _
    · rw [if_neg]
      · rw [← h.words index' name' hslot']
        apply Memory.word_store_of_apart
        rw [slotAddress, slotAddress]
        omega
      · rintro rfl
        exact hsame ((List.getElem?_inj hindex' nodup).mp (hslot'.trans hslot.symm))

/-- The word in `eax` is stored in a variable. -/
theorem exists_performs_of_store (inFrame : InFrame frame slots store before)
    (nodup : slots.Nodup) {name comment : String} (hslot : slots[index]? = some name)
    (placed : image.Placed start [.instruction none (.move (slotAt index).base .edx) "",
      .instruction none (.move .eax (slotAt index).slot) comment]) :
    ∃ after, image.Runs start [.instruction none (.move (slotAt index).base .edx) "",
        .instruction none (.move .eax (slotAt index).slot) comment] before after ∧
      InFrame frame slots (store.set name before.eax) after ∧ Performs frame [] before after := by
  have hbase : before.exec (.move (slotAt index).base .edx) =
      some { before with edx := before.ebp } := by
    rw [exec, inFrame.read_base]
    rfl
  have hstore : Machine.exec { before with edx := before.ebp } (.move .eax (slotAt index).slot) =
      some { before with
        edx := before.ebp
        memory := before.memory.store (slotAddress frame index) before.eax } := by
    rw [exec, Layout.slot, Machine.read, register?, Option.bind_eq_bind, Option.bind_some,
      Machine.write, inFrame.address_slot hslot rfl]
    rfl
  refine ⟨_, .cons placed hbase (.exec placed.tail hstore), inFrame.set nodup hslot rfl rfl rfl,
    ⟨rfl, rfl, (List.append_nil _).symm, ?_⟩⟩
  intro byte hbyte
  have hroom := inFrame.room
  have hindex := (List.getElem?_eq_some_iff.mp hslot).1
  apply Memory.store_of_notMem
  rw [slotAddress]
  omega

/-! ### Statements -/

/-- The code ends with the words of a store in the frame, after it has written events. -/
def Completes (image : Image) (start : Nat) (code : List Line) (frame : Nat)
    (slots : List String) (before : Machine) (events : List Event) (final : Store) : Prop :=
  ∃ after, image.Runs start code before after ∧ InFrame frame slots final after ∧
    Performs frame events before after

theorem Completes.append {first second : List Line}
    (h : Completes image start first frame slots before events middle)
    (hnext : ∀ {after : Machine}, InFrame frame slots middle after →
      after.esp = before.esp →
        Completes image (start + first.length) second frame slots after events' final) :
    Completes image start (first ++ second) frame slots before (events ++ events') final := by
  obtain ⟨after, hfirst, inFrame, hperforms⟩ := h
  obtain ⟨last, hsecond, inFrame', hperforms'⟩ := hnext inFrame hperforms.esp
  exact ⟨last, hfirst.append hsecond, inFrame', hperforms.trans hperforms'⟩

/-- The second part writes nothing. -/
theorem Completes.append_quiet {first second : List Line}
    (h : Completes image start first frame slots before events middle)
    (hnext : ∀ {after : Machine}, InFrame frame slots middle after →
      after.esp = before.esp →
        Completes image (start + first.length) second frame slots after [] final) :
    Completes image start (first ++ second) frame slots before events final := by
  have hboth := h.append hnext
  rwa [List.append_nil] at hboth

/-- Code after steps that keep the stack. -/
theorem Completes.of_steps {code code' : List Line} {start' : Nat} {after : Machine}
    (inFrame : InFrame frame slots store before) (hkeeps : before.Keeps after)
    (hsteps : image.Steps ⟨start, before⟩ ⟨start', after⟩)
    (hend : start' + code'.length = start + code.length)
    (h : Completes image start' code' frame slots after events final) :
    Completes image start code frame slots before events final := by
  obtain ⟨last, hruns, inFrame', hperforms⟩ := h
  have hroom := inFrame.room
  rw [Image.Runs, hend] at hruns
  exact ⟨last, hsteps.trans hruns, inFrame', (hkeeps.performs (by omega)).trans hperforms⟩

theorem completes_nil (inFrame : InFrame frame slots store before) :
    Completes image start [] frame slots before [] store :=
  ⟨before, .nil before, inFrame, .refl frame before⟩

theorem completes_label (inFrame : InFrame frame slots store before) {label : Label}
    (placed : image.Placed start [.label label]) :
    Completes image start [.label label] frame slots before [] store :=
  ⟨before, Image.runs_label placed, inFrame, .refl frame before⟩

theorem Completes.of_label {label : Label} {code : List Line}
    (placed : image.Placed start (.label label :: code))
    (h : Completes image (start + 1) code frame slots before events final) :
    Completes image start (.label label :: code) frame slots before events final := by
  obtain ⟨after, hruns, inFrame, hperforms⟩ := h
  exact ⟨after, .cons_skip placed (fun _ _ _ => Line.noConfusion) hruns, inFrame, hperforms⟩

/-- Behind a condition that is not zero. -/
theorem Completes.of_passed {first code : List Line} {label : Label} {word : Word}
    (inFrame : InFrame frame slots store before) (h : Computes image start first before word)
    (nonzero : word ≠ 0) (placed : image.Placed start (first ++ (branchLines label ++ code)))
    (hcode : ∀ {after : Machine}, InFrame frame slots store after → after.esp = before.esp →
      Completes image (start + first.length + (branchLines label).length) code frame slots after
        events final) :
    Completes image start (first ++ (branchLines label ++ code)) frame slots before events
      final := by
  obtain ⟨placedBranch, -⟩ := Image.placed_append.mp (Image.placed_append.mp placed).2
  obtain ⟨after, hruns, hkeeps⟩ := h.runs_branch nonzero placedBranch
  apply Completes.of_steps inFrame hkeeps hruns _ _
  · exact code
  · simp only [List.length_append]
    omega
  · rw [List.length_append, ← Nat.add_assoc]
    exact hcode (inFrame.of_writes hkeeps) hkeeps.esp

/-- Behind the label for a condition that is zero. -/
theorem Completes.of_failed (resolves : image.Resolves) {first skipped code : List Line}
    {label : Label} (inFrame : InFrame frame slots store before)
    (h : Computes image start first before 0)
    (placed : image.Placed start
      (first ++ (branchLines label ++ (skipped ++ .label label :: code))))
    (hcode : ∀ {start : Nat} {after : Machine}, image.Placed start code →
      InFrame frame slots store after → after.esp = before.esp →
        Completes image start code frame slots after events final) :
    Completes image start (first ++ (branchLines label ++ (skipped ++ .label label :: code)))
      frame slots before events final := by
  obtain ⟨placedBranch, placedRest⟩ := Image.placed_append.mp (Image.placed_append.mp placed).2
  have placedLabel := (Image.placed_append.mp placedRest).2
  obtain ⟨after, hsteps, hkeeps⟩ := h.steps_branch (resolves.target?_eq placedLabel) placedBranch
  have hlabel : Completes image _ (.label label :: code) frame slots after events final :=
    (hcode placedLabel.tail (inFrame.of_writes hkeeps) hkeeps.esp).of_label placedLabel
  apply hlabel.of_steps inFrame hkeeps hsteps
  simp only [List.length_append]
  omega

/-- A jump to code elsewhere that ends where the jump's code ends. -/
theorem Completes.of_jump {label : Label} {comment : String} {code code' : List Line}
    (inFrame : InFrame frame slots store before) (htarget : image.target? label = some index)
    (placed : image.Placed start (.instruction none (.jump label) comment :: code))
    (hend : index + code'.length = start + (code.length + 1))
    (h : Completes image index code' frame slots before events final) :
    Completes image start (.instruction none (.jump label) comment :: code) frame slots before
      events final :=
  h.of_steps inFrame (Keeps.refl before) (Image.steps_jump htarget placed) hend

/-- The code of a statement does what the statement does in a store, wherever it stands in the
image. -/
def Simulates (image : Image) (env : Env) (scope : String → Option DeclId) (slots : List String)
    (block : BlockId) (frame : Nat) (store : Store) (statement : Statement) (events : List Event)
    (final : Store) : Prop :=
  ∀ ⦃counter last start : Nat⦄ ⦃lines : List Line⦄ ⦃before : Machine⦄,
    (Code.statement env statement).Emits counter lines last () →
    (∀ use ∈ statement.uses, env.tree.Bound scope block use) →
    image.Placed start lines → InFrame frame slots store before →
    4 * statementDepth statement ≤ before.esp.toNat →
    Completes image start lines frame slots before events final

theorem simulates_empty {line : Nat} :
    Simulates image env scope slots block frame store (.empty line) [] store := by
  intro counter last start lines before emits _ _ inFrame _
  obtain ⟨rfl, -⟩ := emits_empty emits
  exact completes_nil inFrame

theorem simulates_compoundNil {line : Nat} :
    Simulates image env scope slots block frame store (.compound [] line) [] store := by
  intro counter last start lines before emits _ _ inFrame _
  rw [Code.statement] at emits
  obtain ⟨rfl, -⟩ := emits_statements_nil emits
  exact completes_nil inFrame

theorem simulates_compoundCons {first : Statement} {others : List Statement} {line : Nat}
    (hfirst : Simulates image env scope slots block frame store first events middle)
    (hothers : Simulates image env scope slots block frame middle (.compound others line) events'
      final) :
    Simulates image env scope slots block frame store (.compound (first :: others) line)
      (events ++ events') final := by
  intro counter last start lines before emits bound placed inFrame hroom
  obtain ⟨hbound, hbounds⟩ := List.forall_mem_append.mp bound
  rw [Code.statement] at emits
  obtain ⟨front, between, back, rfl, hfront, hback⟩ := emits_statements_cons emits
  obtain ⟨placedFirst, placedOthers⟩ := Image.placed_append.mp placed
  rw [statementDepth, statementsDepth] at hroom
  have hrest : (Code.statement env (.compound others line)).Emits between back last () := by
    rw [Code.statement]
    exact hback
  apply (hfirst hfront hbound placedFirst inFrame (by omega)).append
  intro after inFrame' hesp
  exact hothers hrest hbounds placedOthers inFrame' (by rw [statementDepth, hesp]; omega)

section Agreement

variable (agrees : Agrees env.tree slots scope names)

include agrees

theorem simulates_assign (nodup : slots.Nodup) {target : NameRef} {indexed : Option Expr}
    {source : Expr} {word : Word} (targeted : names target.name = some .variable)
    (valued : value names store source = some word)
    (hindexed : ∀ inner ∈ indexed, (value names store inner).isSome) :
    Simulates image env scope slots block frame store (.assign target indexed source) []
      (store.set target.name word) := by
  intro counter last start lines before emits bound placed inFrame hroom
  obtain ⟨first, middle, second, id, decl, layout, hsource, hindex, hid, hdecl, hlayout, rfl⟩ :=
    emits_assign emits
  obtain ⟨hbound, hbounds⟩ := List.forall_mem_cons.mp bound
  obtain ⟨hboundIndex, hboundSource⟩ := List.forall_mem_append.mp hbounds
  obtain ⟨id', decl', hid', hscope, -⟩ := hbound
  obtain rfl := Option.some.inj (hid.symm.trans hid')
  have hdenotes := agrees target.name id hscope
  rw [targeted] at hdenotes
  cases hdenotes with
  | @word found type place hfound _ hslot hplaced =>
  obtain rfl := Option.some.inj (hdecl.symm.trans hfound)
  obtain rfl := Option.some.inj (hlayout.symm.trans hplaced)
  rw [← List.append_assoc] at placed ⊢
  obtain ⟨placedValue, placedStore⟩ := Image.placed_append.mp placed
  have hcomputes : Computes image start (first ++ second) before word := by
    cases hindex with
    | none =>
        rw [List.append_nil] at placedValue ⊢
        exact computes_expr agrees source hsource hboundSource valued placedValue inFrame hroom
    | @some inner _ _ lines hinner =>
        rw [statementDepth] at hroom
        obtain ⟨word', hword'⟩ := Option.isSome_iff_exists.mp (hindexed inner rfl)
        apply Computes.saved placedValue (by omega)
        · intro placedSource
          exact computes_expr agrees source hsource hboundSource valued placedSource inFrame
            (by omega)
        · intro start middle placedInner hsaved
          have hesp := hsaved.toNat_esp
          exact computes_expr agrees inner hinner hboundIndex hword' placedInner
            (inFrame.of_saved hsaved) (by omega)
        · intro start middle placedPop hsaved _
          have hpop : middle.exec (.pop .eax) = some { middle.popped with eax := word } := by
            rw [← hsaved.top]
            rfl
          exact ⟨_, .exec placedPop hpop, rfl, hsaved.keeps_of_popped.of_eq rfl rfl rfl rfl⟩
  obtain ⟨computed, hruns, rfl, hkeeps⟩ := hcomputes
  obtain ⟨after, hstored, inFrame', hperforms⟩ :=
    exists_performs_of_store (inFrame.of_writes hkeeps) nodup hslot placedStore
  have hbelow := inFrame.room
  exact ⟨after, hruns.append hstored, inFrame', (hkeeps.performs (by omega)).trans hperforms⟩

theorem simulates_ifThen {condition : Expr} {consequence : Statement} {line : Nat} {word : Word}
    (tested : value names store condition = some word) (nonzero : word ≠ 0)
    (hbody : Simulates image env scope slots block frame store consequence events final) :
    Simulates image env scope slots block frame store (.ifThen condition consequence line) events
      final := by
  intro counter last start lines before emits bound placed inFrame hroom
  obtain ⟨hboundTest, hbound⟩ := List.forall_mem_append.mp bound
  obtain ⟨first, between, second, htest, hsecond, rfl⟩ := emits_ifThen emits
  obtain ⟨placedTest, placedRest⟩ := Image.placed_append.mp placed
  rw [statementDepth] at hroom
  have hcomputes := computes_expr agrees condition htest hboundTest tested placedTest inFrame
    (by omega)
  apply Completes.of_passed inFrame hcomputes nonzero placed
  intro after inFrame' hesp
  obtain ⟨placedBody, placedLabel⟩ :=
    Image.placed_append.mp (Image.placed_append.mp placedRest).2
  apply (hbody hsecond hbound placedBody inFrame' (by rw [hesp]; omega)).append_quiet
  exact fun inFrame _ => completes_label inFrame placedLabel

variable (resolves : image.Resolves)

include resolves

theorem simulates_write {ref : NameRef} {args : List Expr}
    (called : names ref.name = some .write)
    (written : args.mapM (event? names store) = some events) :
    Simulates image env scope slots block frame store (.call ref args) events store := by
  intro counter last start lines before emits bound placed inFrame hroom
  obtain ⟨hbound, hbounds⟩ := List.forall_mem_cons.mp bound
  obtain ⟨id, hid, hcalls⟩ := emits_callStatement emits
  obtain ⟨id', decl, hid', hscope, hdecl, -⟩ := hbound
  obtain rfl := Option.some.inj (hid.symm.trans hid')
  have hdenotes := agrees ref.name id hscope
  rw [called] at hdenotes
  cases hdenotes with
  | write hfound hkind hlibrary _ =>
  obtain rfl := Option.some.inj (hdecl.symm.trans hfound)
  cases hcalls with
  | builtin _ _ _ hwritten =>
      obtain ⟨after, hruns, hwrites⟩ := exists_writes_of_writeAll resolves agrees hwritten
        hbounds written placed inFrame hroom
      have hbelow := inFrame.room
      exact ⟨after, hruns, inFrame.of_writes hwrites, hwrites.performs (by omega)⟩
  | routine hdecl' hkind' hwritten =>
      obtain rfl := Option.some.inj (hdecl.symm.trans hdecl')
      obtain rfl := DeclKind.routine.inj (hkind.symm.trans hkind')
      cases hlibrary.symm.trans hwritten

/-! ### Branches and loops -/

theorem simulates_ifThenSkip {condition : Expr} {consequence : Statement} {line : Nat}
    (tested : value names store condition = some 0) :
    Simulates image env scope slots block frame store (.ifThen condition consequence line) []
      store := by
  intro counter last start lines before emits bound placed inFrame hroom
  obtain ⟨hboundTest, hbound⟩ := List.forall_mem_append.mp bound
  obtain ⟨first, between, second, htest, hsecond, rfl⟩ := emits_ifThen emits
  obtain ⟨placedTest, placedRest⟩ := Image.placed_append.mp placed
  rw [statementDepth] at hroom
  have hcomputes := computes_expr agrees condition htest hboundTest tested placedTest inFrame
    (by omega)
  apply Completes.of_failed resolves inFrame hcomputes placed
  exact fun _ inFrame _ => completes_nil inFrame

/-- A condition that is zero leads to the alternative. -/
theorem simulates_ifElse_zero {condition : Expr} {consequence alternative : Statement}
    {line : Nat} (tested : value names store condition = some 0)
    (hbody : Simulates image env scope slots block frame store alternative events final) :
    Simulates image env scope slots block frame store
      (.ifElse condition consequence alternative line) events final := by
  intro counter last start lines before emits bound placed inFrame hroom
  obtain ⟨hbounds, hboundAlternative⟩ := List.forall_mem_append.mp bound
  obtain ⟨hboundTest, hboundBody⟩ := List.forall_mem_append.mp hbounds
  obtain ⟨first, between, second, between', third, htest, hsecond, hthird, rfl⟩ :=
    emits_ifElse emits
  obtain ⟨placedTest, placedRest⟩ := Image.placed_append.mp placed
  rw [statementDepth] at hroom
  have hcomputes := computes_expr agrees condition htest hboundTest tested placedTest inFrame
    (by omega)
  rw [List.append_cons second] at placed ⊢
  apply Completes.of_failed resolves inFrame hcomputes placed
  intro start after placedEnd inFrame' hesp
  obtain ⟨placedThird, placedLabel⟩ := Image.placed_append.mp placedEnd
  apply (hbody hthird hboundAlternative placedThird inFrame' (by rw [hesp]; omega)).append_quiet
  exact fun inFrame _ => completes_label inFrame placedLabel

/-- Any other condition leads to the consequence, and past the alternative. -/
theorem simulates_ifElse_nonzero {condition : Expr} {consequence alternative : Statement}
    {line : Nat} {word : Word} (tested : value names store condition = some word)
    (nonzero : word ≠ 0)
    (hbody : Simulates image env scope slots block frame store consequence events final) :
    Simulates image env scope slots block frame store
      (.ifElse condition consequence alternative line) events final := by
  intro counter last start lines before emits bound placed inFrame hroom
  obtain ⟨hbounds, hboundAlternative⟩ := List.forall_mem_append.mp bound
  obtain ⟨hboundTest, hboundBody⟩ := List.forall_mem_append.mp hbounds
  obtain ⟨first, between, second, between', third, htest, hsecond, hthird, rfl⟩ :=
    emits_ifElse emits
  obtain ⟨placedTest, placedRest⟩ := Image.placed_append.mp placed
  rw [statementDepth] at hroom
  have hcomputes := computes_expr agrees condition htest hboundTest tested placedTest inFrame
    (by omega)
  apply Completes.of_passed inFrame hcomputes nonzero placed
  intro after inFrame' hesp
  obtain ⟨placedSecond, placedJump⟩ :=
    Image.placed_append.mp (Image.placed_append.mp placedRest).2
  have placedLast := (Image.placed_append.mp placedJump.tail.tail).2
  apply (hbody hsecond hboundBody placedSecond inFrame' (by rw [hesp]; omega)).append_quiet
  intro last inFrame'' _
  apply (completes_label inFrame'' placedLast).of_jump inFrame''
    (resolves.target?_eq placedLast) placedJump
  simp only [List.length_append, List.length_cons, List.length_nil]
  omega

theorem simulates_whileDone {condition : Expr} {body : Statement} {line : Nat}
    (tested : value names store condition = some 0) :
    Simulates image env scope slots block frame store (.whileDo condition body line) [] store := by
  intro counter last start lines before emits bound placed inFrame hroom
  obtain ⟨hboundTest, -⟩ := List.forall_mem_append.mp bound
  obtain ⟨first, between, second, htest, hbody, rfl⟩ := emits_whileDo emits
  rw [statementDepth] at hroom
  rw [List.append_cons second] at placed ⊢
  obtain ⟨placedTest, placedRest⟩ := Image.placed_append.mp placed.tail
  have hcomputes := computes_expr agrees condition htest hboundTest tested placedTest inFrame
    (by omega)
  apply Completes.of_label placed
  apply Completes.of_failed resolves inFrame hcomputes placed.tail
  exact fun _ inFrame _ => completes_nil inFrame

/-- The jump at the end of the body leads back to the whole loop. -/
theorem simulates_whileStep {condition : Expr} {body : Statement} {line : Nat} {word : Word}
    (tested : value names store condition = some word) (nonzero : word ≠ 0)
    (hbody : Simulates image env scope slots block frame store body events middle)
    (hrest : Simulates image env scope slots block frame middle (.whileDo condition body line)
      events' final) :
    Simulates image env scope slots block frame store (.whileDo condition body line)
      (events ++ events') final := by
  intro counter last start lines before emits bound placed inFrame hroom
  obtain ⟨hboundTest, hboundBody⟩ := List.forall_mem_append.mp bound
  obtain ⟨first, between, second, htest, hsecond, hlines⟩ := emits_whileDo emits
  subst lines
  obtain ⟨placedTest, placedRest⟩ := Image.placed_append.mp placed.tail
  obtain ⟨placedBody, placedJump⟩ :=
    Image.placed_append.mp (Image.placed_append.mp placedRest).2
  have hdepth := hroom
  rw [statementDepth] at hdepth
  have hcomputes := computes_expr agrees condition htest hboundTest tested placedTest inFrame
    (by omega)
  apply Completes.of_label placed
  apply Completes.of_passed inFrame hcomputes nonzero placed.tail
  intro after inFrame' hesp
  apply (hbody hsecond hboundBody placedBody inFrame' (by rw [hesp]; omega)).append
  intro last inFrame'' hesp'
  apply (hrest emits bound placed inFrame'' (by rw [hesp', hesp]; exact hroom)).of_jump
    inFrame'' (resolves.target?_eq placed) placedJump
  simp only [List.length_append, List.length_cons, List.length_nil]
  omega

/-- The code of a statement that ends does what the statement does. -/
theorem simulates_of_exec (nodup : slots.Nodup) {statement : Statement}
    (h : Exec names store statement events final) :
    Simulates image env scope slots block frame store statement events final := by
  induction h with
  | assign targeted valued indexed => exact simulates_assign agrees nodup targeted valued indexed
  | write called written => exact simulates_write agrees resolves called written
  | empty => exact simulates_empty
  | compoundNil => exact simulates_compoundNil
  | compoundCons _ _ ihFirst ihOthers => exact simulates_compoundCons ihFirst ihOthers
  | ifThen tested nonzero _ ih => exact simulates_ifThen agrees tested nonzero ih
  | ifThenSkip tested => exact simulates_ifThenSkip agrees resolves tested
  | @ifElse _ _ _ _ _ _ word _ tested _ ih =>
      by_cases hzero : word = 0
      · subst hzero
        exact simulates_ifElse_zero agrees resolves tested ih
      · rw [if_neg hzero] at ih
        exact simulates_ifElse_nonzero agrees resolves tested hzero ih
  | whileDone tested => exact simulates_whileDone agrees resolves tested
  | whileStep tested nonzero _ _ ihBody ihRest =>
      exact simulates_whileStep agrees resolves tested nonzero ihBody ihRest

end Agreement

end Statements

end MiniPascal
