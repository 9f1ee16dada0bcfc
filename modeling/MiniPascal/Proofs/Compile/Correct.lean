import MiniPascal.Proofs.Compile.Linked
import MiniPascal.Proofs.Simulation.Programs
import MiniPascal.Proofs.Source.Erasure
import MiniPascal.Proofs.Source.Interpret

/-!
# Compiling is correct

The listing of a program without routines does what the program does.  Run from the label
`main` with any memory and with room on the stack, it reaches the return of `main` with
the events that the program writes, and leaves the stack as it was.  What is loaded are the
lines of code under the listing, which are the only ones with its labels that are listed so
(`compile_determines`).
-/

namespace MiniPascal

open MiniPascal.Assembly
open MiniPascal.Code
open MiniPascal.Machine
open MiniPascal.Source

/-- The bytes of stack that a program without routines needs: for the return address, the
frame with its display and header, the variables, and the values that wait on the stack. -/
def stackBytes (outline : Outline) : Nat :=
  44 + 4 * (variableNames outline).length + 4 * statementsDepth outline.body.statements

/-- From the label `main` on, a loaded listing writes events and reaches the return of
`main` with status zero.  Then the words of the variables are those of a store, and the
registers of the stack and all memory from its top on are as they were. -/
structure Image.Finishes (image : Image) (slots : List String) (before : Machine)
    (events : List Event) (last : Store) (start : Nat) (after : Machine) : Prop where
  main : image.target? (.global "main") = some start
  steps : image.Steps ⟨start, before⟩ ⟨start + 2, after⟩
  returns : image.lines[start + 2]? = some (.instruction none .ret "terminate the program")
  status : after.eax = 0
  writes : Writes events before after
  words : ∀ index name, slots[index]? = some name →
    after.memory.word (slotAddress (before.esp.toNat - 8) index) = last name

/-! ### Labels -/

/-- In a linked listing every label leads to its place. -/
theorem Assembly.Listing.Linked.resolves {image : Image} {tree : Tree} {title : String}
    {counter final : Nat}
    (h : Listing.Linked ⟨image.lines.map Line.listed⟩ tree title counter final) :
    image.Resolves where
  distinct := by
    have hlabels : (Listing.mk (image.lines.map Line.listed)).labels =
        image.lines.filterMap fun line => line.listed.label? := List.filterMap_map
    rw [Image.Distinct, ← hlabels]
    exact h.nodup
  runtime function hfunction := by
    apply Image.target?_eq_none
    intro line hline hlabel
    have hshown : function.text ∈ (Listing.mk (image.lines.map Line.listed)).labels :=
      List.mem_filterMap.mpr ⟨line.listed, List.mem_map_of_mem hline, hlabel⟩
    have hunnumbered : ∀ function ∈ runtimeFunctions,
        (trailingNumber? function.text).isNone ∧ function.text ∉ ["_main", "main"] := by
      decide
    apply (hunnumbered function hfunction).2
    rw [← h.unnumbered]
    exact List.mem_filter.mpr ⟨hshown, (hunnumbered function hfunction).1⟩

/-! ### The code of a program without routines -/

section Program

variable {outline : Outline} {skeleton : Skeleton} {tree : Tree} {name : String}
  {counter final : Nat} {lines : List Line}

/-- The code of a program without routines is its entry and its body. -/
theorem exists_body_of_emits (program : CheckedProgram outline skeleton tree)
    (free : RoutineFree outline) (h : (Code.program tree name).Emits counter lines final ()) :
    ∃ block labels middle code comment, tree.blocks[tree.body]? = some block ∧
      (statements { tree, labels } block.statements).Emits middle code final () ∧
      lines = entryLines (.unit Label.programStem name (counter + 1)) ++
        (.instruction (some (.unit Label.programStem name (counter + 1)))
            (.enter (Frame.size block.frameBytes) block.frameLevel) ("Start of " ++ name) ::
          (code ++ [.instruction none .leave "", .instruction none .ret comment])) := by
  obtain ⟨block, hblock, hroutines, -⟩ := exists_programBlock program free
  rw [Code.program, if_pos program.checked_eq] at h
  obtain ⟨_, _, back, rfl, hentry, h₁⟩ := h.of_freshNumber_bind.of_then
  obtain ⟨rfl, rfl⟩ := emits_entry hentry
  obtain ⟨front, middle, labels, last, hinside, h₂, rfl⟩ := Emit.emits_bind_iff.mp h₁
  obtain ⟨body, hbody, hframed⟩ := h₂.of_ofExcept_bind
  obtain rfl := Option.some.inj (hblock.symm.trans (blockOf_eq_ok_iff.mp hbody))
  obtain ⟨_, block', _, _, -, hblock', -, hroutinesCode⟩ := emits_blockRoutines hinside
  obtain rfl := Option.some.inj (hblock.symm.trans hblock')
  rw [hroutines] at hroutinesCode
  obtain ⟨rfl, -, -⟩ := Emit.emits_pure_iff.mp hroutinesCode
  obtain ⟨code, hcode, rfl⟩ := emits_framedBody hframed
  exact ⟨block, labels, middle, code, _, hblock, hcode, rfl⟩

/-- The words in memory below a pushed address are those from before. -/
theorem loadedStore_pushed {slots : List String} {machine : Machine} {address : Word}
    (h : 44 ≤ machine.esp.toNat) :
    loadedStore slots (machine.esp.toNat - 8) (machine.pushed address).memory =
      loadedStore slots (machine.esp.toNat - 8) machine.memory := by
  funext name
  apply Memory.word_congr
  intro byte hlow hhigh
  apply memory_pushed (by omega)
  rw [slotAddress] at hlow hhigh
  omega

/-- The code of the statements of a program does what the program does. -/
theorem completes_statements (program : CheckedProgram outline skeleton tree)
    (free : RoutineFree outline) {image : Image} (resolves : image.Resolves) {block : Block}
    (herased : Statement.erasedAll block.statements =
      Statement.erasedAll outline.body.statements)
    (hbound : ∀ use ∈ Statement.usesAll block.statements,
      tree.Bound (scopeOf outline skeleton) skeleton.id use)
    {labels : RoutineLabels} {middle start frame : Nat} {code : List Line}
    (hcode : (statements { tree, labels } block.statements).Emits middle code final ())
    (placed : image.Placed start code) {entered : Machine} {store last : Store}
    (inFrame : InFrame frame (variableNames outline) store entered)
    (hroom : 4 * statementsDepth outline.body.statements ≤ entered.esp.toNat)
    {events : List Event} (hruns : Source.Runs outline store events last) :
    Completes image start code frame (variableNames outline) entered events last := by
  have hcompound : (Code.statement { tree, labels } (.compound block.statements
      outline.body.line)).Emits middle code final () := by
    rw [Code.statement]
    exact hcode
  have hsame : (Statement.compound block.statements outline.body.line).erased =
      (Statement.compound outline.body.statements outline.body.line).erased :=
    congrArg (Statement.compound · outline.body.line) herased
  have hdepth : statementsDepth block.statements = statementsDepth outline.body.statements := by
    rw [← statementsDepth_erased, herased, statementsDepth_erased]
  apply simulates_of_exec (agrees_program program free) resolves
    (nodup_variableNames program free) (hruns.of_erased_eq hsame) hcompound hbound placed inFrame
  rw [statementDepth, hdepth]
  exact hroom

/-- The code of a program without routines does what the program does. -/
theorem exists_finishes (program : CheckedProgram outline skeleton tree)
    (free : RoutineFree outline) {image : Image}
    (h : (Code.program tree name).Emits counter image.lines final ())
    (resolves : image.Resolves) {machine : Machine}
    (hroom : stackBytes outline ≤ machine.esp.toNat) {events : List Event} {last : Store}
    (hruns : Source.Runs outline
      (loadedStore (variableNames outline) (machine.esp.toNat - 8) machine.memory) events last) :
    ∃ start after, image.Finishes (variableNames outline) machine events last start after := by
  obtain ⟨block, hblock, -, hlevel, hbytes, herased, hbound⟩ := exists_programBlock program free
  obtain ⟨block', labels, middle, code, comment, hblock', hcode, hlines⟩ :=
    exists_body_of_emits program free h
  obtain rfl := Option.some.inj (hblock.symm.trans hblock')
  have hsize : Frame.size block.frameBytes =
      ((32 + 4 * (variableNames outline).length : Nat) : Int) := by
    rw [hbytes, Frame.size, Frame.headerBytes, Frame.wordSize]
    omega
  rw [hsize, hlevel] at hlines
  have placed : image.Placed 0 image.lines := ⟨[], [], (List.append_nil _).symm, rfl⟩
  rw [hlines] at placed
  obtain ⟨placedEntry, placedBody⟩ := Image.placed_append.mp placed
  have placedCall := placedEntry.tail.tail.tail.tail.tail.tail
  have hmain : image.target? (.global "main") = some 6 :=
    Image.target?_eq_some resolves.distinct placedCall.head rfl
  have hbody : image.target? (.unit Label.programStem name (counter + 1)) = some 9 :=
    Image.target?_eq_some resolves.distinct placedBody.head rfl
  have hcompletes : ∀ {entered : Machine}, Enters (32 + 4 * (variableNames outline).length) 1
      (machine.pushed (image.address (6 + 1))) entered →
        Completes image (9 + 1) code entered.ebp.toNat (variableNames outline) entered events
          last := by
    intro entered enters
    rw [stackBytes] at hroom
    have hpushed : (machine.pushed (image.address (6 + 1))).esp.toNat = machine.esp.toNat - 4 :=
      toNat_esp_pushed (by omega)
    have hframe := enters.toNat_ebp
    have hesp := enters.esp
    have hbase : entered.ebp.toNat = machine.esp.toNat - 8 := by omega
    have inFrame := enters.inFrame rfl (nodup_variableNames program free)
    rw [hbase, loadedStore_pushed (by omega)] at inFrame
    rw [hbase]
    exact completes_statements program free resolves herased hbound hcode
      (Image.placed_append.mp placedBody.tail).1 inFrame (by omega) hruns
  have hcall := placedCall.head
  rw [stackBytes] at hroom
  obtain ⟨returned, hsteps, hwrites, hwords⟩ := exists_writes_of_body hbody hcall placedBody
    (by omega) hcompletes
  have hstatus : image.step ⟨7, returned⟩ = some ⟨8, { returned with eax := 0 }⟩ := by
    rw [Image.step_instruction placedCall.tail.head]
    rfl
  exact ⟨6, { returned with eax := 0 }, hmain, hsteps.tail hstatus, placedCall.tail.tail.head, rfl,
    hwrites.of_eq rfl rfl rfl rfl, hwords⟩

end Program

/-- **Compiling is correct.**  If a program without routines ends when it is run with what is
in memory as the first words of its variables, then its listing, loaded in whatever way and
run with room on the stack, ends with the same events and the same words. -/
theorem compile_correct {source : String} {context final : Context} {listing : Listing}
    (h : (compile source).run context = .ok listing final) :
    ∃ tokens outline lines, Compilation.scan source = .ok tokens ∧
      (Outline.parse tokens).result = .ok outline ∧ listing = ⟨lines.map Line.listed⟩ ∧
      (RoutineFree outline → ∀ (image : Image) (machine : Machine) (events : List Event)
        (last : Store), image.lines = lines → stackBytes outline ≤ machine.esp.toNat →
          Source.Runs outline (loadedStore (variableNames outline) (machine.esp.toNat - 8)
            machine.memory) events last →
          ∃ start after,
            image.Finishes (variableNames outline) machine events last start after) := by
  obtain ⟨tokens, tree, middle, hscan, htokens, hgenerate⟩ := exists_stages_of_compile h
  obtain ⟨outline, skeleton, hparse, -, program⟩ := Compilation.exists_checkedProgram htokens
  obtain ⟨lines, hemits, rfl⟩ := Compilation.exists_emits_of_generate hgenerate
  refine ⟨tokens, outline, lines, hscan, hparse, rfl, ?_⟩
  rintro free image machine events last rfl hroom hruns
  obtain ⟨labels, hcode⟩ := Code.exists_programCode program hemits
  have hlinked := hcode.linked program.nodup_codeOrder (fun _ => program.mem_codeOrder_iff)
    (program.pairwise_codeOrder skeleton .top)
  exact exists_finishes program free hemits hlinked.resolves hroom hruns

def countdown : String :=
  "program p; const c = 'n'; var x: integer;
    begin x := 2; while x > 0 do begin write('go', c, x); x := x - 1 end end."

def countdownEvents : List Event :=
  [.text "go", .char 110, .int 2, .text "go", .char 110, .int 1]

/-- A machine with an empty stack below an address, and zeros in memory. -/
def emptyMachine : Machine where
  eax := 0
  ecx := 0
  edx := 0
  ebp := 0
  esp := 4096
  memory _ := 0
  compared? := none
  trace := []

/-- The program that counts down is compiled and loaded, and writes what it means. -/
theorem compile_correct_countdown :
    ∃ (listing : Listing) (final : Context) (outline : Outline) (image : Image) (last : Store)
      (start : Nat) (after : Machine),
      (compile countdown).run (.fresh false false) = .ok listing final ∧
      listing = ⟨image.lines.map Line.listed⟩ ∧ variableNames outline = ["x"] ∧
      Source.Runs outline (loadedStore ["x"] 4088 emptyMachine.memory) countdownEvents last ∧
      image.Finishes ["x"] emptyMachine countdownEvents last start after := by
  have hok : Compilation.endsWith (fun listing _ =>
      decide (listing.lines.length < 2 ^ 32 ∧ listing.labels.Nodup))
      ((compile countdown).run (.fresh false false)) = true := by
    decide +kernel
  have hran : Compilation.passes (fun tokens => Compilation.passes (fun outline =>
      (run? (Source.names outline) 40 (loadedStore ["x"] 4088 emptyMachine.memory)
        (.compound outline.body.statements outline.body.line)).any fun ended =>
          decide (ended.1 = countdownEvents ∧ RoutineFree outline ∧
            variableNames outline = ["x"] ∧ stackBytes outline ≤ 4096))
      (Outline.parse tokens).result) (Compilation.scan countdown) = true := by
    decide +kernel
  obtain ⟨listing, final, hcompile, hlisting⟩ := Compilation.exists_of_endsWith hok
  obtain ⟨tokens, outline, lines, hscan, hparse, rfl, hcorrect⟩ := compile_correct hcompile
  obtain ⟨hlength, hnodup⟩ := of_decide_eq_true hlisting
  rw [Listing.labels, List.filterMap_map] at hnodup
  rw [List.length_map] at hlength
  rw [hscan, Compilation.passes, hparse, Compilation.passes] at hran
  obtain ⟨⟨events, last⟩, hrun, hended⟩ := (Option.any_eq_true _ _).mp hran
  obtain ⟨rfl, free, hnames, hbytes⟩ := of_decide_eq_true hended
  have hruns := exec_of_run? hrun
  rw [hnames] at hcorrect
  obtain ⟨start, after, hfinishes⟩ := hcorrect free (.flat lines hlength hnodup)
    emptyMachine countdownEvents last rfl hbytes hruns
  exact ⟨_, final, outline, .flat lines hlength hnodup, last, start, after, hcompile, rfl, hnames,
    hruns, hfinishes⟩

end MiniPascal
