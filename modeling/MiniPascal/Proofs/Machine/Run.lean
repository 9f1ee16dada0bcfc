import MiniPascal.Proofs.Machine.Instruction
import Mathlib.Logic.Relation

/-!
# Running programs

A listing is loaded with an address for the code of each line and for each text, and
is run line by line.  Branches and calls go to the line that shows their label; a
call of a label that no line shows is one of the run-time functions, which write the
word on top of the stack.  These may leave anything in the registers they can use
and below the stack.
-/

namespace MiniPascal

open MiniPascal.Assembly
open MiniPascal.Machine

/-- A loaded listing with its run-time functions. -/
structure Image where
  lines : List Line
  /-- Where the code of a line is. -/
  address : Nat → Word
  /-- The line whose code is at an address. -/
  line? : Word → Option Nat
  line?_address : ∀ index ≤ lines.length, line? (address index) = some index
  /-- Where the text at a label is. -/
  datum : Label → Word
  /-- The text that is found at an address. -/
  text : Word → String
  text_datum : ∀ label content, Line.datum label content ∈ lines → text (datum label) = content
  /-- What a run-time function leaves behind where it may. -/
  clobber : String → Machine → Machine

/-- A machine that is about to run a line. -/
structure Running where
  line : Nat
  machine : Machine

namespace Image

/-- The first line that shows a label. -/
def target? (image : Image) (label : Label) : Option Nat :=
  image.lines.findIdx? fun line => line.listed.label? == some label.text

/-- What a run-time function writes when it is given a word. -/
def written? (image : Image) (function : String) (word : Word) : Option Event :=
  match function with
  | "write_int" => some (.int word)
  | "write_char" => some (.char word)
  | "write_string" => some (.text (image.text word))
  | _ => none

/-- A run-time function: it writes the word on top of the stack, and keeps `ebp`,
`esp` and all memory from the top of the stack on. -/
def callRuntime (image : Image) (function : String) (machine : Machine) : Option Machine :=
  (image.written? function machine.top).map fun event =>
    let left := image.clobber function machine
    { left with
      ebp := machine.ebp
      esp := machine.esp
      memory := fun byte =>
        if machine.esp.toNat ≤ byte then machine.memory byte else left.memory byte
      trace := machine.trace ++ [event] }

def execAt (image : Image) (line : Nat) (machine : Machine) : Instruction → Option Running
  | .jump target => (image.target? target).map (⟨·, machine⟩)
  | .jumpIfEqual target => do
    let (left, right) ← machine.compared?
    if left = right then (image.target? target).map (⟨·, machine⟩)
    else some ⟨line + 1, machine⟩
  | .call target =>
    match image.target? target with
    | some index => (machine.push (image.address (line + 1))).map (⟨index, ·⟩)
    | none => (image.callRuntime target.text machine).map (⟨line + 1, ·⟩)
  | .ret => (image.line? machine.top).map (⟨·, machine.popped⟩)
  | .loadAddress source target =>
    (machine.write (image.datum source) target).map (⟨line + 1, ·⟩)
  | instruction => (machine.exec instruction).map (⟨line + 1, ·⟩)

/-- Runs one line.  Lines without an instruction do nothing. -/
def step (image : Image) (running : Running) : Option Running :=
  match image.lines[running.line]? with
  | some (.instruction _ instruction _) =>
    image.execAt running.line running.machine instruction
  | some (.directive _) | some (.label _) | some (.datum ..) =>
    some ⟨running.line + 1, running.machine⟩
  | none => none

/-- Runs any number of lines. -/
def Steps (image : Image) : Running → Running → Prop :=
  Relation.ReflTransGen fun before after => image.step before = some after

/-- Code lies in the program from a line on. -/
def Placed (image : Image) (start : Nat) (code : List Line) : Prop :=
  ∃ front back, image.lines = front ++ (code ++ back) ∧ front.length = start

/-- The machine runs through code that starts at a line, to the line behind it. -/
def Runs (image : Image) (start : Nat) (code : List Line) (before after : Machine) : Prop :=
  image.Steps ⟨start, before⟩ ⟨start + code.length, after⟩

/-- No two lines show the same label. -/
def Distinct (image : Image) : Prop :=
  (image.lines.filterMap fun line => line.listed.label?).Nodup

variable {image : Image} {start : Nat} {code first second : List Line} {line : Line}
variable {before middle after : Machine}

/-! ### Placed code -/

theorem placed_append :
    image.Placed start (first ++ second) ↔
      image.Placed start first ∧ image.Placed (start + first.length) second := by
  constructor
  · rintro ⟨front, back, hlines, rfl⟩
    constructor
    · exact ⟨front, second ++ back, by rw [hlines, List.append_assoc], rfl⟩
    · exact ⟨front ++ first, back, by rw [hlines, List.append_assoc, List.append_assoc],
        List.length_append⟩
  · rintro ⟨⟨front, back, hlines, rfl⟩, ⟨front', back', hlines', hlength⟩⟩
    refine ⟨front, back', ?_, rfl⟩
    have hsplit : (front ++ first) ++ back = front' ++ (second ++ back') := by
      rw [List.append_assoc, ← hlines, hlines']
    obtain ⟨rfl, rfl⟩ := List.append_inj hsplit (by rw [List.length_append, hlength])
    rw [hlines, List.append_assoc]

theorem Placed.head (placed : image.Placed start (line :: code)) :
    image.lines[start]? = some line := by
  obtain ⟨front, back, hlines, rfl⟩ := placed
  rw [hlines, List.getElem?_append_right (Nat.le_refl _), Nat.sub_self]
  rfl

theorem Placed.tail (placed : image.Placed start (line :: code)) :
    image.Placed (start + 1) code :=
  (placed_append.mp (show image.Placed start ([line] ++ code) from placed)).2

private theorem findIdx?_eq_of_nodup {lines : List Line} {text : String} {index : Nat}
    (distinct : (lines.filterMap fun line => line.listed.label?).Nodup)
    (hline : lines[index]? = some line) (hlabel : line.listed.label? = some text) :
    lines.findIdx? (fun line => line.listed.label? == some text) = some index := by
  induction lines generalizing index with
  | nil => cases hline
  | cons head lines ih =>
      rw [List.findIdx?_cons]
      cases index with
      | zero =>
          obtain rfl := Option.some.inj hline
          rw [hlabel, beq_self_eq_true, if_pos rfl]
      | succ index =>
          have hmem : text ∈ lines.filterMap fun line => line.listed.label? :=
            List.mem_filterMap.mpr ⟨line, List.mem_of_getElem? hline, hlabel⟩
          have hne : (head.listed.label? == some text) = false := by
            apply beq_false_of_ne
            intro heq
            rw [List.filterMap_cons, heq] at distinct
            exact (List.nodup_cons.mp distinct).1 hmem
          have htail : (lines.filterMap fun line => line.listed.label?).Nodup := by
            rw [List.filterMap_cons] at distinct
            split at distinct
            · exact distinct
            · exact (List.nodup_cons.mp distinct).2
          rw [hne, ih htail hline]
          rfl

/-- A label is found where it is shown. -/
theorem target?_eq_some (distinct : image.Distinct) {label : Label} {index : Nat}
    (hline : image.lines[index]? = some line) (hlabel : line.listed.label? = some label.text) :
    image.target? label = some index :=
  findIdx?_eq_of_nodup distinct hline hlabel

/-- A label that no line shows is not found. -/
theorem target?_eq_none {label : Label}
    (h : ∀ line ∈ image.lines, line.listed.label? ≠ some label.text) :
    image.target? label = none := by
  apply List.findIdx?_eq_none_iff.mpr
  intro line hline
  exact beq_false_of_ne (h line hline)

/-- A listing with different labels can be loaded, the lines one after another. -/
def flat (lines : List Line) (hlength : lines.length < 2 ^ 32)
    (distinct : (lines.filterMap fun line => line.listed.label?).Nodup) : Image where
  lines := lines
  address index := BitVec.ofNat 32 index
  line? word := some word.toNat
  line?_address index hindex := by
    rw [BitVec.toNat_ofNat, Nat.mod_eq_of_lt (Nat.lt_of_le_of_lt hindex hlength)]
  datum label := BitVec.ofNat 32
    ((lines.findIdx? fun line => line.listed.label? == some label.text).getD 0)
  text word :=
    match lines[word.toNat]? with
    | some (.datum _ content) => content
    | _ => ""
  text_datum label content hmem := by
    obtain ⟨index, hindex, hline⟩ := List.getElem_of_mem hmem
    have hsome : lines[index]? = some (.datum label content) :=
      List.getElem?_eq_some_iff.mpr ⟨hindex, hline⟩
    have hsmall : index < 2 ^ 32 := Nat.lt_trans hindex hlength
    simp only [findIdx?_eq_of_nodup distinct hsome rfl, Option.getD_some, BitVec.toNat_ofNat,
      Nat.mod_eq_of_lt hsmall, hsome]
  clobber _ machine := machine

/-! ### Runs -/

theorem Runs.nil (machine : Machine) : image.Runs start [] machine machine :=
  Relation.ReflTransGen.refl

theorem Runs.append (hfirst : image.Runs start first before middle)
    (hsecond : image.Runs (start + first.length) second middle after) :
    image.Runs start (first ++ second) before after := by
  unfold Runs
  rw [List.length_append, ← Nat.add_assoc]
  exact hfirst.trans hsecond

theorem Runs.of_step (h : image.step ⟨start, before⟩ = some ⟨start + 1, after⟩) :
    image.Runs start [line] before after :=
  Relation.ReflTransGen.single h

theorem step_instruction {label? : Option Label} {instruction : Instruction} {comment : String}
    (h : image.lines[start]? = some (.instruction label? instruction comment)) :
    image.step ⟨start, before⟩ = image.execAt start before instruction := by
  unfold step
  simp only [h]

/-- A line without an instruction does nothing. -/
theorem Runs.skip (placed : image.Placed start [line])
    (h : ∀ label? instruction comment, line ≠ .instruction label? instruction comment) :
    image.Runs start [line] before before := by
  apply Runs.of_step
  unfold step
  simp only [placed.head]
  cases line with
  | instruction label? instruction comment => exact absurd rfl (h label? instruction comment)
  | directive | label | datum => rfl

/-- An instruction that goes on to the next line. -/
theorem Runs.exec {label? : Option Label} {instruction : Instruction} {comment : String}
    (placed : image.Placed start [.instruction label? instruction comment])
    (h : before.exec instruction = some after) :
    image.Runs start [.instruction label? instruction comment] before after := by
  apply Runs.of_step
  rw [step_instruction placed.head]
  cases instruction with
  | move | push | pop | arith | negate | signExtend | divide | compare | storeCondition | enter
  | leave => exact congrArg (Option.map _) h
  | jump | jumpIfEqual | call | loadAddress | ret => cases h

end Image

end MiniPascal
