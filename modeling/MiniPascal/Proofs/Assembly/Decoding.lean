import MiniPascal.Proofs.Assembly.Words
import MiniPascal.Proofs.Text.Quoted
import Mathlib.Data.Set.Function

/-!
# Decoding listings

A line of code can be had back from the line of a listing that it was written as: its opcode
says what kind of instruction it is, and its operands are read one by one.  A label is read
by its text, so the line is had back wherever no two labels have the same text, and there a
listing determines the lines it was written from.
-/

namespace MiniPascal.Assembly

open MiniPascal.Text

/-! ### Operands -/

/-- What stands before the last comma, and what stands after it. -/
def splitComma (operands : List Char) : List Char × List Char :=
  let back := operands.reverse.takeWhile (· ≠ ',')
  ((operands.reverse.drop (back.length + 1)).reverse, back.reverse)

theorem splitComma_append (front : List Char) {back : List Char} (h : ',' ∉ back) :
    splitComma (front ++ ',' :: back) = (front, back) := by
  have hback : ∀ c ∈ back.reverse, decide (c ≠ ',') = true := by
    intro c hc
    apply decide_eq_true
    rintro rfl
    exact h (List.mem_reverse.mp hc)
  have hreversed : (front ++ ',' :: back).reverse = back.reverse ++ ',' :: front.reverse := by
    simp
  have htaken : (back.reverse ++ ',' :: front.reverse).takeWhile (· ≠ ',') = back.reverse := by
    rw [List.takeWhile_append_of_pos hback, List.takeWhile_cons_of_neg (by decide),
      List.append_nil]
  have hdropped : (back.reverse ++ ',' :: front.reverse).drop (back.reverse.length + 1) =
      front.reverse := by
    rw [← List.drop_drop, List.drop_left, List.drop_one, List.tail_cons]
  simp only [splitComma, hreversed, htaken, hdropped, List.reverse_reverse]

def Register.read? (chars : List Char) : Option Register :=
  [eax, ecx, edx, ebp, esp, al].find? (·.text.toList = chars)

theorem Register.read?_text (register : Register) :
    read? register.text.toList = some register := by
  cases register <;> decide

def Operand.read? (chars : List Char) : Option Operand :=
  match chars with
  | '$' :: digits => (readInt? digits).map immediate
  | '%' :: _ => (Register.read? chars).map register
  | _ => do
    let offset ← readInt? (chars.takeWhile (· ≠ '('))
    let base ← Register.read? ((chars.dropWhile (· ≠ '(')).drop 1).dropLast
    return .memory offset base

theorem Operand.toList_text_memory (offset : Int) (base : Register) :
    (memory offset base).text.toList =
      offset.repr.toList ++ '(' :: (base.text.toList ++ [')']) := by
  rw [text, String.toList_append, String.toList_append, String.toList_append, List.append_assoc,
    List.append_assoc]
  rfl

theorem Operand.read?_text (operand : Operand) : read? operand.text.toList = some operand := by
  cases operand with
  | immediate value =>
      have hchars : (immediate value).text.toList = '$' :: value.repr.toList := by
        rw [text, String.toList_append]
        rfl
      rw [hchars, read?, readInt?_repr, Option.map_some]
  | register name =>
      cases name <;> decide
  | memory offset base =>
      obtain ⟨first, rest, hchars, hwritten⟩ := exists_toList_repr offset
      have hparen : ∀ c ∈ offset.repr.toList, decide (c ≠ '(') = true := by
        intro c hc
        apply decide_eq_true
        rintro rfl
        exact notMem_toList_repr (by decide) rfl offset hc
      have hbase : ((offset.repr.toList ++ '(' :: (base.text.toList ++ [')'])).dropWhile
          (· ≠ '(')).drop 1 = base.text.toList ++ [')'] := by
        rw [List.dropWhile_append_of_pos hparen, List.dropWhile_cons_of_neg (by decide)]
        rfl
      rw [toList_text_memory, read?]
      · rw [readInt?_takeWhile (by decide) rfl, hbase, List.dropLast_concat, Register.read?_text]
        rfl
      all_goals
        intro _ hfirst
        rw [hchars] at hfirst
        obtain rfl := (List.cons.inj hfirst).1
        rcases hwritten _ List.mem_cons_self with hminus | hdigit
        · cases hminus
        · cases hdigit

theorem Operand.comma_notMem (operand : Operand) : ',' ∉ operand.text.toList := by
  have hregister (name : Register) : ',' ∉ name.text.toList := by
    cases name <;> decide
  cases operand with
  | immediate value =>
      rw [text, String.toList_append, List.mem_append, not_or]
      exact ⟨by decide, notMem_toList_repr (by decide) rfl value⟩
  | register name => exact hregister name
  | memory offset base =>
      have hoffset := notMem_toList_repr (by decide : ',' ≠ '-') rfl offset
      have hbase := hregister base
      simp [toList_text_memory, hoffset, hbase]

def readPair? (operands : List Char) : Option (Operand × Operand) := do
  let (front, back) := splitComma operands
  return (← Operand.read? front, ← Operand.read? back)

/-- Operands with a comma between them, as characters. -/
theorem toList_pair (first second : String) :
    (first ++ "," ++ second).toList = first.toList ++ ',' :: second.toList := by
  rw [String.toList_append, String.toList_append, List.append_assoc]
  rfl

theorem readPair?_text (source target : Operand) :
    readPair? (source.text ++ "," ++ target.text).toList = some (source, target) := by
  simp only [readPair?, toList_pair, splitComma_append _ target.comma_notMem, Operand.read?_text]
  rfl

/-! ### Instructions -/

def ArithOp.read? (opcode : String) : Option ArithOp :=
  [add, subtract, multiply, and, or, xor].find? (·.opcode = opcode)

/-- The relation whose outcome an instruction with the opcode stores. -/
def readCondition? (opcode : String) : Option Relation :=
  [.equal, .notEqual, .less, .lessEqual, .greater, .greaterEqual].find?
    fun relation : Relation => "set" ++ relation.condition = opcode

/-- The instruction with the opcode and operands, if labels are read as given. -/
def Instruction.read? (label : String → Label) (opcode operands : String) : Option Instruction :=
  let chars := operands.toList
  match opcode with
  | "movl" => (readPair? chars).map fun (source, target) => move source target
  | "pushl" => (Operand.read? chars).map push
  | "popl" => (Operand.read? chars).map pop
  | "negl" => (Operand.read? chars).map negate
  | "cdq" => some signExtend
  | "idivl" => (Operand.read? chars).map divide
  | "cmpl" => (readPair? chars).map fun (source, target) => compare source target
  | "jmp" => some (jump (label operands))
  | "je" => some (jumpIfEqual (label operands))
  | "call" => some (call (label operands))
  | "leal" =>
    let (source, target) := splitComma chars
    (Operand.read? target).map (loadAddress (label (String.ofList source)))
  | "enter" => do
    let (size, level) := splitComma chars
    return enter (← readInt? (size.drop 1)) (← readNat? (level.drop 1))
  | "leave" => some leave
  | "ret" => some ret
  | _ =>
    match ArithOp.read? opcode with
    | some op => (readPair? chars).map fun (source, target) => arith op source target
    | none => (readCondition? opcode).bind fun relation =>
      (Operand.read? chars).map (storeCondition relation)

section Instructions

variable {label : String → Label}

theorem Instruction.read?_arith (op : ArithOp) (operands : String) :
    read? label op.opcode operands =
      (readPair? operands.toList).map fun (source, target) => arith op source target := by
  cases op <;> rfl

theorem Instruction.read?_storeCondition (relation : Relation) (operands : String) :
    read? label ("set" ++ relation.condition) operands =
      (Operand.read? operands.toList).map (storeCondition relation) := by
  have harith : ArithOp.read? ("set" ++ relation.condition) = none := by
    cases relation <;> decide
  have hrelation : readCondition? ("set" ++ relation.condition) = some relation := by
    cases relation <;> decide
  cases relation <;> simp only [Relation.condition, String.reduceAppend] at harith hrelation ⊢ <;>
    simp [read?, harith, hrelation]

theorem Instruction.read?_loadAddress {source : Label} (h : label source.text = source)
    (target : Operand) :
    read? label "leal" (source.text ++ "," ++ target.text) = some (loadAddress source target) := by
  simp only [read?, toList_pair, splitComma_append _ target.comma_notMem, Operand.read?_text,
    String.ofList_toList, h, Option.map_some]

theorem Instruction.read?_enter (size : Int) (level : Nat) :
    read? label "enter" (enter size level).operands = some (enter size level) := by
  have hchars : (enter size level).operands.toList =
      ('$' :: size.repr.toList) ++ ',' :: ('$' :: level.repr.toList) := by
    simp [operands]
  have hlevel : ',' ∉ '$' :: level.repr.toList := by
    have hdigits := notMem_toList_repr (by decide : ',' ≠ '-') rfl (level : Int)
    exact List.not_mem_cons_of_ne_of_not_mem (by decide) hdigits
  simp only [read?, hchars, splitComma_append _ hlevel, List.drop_one, List.tail_cons,
    readInt?_repr, readNat?_repr]
  rfl

/-- An instruction is had back from its opcode and operands, if its labels are. -/
theorem Instruction.read?_written {done : Instruction}
    (haim : ∀ target ∈ done.aim?, label target.text = target)
    (hcallee : ∀ target ∈ done.callee?, label target.text = target) :
    read? label done.opcode done.operands = some done := by
  cases done with
  | move source target | compare source target =>
      simp only [read?, opcode, operands, readPair?_text, Option.map_some]
  | push operand | pop operand | negate operand | divide operand =>
      simp only [read?, opcode, operands, Operand.read?_text, Option.map_some]
  | signExtend | leave | ret => rfl
  | jump target | jumpIfEqual target => simp only [read?, opcode, operands, haim target rfl]
  | call target => simp only [read?, opcode, operands, hcallee target rfl]
  | loadAddress source target => exact read?_loadAddress (haim source rfl) target
  | enter size level => exact read?_enter size level
  | arith op source target =>
      rw [opcode, operands, read?_arith, readPair?_text, Option.map_some]
  | storeCondition relation target =>
      rw [opcode, operands, read?_storeCondition, Operand.read?_text, Option.map_some]

end Instructions

/-! ### Lines -/

def Directive.read? (text : String) : Option Directive :=
  let chars := text.toList
  if chars = ".data".toList then some dataSection
  else if chars = ".text".toList then some textSection
  else if chars.take 8 = ".extern ".toList then some (external (String.ofList (chars.drop 8)))
  else if chars.take 7 = ".globl ".toList then some (global (String.ofList (chars.drop 7)))
  else if chars.take 7 = ".align ".toList then (readNat? (chars.drop 7)).map align
  else none

theorem Directive.read?_text (order : Directive) : read? order.text = some order := by
  cases order with
  | external name | global name => simp [read?, text]
  | dataSection | textSection => rfl
  | align boundary =>
      have hboundary := readNat?_repr boundary
      rw [Nat.toList_repr] at hboundary
      simp [read?, text, hboundary]

/-- The line of code that a line of a listing was written from, if labels are read as given. -/
def Line.read? (label : String → Label) : ListingLine → Option Line
  | .directive text => (Directive.read? text).map directive
  | .label text => some (Line.label (label text))
  | .instruction label? opcode operands comment =>
    if opcode = ".asciz" then
      label?.bind fun place =>
        (unquote operands.toList).map fun (text, _) => datum (label place) text
    else
      (Instruction.read? label opcode operands).map
        fun done => instruction (label?.map label) done comment

/-- A line of code is had back from its line in a listing, if its labels are. -/
theorem Line.read?_listed {label : String → Label} {line : Line}
    (hlabel : ∀ place ∈ line.label?, label place.text = place)
    (haim : ∀ target ∈ line.aim?, label target.text = target)
    (hcallee : ∀ target ∈ line.callee?, label target.text = target) :
    read? label line.listed = some line := by
  cases line with
  | directive order => rw [listed, read?, Directive.read?_text, Option.map_some]
  | label place => rw [listed, read?, hlabel place rfl]
  | datum place text =>
      have hquoted : unquote (quote text).toList = some (text, []) :=
        unquote_eq_some_iff.mpr (List.append_nil _).symm
      rw [listed, read?, if_pos rfl, hquoted, Option.bind_some, Option.map_some, hlabel place rfl]
  | instruction place? done comment =>
      have hplace : (place?.map Label.text).map label = place? := by
        cases place? with
        | none => rfl
        | some place => exact congrArg some (hlabel place rfl)
      rw [listed, read?, if_neg done.opcode_ne_asciz, Instruction.read?_written haim hcallee,
        Option.map_some, hplace]

/-- The labels in lines: those they show, those they aim at and those they call. -/
def mentioned (lines : List Line) : List Label :=
  shown lines ++ aimed lines ++ called lines

section Mentioned

variable {lines : List Line} {line : Line} {label : Label}

theorem mem_mentioned_of_label? (hline : line ∈ lines) (h : label ∈ line.label?) :
    label ∈ mentioned lines :=
  List.mem_append_left _ (List.mem_append_left _ (List.mem_filterMap.mpr ⟨line, hline, h⟩))

theorem mem_mentioned_of_aim? (hline : line ∈ lines) (h : label ∈ line.aim?) :
    label ∈ mentioned lines :=
  List.mem_append_left _ (List.mem_append_right _ (List.mem_filterMap.mpr ⟨line, hline, h⟩))

theorem mem_mentioned_of_callee? (hline : line ∈ lines) (h : label ∈ line.callee?) :
    label ∈ mentioned lines :=
  List.mem_append_right _ (List.mem_filterMap.mpr ⟨line, hline, h⟩)

theorem mentioned_subset {lines' : List Line} (h : lines ⊆ lines') :
    mentioned lines ⊆ mentioned lines' := by
  intro label hlabel
  simp only [mentioned, shown, aimed, called, List.mem_append] at hlabel ⊢
  refine hlabel.imp (Or.imp ?_ ?_) ?_ <;> exact fun hmem => List.filterMap_subset _ h hmem

end Mentioned

/-- **A listing determines its lines.**  Lines of code that are listed alike are the same, if no
two labels in them have the same text. -/
theorem eq_of_map_listed_eq {lines lines' : List Line}
    (hapart : Set.InjOn Label.text {label | label ∈ mentioned lines ++ mentioned lines'})
    (h : lines.map Line.listed = lines'.map Line.listed) : lines = lines' := by
  have hnonempty : Nonempty Label := ⟨.global ""⟩
  let label := Function.invFunOn Label.text {label | label ∈ mentioned lines ++ mentioned lines'}
  have hread {found : Label} (hfound : found ∈ mentioned lines ++ mentioned lines') :
      label found.text = found := hapart.leftInvOn_invFunOn hfound
  have hlines (code : List Line) (hcode : mentioned code ⊆ mentioned lines ++ mentioned lines') :
      (code.map Line.listed).map (Line.read? label) = code.map some := by
    rw [List.map_map]
    apply List.map_congr_left
    intro line hline
    apply Line.read?_listed
    · exact fun place hplace => hread (hcode (mem_mentioned_of_label? hline hplace))
    · exact fun target htarget => hread (hcode (mem_mentioned_of_aim? hline htarget))
    · exact fun target htarget => hread (hcode (mem_mentioned_of_callee? hline htarget))
  have hsame : lines.map some = lines'.map some := by
    rw [← hlines lines (List.subset_append_left _ _), h,
      hlines lines' (List.subset_append_right _ _)]
  exact List.map_injective_iff.mpr (Option.some_injective Line) hsame

end MiniPascal.Assembly
