import MiniPascal.Proofs.Assembly.Immediate
import MiniPascal.Proofs.Assembly.Reading
import MiniPascal.Proofs.Assembly.Reference
import MiniPascal.Proofs.Token.Case

/-!
# Words of instructions

Opcodes, operands and labels are written in signs: letters, digits and a few marks, none of
which the reader of a listing looks for.  A line can be read back if its labels are words
and its comment does not end in a blank.
-/

namespace MiniPascal.Assembly

open MiniPascal.Text

theorem Signs.append {front back : String} (h : Signs front) (h' : Signs back) :
    Signs (front ++ back) := by
  intro c hc
  rw [String.toList_append] at hc
  exact (List.mem_append.mp hc).elim (h c) (h' c)

theorem IsWord.signs {text : String} (h : IsWord text) : Signs text :=
  h.2

theorem IsWord.append {front back : String} (h : IsWord front) (h' : Signs back) :
    IsWord (front ++ back) := by
  refine ⟨?_, h.signs.append h'⟩
  rw [String.toList_append]
  exact List.append_ne_nil_of_left_ne_nil h.1 _

theorem isSign_of_isWordChar {c : Char} (h : Token.Scan.isWordChar c = true) :
    isSign c = true := by
  rw [isSign]
  obtain hletter | hmark := Bool.or_eq_true_iff.mp h
  · rw [hletter, Bool.true_or]
  · rw [eq_of_beq hmark]
    decide

/-! ### Small characters -/

def IsSmall (c : Char) : Prop :=
  c.isLower = true ∨ c.isDigit = true ∨ c = '_'

instance (c : Char) : Decidable (IsSmall c) :=
  decidable_of_iff ((c.isLower || c.isDigit || c == '_') = true) (by simp [IsSmall, or_assoc])

def Small (text : String) : Prop :=
  ∀ c ∈ text.toList, IsSmall c

instance (text : String) : Decidable (Small text) :=
  decidable_of_iff (text.toList.all (fun c => decide (IsSmall c)) = true) (by simp [Small])

theorem Small.signs {text : String} (h : Small text) : Signs text := fun c hc =>
  isSign_of_isWordChar (Token.isWordChar_of_small (h c hc))

theorem Small.append {front back : String} (h : Small front) (h' : Small back) :
    Small (front ++ back) := by
  intro c hc
  rw [String.toList_append] at hc
  exact (List.mem_append.mp hc).elim (h c) (h' c)

theorem small_toString_nat (number : Nat) : Small (toString number) := by
  intro c hc
  rw [Nat.toString_eq_ofList_toDigits, String.toList_ofList] at hc
  exact .inr (.inl (Nat.isDigit_of_mem_toDigits (by decide) (by decide) hc))

theorem small_zeroPadded (width number : Nat) : Small (zeroPadded width number) := by
  intro c hc
  rw [zeroPadded, String.toList_ofList, List.mem_append] at hc
  obtain hzero | hdigit := hc
  · rw [List.eq_of_mem_replicate hzero]
    decide
  · exact small_toString_nat number c hdigit

theorem isSmall_of_mem_labelChars {c d : Char} (h : d ∈ labelChars c) : IsSmall d := by
  unfold labelChars at h
  split at h
  · next hplain =>
      obtain rfl := List.mem_singleton.mp h
      simpa [IsSmall, or_assoc] using hplain
  · split at h
    · next hupper =>
        obtain rfl := List.mem_singleton.mp h
        exact .inl (Token.Scan.isLower_toLower hupper)
    · split at h
      · obtain rfl := List.mem_singleton.mp h
        decide
      · split at h
        · obtain rfl | h := List.mem_cons.mp h
          · decide
          · obtain rfl := List.mem_singleton.mp h
            decide
        · obtain rfl := List.mem_singleton.mp h
          decide

theorem small_sanitize (name : String) : Small (sanitize name) := by
  intro c hc
  rw [sanitize, String.toList_ofList, List.mem_flatMap] at hc
  obtain ⟨source, -, hsource⟩ := hc
  exact isSmall_of_mem_labelChars hsource

/-! ### Numbers -/

theorem isWord_toString_int (value : Int) : IsWord (toString value) := by
  rw [Int.toString_eq_repr]
  obtain ⟨first, rest, heq, hchars⟩ := exists_toList_repr value
  refine ⟨by rw [heq]; exact List.cons_ne_nil _ _, ?_⟩
  intro c hc
  rw [heq] at hc
  obtain rfl | hdigit := hchars c hc
  · decide
  · exact isSign_of_isWordChar (Token.Scan.isWordChar_of_isDigit hdigit)

/-! ### Labels -/

/-- The text is a stem with small characters after it. -/
def IsSpelled (stem text : String) : Prop :=
  ∃ rest, text = stem ++ rest ∧ Small rest

theorem isSpelled_numbered (number : Nat) : IsSpelled ".L" (Label.numbered number).text :=
  ⟨_, rfl, small_zeroPadded 4 number⟩

/-- Whatever the stem is, and whatever the name. -/
theorem isSpelled_unit (stem name : String) (number : Nat) :
    IsSpelled stem (Label.unit stem name number).text := by
  have hmark : Small "_" := by decide
  refine ⟨sanitize name ++ ("_" ++ toString number), ?_,
    (small_sanitize name).append (hmark.append (small_toString_nat number))⟩
  rw [Label.text, String.append_assoc, String.append_assoc]

theorem IsSpelled.isWord {stem text : String} (h : IsSpelled stem text) (hstem : IsWord stem) :
    IsWord text := by
  obtain ⟨rest, rfl, hsmall⟩ := h
  exact hstem.append hsmall.signs

/-- Labels that are drawn are words, whatever names they bear. -/
theorem isWord_numbered (number : Nat) : IsWord (Label.numbered number).text :=
  (isSpelled_numbered number).isWord (by decide)

theorem isWord_unit {stem : String} (hstem : stem ∈ unitStems) (name : String) (number : Nat) :
    IsWord (Label.unit stem name number).text := by
  have hwords : ∀ stem ∈ unitStems, IsWord stem := by decide
  exact (isSpelled_unit stem name number).isWord (hwords stem hstem)

/-! ### Operands -/

theorem isWord_register (register : Register) : IsWord register.text := by
  cases register <;> decide

theorem isWord_immediate (value : Int) : IsWord ("$" ++ toString value) := by
  have hmark : IsWord "$" := by decide
  exact hmark.append (isWord_toString_int value).signs

theorem isWord_operand (operand : Operand) : IsWord operand.text := by
  cases operand with
  | immediate value => exact isWord_immediate value
  | register register => exact isWord_register register
  | memory offset base =>
      have hopen : Signs "(" := by decide
      have hclose : Signs ")" := by decide
      rw [Operand.text]
      exact (((isWord_toString_int offset).append hopen).append
        (isWord_register base).signs).append hclose

theorem isWord_opcode (done : Instruction) : IsWord done.opcode := by
  cases done with
  | arith op source target =>
      rw [Instruction.opcode]
      cases op <;> decide
  | storeCondition relation target =>
      rw [Instruction.opcode]
      cases relation <;> decide
  | move | push | pop | negate | signExtend | divide | compare | jump | jumpIfEqual | call
  | loadAddress | enter | leave | ret =>
      rw [Instruction.opcode]
      decide

theorem isWord_pair {first second : String} (h : IsWord first) (h' : IsWord second) :
    IsWord (first ++ "," ++ second) := by
  have hcomma : Signs "," := by decide
  exact (h.append hcomma).append h'.signs

/-- Operands can be read if the label among them is a word. -/
theorem isOperands_operands {done : Instruction} (haim : ∀ label ∈ done.aim?, IsWord label.text)
    (hcallee : ∀ label ∈ done.callee?, IsWord label.text) : IsOperands done.operands := by
  cases done with
  | move source target | compare source target =>
      exact .word (isWord_pair (isWord_operand source) (isWord_operand target))
  | arith op source target =>
      exact .word (isWord_pair (isWord_operand source) (isWord_operand target))
  | push operand | pop operand | negate operand | divide operand =>
      exact .word (isWord_operand operand)
  | storeCondition relation target => exact .word (isWord_operand target)
  | signExtend | leave | ret => exact .none
  | jump target | jumpIfEqual target => exact .word (haim target rfl)
  | call target => exact .word (hcallee target rfl)
  | loadAddress source target =>
      exact .word (isWord_pair (haim source rfl) (isWord_operand target))
  | enter size level =>
      have hmark : Signs ",$" := by decide
      rw [Instruction.operands]
      exact .word (((isWord_immediate size).append hmark).append (small_toString_nat level).signs)

/-! ### Lines -/

/-- The fixed parts of the line can be read back: a directive, or a comment. -/
def Line.Neat : Line → Prop
  | directive order => IsDirective order.text
  | instruction _ _ comment => IsComment comment
  | label _ | datum .. => True

/-- A line can be read back if its fixed parts can and its labels are words. -/
theorem Line.legible_listed {line : Line} (hneat : line.Neat)
    (hlabel : ∀ label ∈ line.label?, IsWord label.text)
    (haim : ∀ label ∈ line.aim?, IsWord label.text)
    (hcallee : ∀ label ∈ line.callee?, IsWord label.text) : line.listed.Legible := by
  cases line with
  | directive order => exact hneat
  | label place => exact hlabel place rfl
  | instruction label? done comment =>
      refine ⟨?_, isWord_opcode done, isOperands_operands haim hcallee, hneat⟩
      intro text htext
      obtain ⟨place, hplace, rfl⟩ := Option.map_eq_some_iff.mp htext
      exact hlabel place hplace
  | datum place text =>
      refine ⟨?_, by decide, .quoted text, by decide⟩
      rintro _ ⟨⟩
      exact hlabel place rfl

/-- No instruction has the opcode of a text. -/
theorem Instruction.opcode_ne_asciz (done : Instruction) : done.opcode ≠ ".asciz" := by
  cases done with
  | arith op source target =>
      rw [opcode]
      cases op <;> decide
  | storeCondition relation target =>
      rw [opcode]
      cases relation <;> decide
  | move | push | pop | negate | signExtend | divide | compare | jump | jumpIfEqual | call
  | loadAddress | enter | leave | ret =>
      rw [opcode]
      decide

/-- Only texts have the opcode of a text. -/
theorem Line.exists_datum {line : Line} {label? : Option String} {operands comment : String}
    (h : line.listed = .instruction label? ".asciz" operands comment) :
    ∃ text, operands = quote text ∧ comment = "" := by
  cases line with
  | directive | label => cases h
  | datum place text =>
      obtain ⟨-, -, hoperands, hcomment⟩ := ListingLine.instruction.inj h
      exact ⟨text, hoperands.symm, hcomment.symm⟩
  | instruction place? done note =>
      exact absurd (ListingLine.instruction.inj h).2.1 done.opcode_ne_asciz

/-- A text is set down in full, on one line. -/
theorem render_datum (label? : Option String) (text : String) :
    (ListingLine.instruction label? ".asciz" (quote text) "").render =
      ListingLine.margin label? ++ ".asciz  ".toList ++ (quote text).toList ++ ['\n'] := by
  have hne : (quote text).toList ≠ [] := by
    rw [toList_quote]
    exact List.cons_ne_nil _ _
  have hfront : ".asciz  ".toList = ".asciz".toList ++
      List.replicate (ListingLine.opcodeWidth - ".asciz".toList.length + 1) ' ' := by
    decide
  have hcolumns : ListingLine.columns ".asciz" (quote text) "" =
      ".asciz  ".toList ++ (quote text).toList := by
    rw [ListingLine.columns_eq, ListingLine.commentColumn_empty, List.append_nil,
      ← List.append_assoc, ← List.append_assoc, trimEnd_append_replicate, ← hfront]
    exact ((IsOperands.quoted text).isTrimmed.append hne _).trimEnd_eq
  rw [ListingLine.render, hcolumns, ← List.append_assoc]

end MiniPascal.Assembly
