import MiniPascal.Proofs.Assembly.LabelText
import MiniPascal.Proofs.Code.Labels

/-!
# Reading references

A written instruction refers to a label by its operands: a jump and a call have the
label alone, the load of an address has it before the comma.  So the references of a
listing can be read off its text, and they are those of the lines it was written from.
-/

namespace MiniPascal.Assembly

/-- Whether a written label is that of a branch target or a datum. -/
def isLocalText (text : String) : Bool :=
  ['.', 'L'].isPrefixOf text.toList

namespace ListingLine

def aim? : ListingLine → Option String
  | instruction _ opcode operands _ =>
    if opcode = "jmp" ∨ opcode = "je" then some operands
    else if opcode = "leal" then some (String.ofList (operands.toList.takeWhile (· ≠ ',')))
    else none
  | _ => none

def callee? : ListingLine → Option String
  | instruction _ opcode operands _ => if opcode = "call" then some operands else none
  | _ => none

end ListingLine

namespace Listing

def aims (listing : Listing) : List String :=
  listing.lines.filterMap ListingLine.aim?

def callees (listing : Listing) : List String :=
  listing.lines.filterMap ListingLine.callee?

end Listing

/-! ### Labels as they are written -/

theorem isLocalText_numbered (number : Nat) : isLocalText (Label.numbered number).text = true := by
  rw [isLocalText, Label.text, String.toList_append]
  rfl

def unitStems : List String :=
  [Label.programStem, Label.procedureStem, Label.functionStem]

theorem labelStem_mem (kind : DeclKind) : Code.labelStem kind ∈ unitStems := by
  unfold Code.labelStem
  split
  · split <;> decide
  · decide

theorem isLocalText_unit {stem : String} (hstem : stem ∈ unitStems) (name : String)
    (number : Nat) : isLocalText (Label.unit stem name number).text = false := by
  rw [isLocalText, Label.text, String.toList_append, String.toList_append, String.toList_append]
  simp only [unitStems, List.mem_cons, List.not_mem_nil, or_false] at hstem
  rcases hstem with rfl | rfl | rfl <;> rfl

/-- The text of a local label has no comma. -/
theorem comma_notMem_text {label : Label} (h : label.isLocal = true) :
    ∀ char ∈ label.text.toList, char ≠ ',' := by
  cases label with
  | numbered number =>
      intro char hchar
      simp only [Label.text, zeroPadded, String.toList_append, String.toList_ofList,
        Nat.toString_eq_ofList_toDigits, List.mem_append] at hchar
      rcases hchar with hfront | hzero | hdigit
      · rintro rfl
        revert hfront
        decide
      · rw [List.eq_of_mem_replicate hzero]
        decide
      · rintro rfl
        have := Nat.isDigit_of_mem_toDigits (by decide) (by decide) hdigit
        cases this
  | unit | global => cases h

/-! ### References as they are written -/

theorem Line.label?_listed (line : Line) : line.listed.label? = line.label?.map Label.text := by
  cases line <;> rfl

theorem Line.callee?_listed (line : Line) :
    line.listed.callee? = line.callee?.map Label.text := by
  cases line with
  | directive | label | datum => rfl
  | instruction place? done comment =>
      cases done with
      | arith op => cases op <;> rfl
      | storeCondition relation => cases relation <;> rfl
      | move | push | pop | negate | signExtend | divide | compare | jump | jumpIfEqual | call
      | loadAddress | enter | leave | ret => rfl

theorem Line.aim?_listed {line : Line} (h : ∀ label ∈ line.aim?, label.isLocal = true) :
    line.listed.aim? = line.aim?.map Label.text := by
  cases line with
  | directive | label | datum => rfl
  | instruction place? done comment =>
      cases done with
      | arith op => cases op <;> rfl
      | storeCondition relation => cases relation <;> rfl
      | loadAddress source target =>
          have hcomma := comma_notMem_text (h source rfl)
          have htake : (source.text ++ "," ++ target.text).toList.takeWhile (· ≠ ',') =
              source.text.toList := by
            rw [String.toList_append, String.toList_append, List.append_assoc,
              List.takeWhile_append_of_pos (fun char hchar => decide_eq_true (hcomma char hchar))]
            exact List.append_nil _
          change some (String.ofList _) = some source.text
          rw [Instruction.operands, htake, String.ofList_toList]
      | move | push | pop | negate | signExtend | divide | compare | jump | jumpIfEqual | call
      | enter | leave | ret => rfl

section Lines

variable (lines : List Line)

theorem filterMap_label?_listed :
    (lines.map Line.listed).filterMap ListingLine.label? = (shown lines).map Label.text := by
  rw [List.filterMap_map, shown, List.map_filterMap]
  exact congrArg (lines.filterMap ·) (funext Line.label?_listed)

theorem filterMap_callee?_listed :
    (lines.map Line.listed).filterMap ListingLine.callee? = (called lines).map Label.text := by
  rw [List.filterMap_map, called, List.map_filterMap]
  exact congrArg (lines.filterMap ·) (funext Line.callee?_listed)

theorem filterMap_aim?_listed {lines : List Line}
    (h : ∀ label ∈ aimed lines, label.isLocal = true) :
    (lines.map Line.listed).filterMap ListingLine.aim? = (aimed lines).map Label.text := by
  rw [List.filterMap_map, aimed, List.map_filterMap]
  apply List.filterMap_congr
  intro line hline
  apply Line.aim?_listed
  exact fun label hlabel => h label (List.mem_filterMap.mpr ⟨line, hline, hlabel⟩)

end Lines

end MiniPascal.Assembly
