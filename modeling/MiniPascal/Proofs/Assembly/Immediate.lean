import MiniPascal.Proofs.Code.Vocabulary

/-!
# Reading numbers

A written instruction has its number after a dollar sign and before the comma.  So the
numbers that a listing moves and adds can be read off its text, and they are those of the
lines it was written from.
-/

namespace MiniPascal.Assembly

/-! ### Written numbers -/

def readNat? (digits : List Char) : Option Nat :=
  if digits ≠ [] ∧ digits.all Char.isDigit then some (Nat.ofDigitChars 10 digits 0) else none

/-- The number that digits stand for, behind a minus sign if it is negative. -/
def readInt? : List Char → Option Int
  | '-' :: digits => (readNat? digits).map fun value : Nat => -(value : Int)
  | digits => (readNat? digits).map Int.ofNat

theorem readNat?_repr (value : Nat) : readNat? value.repr.toList = some value := by
  have hdigits : (Nat.toDigits 10 value).all Char.isDigit = true :=
    List.all_eq_true.mpr fun c hc => Nat.isDigit_of_mem_toDigits (by decide) (by decide) hc
  rw [Nat.toList_repr, readNat?, if_pos ⟨Nat.toDigits_ne_nil, hdigits⟩,
    Nat.ofDigitChars_ten_toDigits]

/-- A number is written with digits, behind a minus sign if it is negative. -/
theorem exists_toList_repr (value : Int) : ∃ first rest, value.repr.toList = first :: rest ∧
    ∀ c ∈ first :: rest, c = '-' ∨ c.isDigit = true := by
  have hdigits : ∀ n : Nat, ∀ c ∈ n.repr.toList, c = '-' ∨ c.isDigit = true := by
    intro n c hc
    rw [Nat.toList_repr] at hc
    exact .inr (Nat.isDigit_of_mem_toDigits (by decide) (by decide) hc)
  rw [Int.repr_eq_if]
  split
  · have hnonempty : value.toNat.repr.toList ≠ [] := by
      rw [Nat.toList_repr]
      exact Nat.toDigits_ne_nil
    obtain ⟨first, rest, heq⟩ := List.exists_cons_of_ne_nil hnonempty
    exact ⟨first, rest, heq, heq ▸ hdigits value.toNat⟩
  · rw [String.toList_append]
    exact ⟨'-', _, rfl, List.forall_mem_cons.mpr ⟨.inl rfl, hdigits _⟩⟩

/-- A written number has no character that is neither a digit nor a minus sign. -/
theorem notMem_toList_repr {c : Char} (hminus : c ≠ '-') (hdigit : c.isDigit = false)
    (value : Int) : c ∉ value.repr.toList := by
  obtain ⟨_, _, hchars, hwritten⟩ := exists_toList_repr value
  intro hc
  rcases hwritten c (hchars ▸ hc) with rfl | hisDigit
  · exact hminus rfl
  · cases hdigit.symm.trans hisDigit

/-- Digits are not taken for a minus sign. -/
theorem readInt?_of_notMem {digits : List Char} (h : '-' ∉ digits) :
    readInt? digits = (readNat? digits).map Int.ofNat := by
  unfold readInt?
  split
  · exact absurd List.mem_cons_self h
  · rfl

theorem readInt?_repr (value : Int) : readInt? value.repr.toList = some value := by
  rw [Int.repr_eq_if]
  split
  · next hle =>
      have hminus : '-' ∉ value.toNat.repr.toList := by
        intro hmem
        rw [Nat.toList_repr] at hmem
        have hdigit := Nat.isDigit_of_mem_toDigits (by decide) (by decide) hmem
        cases hdigit
      rw [readInt?_of_notMem hminus, readNat?_repr, Option.map_some]
      exact congrArg some (Int.toNat_of_nonneg hle)
  · next hneg =>
      have hsize : -((-value).toNat : Int) = value := by omega
      have hchars : ("-" ++ (-value).toNat.repr).toList = '-' :: (-value).toNat.repr.toList := by
        rw [String.toList_append]
        rfl
      rw [hchars, readInt?, readNat?_repr, Option.map_some, hsize]

/-- The number before a mark is read back. -/
theorem readInt?_takeWhile {mark : Char} (hminus : mark ≠ '-') (hdigit : mark.isDigit = false)
    (value : Int) (rest : List Char) :
    readInt? ((value.repr.toList ++ mark :: rest).takeWhile (· ≠ mark)) = some value := by
  have hmark : ∀ c ∈ value.repr.toList, decide (c ≠ mark) = true := by
    intro c hc
    apply decide_eq_true
    rintro rfl
    exact notMem_toList_repr hminus hdigit value hc
  rw [List.takeWhile_append_of_pos hmark, List.takeWhile_cons_of_neg (by simp), List.append_nil,
    readInt?_repr]

/-! ### Numbers in operands -/

/-- The number that stands first in operands. -/
def immediateIn? (operands : List Char) : Option Int :=
  match operands with
  | '$' :: rest => readInt? (rest.takeWhile (· ≠ ','))
  | _ => none

/-- The number that the line moves or adds. -/
def ListingLine.immediate? : ListingLine → Option Int
  | .instruction _ opcode operands _ =>
    if opcode = "movl" ∨ opcode = "addl" then immediateIn? operands.toList else none
  | .directive _ | .label _ => none

/-- The numbers that the listing moves and adds, in order. -/
def Listing.immediates (listing : Listing) : List Int :=
  listing.lines.filterMap ListingLine.immediate?

theorem immediateIn?_eq_none {operands : List Char} (h : operands.head? ≠ some '$') :
    immediateIn? operands = none := by
  unfold immediateIn?
  split
  · exact absurd rfl h
  · rfl

/-- The first of two operands is read as a number if and only if it is one. -/
theorem immediateIn?_operands (source target : Operand) :
    immediateIn? (source.text ++ "," ++ target.text).toList = source.immediate? := by
  cases source with
  | immediate value =>
      have hwritten : (Operand.text (.immediate value) ++ "," ++ target.text).toList =
          '$' :: (value.repr.toList ++ ',' :: target.text.toList) := by
        rw [Operand.text, String.toList_append, String.toList_append, String.toList_append,
          List.append_assoc]
        rfl
      rw [hwritten]
      exact readInt?_takeWhile (by decide) rfl value target.text.toList
  | register name =>
      apply immediateIn?_eq_none
      rw [String.toList_append, String.toList_append]
      cases name <;> simp [Operand.text, Register.text]
  | memory offset base =>
      obtain ⟨first, rest, hchars, hwritten⟩ := exists_toList_repr offset
      apply immediateIn?_eq_none
      rw [Operand.text, String.toList_append, String.toList_append, String.toList_append,
        String.toList_append, String.toList_append, Int.toString_eq_repr, hchars]
      rintro hdollar
      obtain rfl := Option.some.inj hdollar
      rcases hwritten _ List.mem_cons_self with hminus | hdigit
      · cases hminus
      · cases hdigit

/-- Reading a written line gives its number. -/
theorem Line.immediate?_listed (line : Line) : line.listed.immediate? = line.immediate? := by
  cases line with
  | directive | label | datum => rfl
  | instruction place? done comment =>
      cases done with
      | move source target => exact immediateIn?_operands source target
      | arith op source target =>
          cases op with
          | add => exact immediateIn?_operands source target
          | subtract | multiply | and | or | xor => rfl
      | storeCondition relation => cases relation <;> rfl
      | push | pop | negate | signExtend | divide | compare | jump | jumpIfEqual | call
      | loadAddress | enter | leave | ret => rfl

theorem immediates_listed (lines : List Line) :
    (Listing.mk (lines.map Line.listed)).immediates = lines.filterMap Line.immediate? := by
  rw [Listing.immediates, List.filterMap_map]
  exact congrArg (lines.filterMap ·) (funext Line.immediate?_listed)

end MiniPascal.Assembly
