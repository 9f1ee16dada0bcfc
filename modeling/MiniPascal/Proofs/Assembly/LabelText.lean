import MiniPascal.Assembly.Instruction

/-!
# Reading labels

The number of a label stands in the digits at the end of its text.  Labels with
different numbers therefore have different texts, whatever names they bear.
-/

namespace MiniPascal.Assembly

/-- The number that a label was drawn with; fixed names have none. -/
def Label.number? : Label → Option Nat
  | .numbered number | .unit _ _ number => some number
  | .global _ => none

/-- The digits at the end of a text. -/
def trailingDigits (text : List Char) : List Char :=
  (text.reverse.takeWhile Char.isDigit).reverse

/-- The number at the end of a text, if it ends in digits. -/
def trailingNumber? (text : String) : Option Nat :=
  match trailingDigits text.toList with
  | [] => none
  | digits => some (Nat.ofDigitChars 10 digits 0)

theorem trailingDigits_append {front digits : List Char} {last : Char}
    (hlast : last.isDigit = false) (hdigits : ∀ digit ∈ digits, digit.isDigit = true) :
    trailingDigits (front ++ last :: digits) = digits := by
  have hreversed : ∀ digit ∈ digits.reverse, digit.isDigit = true := fun digit hdigit =>
    hdigits digit (List.mem_reverse.mp hdigit)
  rw [trailingDigits, List.reverse_append, List.reverse_cons, List.append_assoc,
    List.takeWhile_append_of_pos hreversed, List.singleton_append, List.takeWhile_cons, hlast]
  simp

theorem trailingNumber?_append {text : String} {front digits : List Char} {last : Char}
    (htext : text.toList = front ++ last :: digits) (hlast : last.isDigit = false)
    (hdigits : ∀ digit ∈ digits, digit.isDigit = true) (hnonempty : digits ≠ []) :
    trailingNumber? text = some (Nat.ofDigitChars 10 digits 0) := by
  rw [trailingNumber?, htext, trailingDigits_append hlast hdigits]
  cases digits with
  | nil => exact absurd rfl hnonempty
  | cons digit digits => rfl

private theorem toList_toString (number : Nat) :
    (toString number).toList = Nat.toDigits 10 number := by
  rw [Nat.toString_eq_ofList_toDigits, String.toList_ofList]

private theorem isDigit_of_mem_toDigits {number : Nat} {digit : Char}
    (h : digit ∈ Nat.toDigits 10 number) : digit.isDigit = true :=
  Nat.isDigit_of_mem_toDigits (by decide) (by decide) h

/-- A label that was drawn ends in its number. -/
theorem Label.trailingNumber?_text {label : Label} {number : Nat}
    (h : label.number? = some number) : trailingNumber? label.text = some number := by
  cases label with
  | numbered found =>
      obtain rfl := Option.some.inj h
      have htext : (Label.numbered found).text.toList =
          ['.'] ++ 'L' :: (List.replicate (4 - (Nat.toDigits 10 found).length) '0' ++
            Nat.toDigits 10 found) := by
        simp only [text, zeroPadded, String.toList_append, String.toList_ofList, toList_toString]
        rfl
      rw [trailingNumber?_append htext rfl, Nat.ofDigitChars_append,
        Nat.ofDigitChars_replicate_zero, Nat.mul_zero, Nat.ofDigitChars_ten_toDigits]
      · intro digit hdigit
        rcases List.mem_append.mp hdigit with hzero | hdigit
        · rw [List.eq_of_mem_replicate hzero]
          rfl
        · exact isDigit_of_mem_toDigits hdigit
      · exact List.append_ne_nil_of_right_ne_nil _ Nat.toDigits_ne_nil
  | unit stem name found =>
      obtain rfl := Option.some.inj h
      have htext : (Label.unit stem name found).text.toList =
          (stem ++ sanitize name).toList ++ '_' :: Nat.toDigits 10 found := by
        simp only [text, String.toList_append, toList_toString, List.append_assoc]
        rfl
      rw [trailingNumber?_append htext rfl, Nat.ofDigitChars_ten_toDigits]
      · exact fun digit hdigit => isDigit_of_mem_toDigits hdigit
      · exact Nat.toDigits_ne_nil
  | global name => cases h

/-- Labels with different numbers have different texts. -/
theorem Label.number?_eq_of_text_eq {label label' : Label} {number number' : Nat}
    (h : label.number? = some number) (h' : label'.number? = some number')
    (htext : label.text = label'.text) : number = number' := by
  have hread := Label.trailingNumber?_text h
  rw [htext, Label.trailingNumber?_text h'] at hread
  exact (Option.some.inj hread).symm

end MiniPascal.Assembly
