import MiniPascal.Proofs.Token.Gaps
import Mathlib.Data.List.TakeWhile

/-!
# Lexemes

A lexeme is a word, a run of digits, a text in quotes or a symbol.  Which of them stands
at the front of a text is decided by its first character, and scanning takes off the
longest one: what comes after it could not be a part of it.
-/

namespace MiniPascal.Token

/-- The number of the token fits a 32-bit immediate. -/
def InRange : Token → Prop
  | number value => value ≤ 2147483647
  | _ => True

/-- The character would go on the lexeme of the token, if it came right after it. -/
def goesOnWith : Token → Char → Bool
  | name _, c | keyword _, c => Scan.isWordChar c
  | number _, c => c.isDigit
  | text _, c => c == '\''
  | symbol mark, c => (Symbol.ofSpelling? (String.ofList (mark.spelling.toList ++ [c]))).isSome
  | endOfFile, _ => false

theorem goesOnWith_ofWord (word : String) (c : Char) :
    (ofWord word).goesOnWith c = Scan.isWordChar c := by
  unfold ofWord
  split <;> rfl

theorem inRange_ofWord (word : String) : (ofWord word).InRange := by
  unfold ofWord
  split <;> trivial

end MiniPascal.Token

namespace MiniPascal.Symbol

/-- A symbol has one or two characters. -/
theorem spelling_cases (mark : Symbol) :
    (∃ c, mark.spelling.toList = [c]) ∨ ∃ c d, mark.spelling.toList = [c, d] := by
  cases mark <;> first | exact .inl ⟨_, rfl⟩ | exact .inr ⟨_, _, rfl⟩

theorem spelling_eq_of_ofSpelling? {text : String} {mark : Symbol}
    (h : ofSpelling? text = some mark) : mark.spelling = text := by
  have hfound := List.find?_some h
  exact eq_of_beq hfound

theorem ofSpelling?_ofList {mark : Symbol} {chars : List Char}
    (h : mark.spelling.toList = chars) : ofSpelling? (String.ofList chars) = some mark := by
  rw [← h, String.ofList_toList, ofSpelling?_spelling]

theorem toList_of_ofSpelling? {chars : List Char} {mark : Symbol}
    (h : ofSpelling? (String.ofList chars) = some mark) : mark.spelling.toList = chars := by
  rw [spelling_eq_of_ofSpelling? h, String.toList_ofList]

/-- No symbol begins like another lexeme, a blank or a comment. -/
theorem first_ne (mark : Symbol) {c : Char} (h : mark.spelling.toList.head? = some c) :
    c.isAlpha = false ∧ c.isDigit = false ∧ c ≠ '\'' ∧ c ≠ '{' ∧ c ≠ '/' ∧
      Text.isBlank c = false := by
  cases mark <;> cases h <;> decide

/-- The second character of a symbol is one of three. -/
theorem second_mem {mark : Symbol} {front : List Char} {c : Char}
    (h : mark.spelling.toList = front ++ [c]) (hfront : front ≠ []) : c ∈ ['=', '>', '.'] := by
  have hlast : mark.spelling.toList.getLast? = some c := by
    rw [h, List.getLast?_concat]
  have hlength : mark.spelling.toList.length ≠ 1 := by
    rw [h, List.length_append]
    have := List.length_pos_iff.mpr hfront
    simp only [List.length_singleton]
    omega
  cases mark <;> first | exact absurd rfl hlength | (cases hlast; decide)

theorem lineFeed_notMem (mark : Symbol) : '\n' ∉ mark.spelling.toList := by
  cases mark <;> decide

end MiniPascal.Symbol

namespace MiniPascal.Token.Scan

open MiniPascal.Text

/-! ### Characters -/

section Characters

variable {c : Char}

theorem isUpper_iff : c.isUpper = true ↔ 65 ≤ c.val.toNat ∧ c.val.toNat ≤ 90 := by
  change decide ('A'.val ≤ c.val ∧ c.val ≤ 'Z'.val) = true ↔ _
  rw [decide_eq_true_eq, UInt32.le_iff_toNat_le, UInt32.le_iff_toNat_le]
  exact Iff.rfl

theorem isLower_iff : c.isLower = true ↔ 97 ≤ c.val.toNat ∧ c.val.toNat ≤ 122 := by
  change (decide ('a'.val ≤ c.val) && decide (c.val ≤ 'z'.val)) = true ↔ _
  rw [Bool.and_eq_true, decide_eq_true_eq, decide_eq_true_eq, UInt32.le_iff_toNat_le,
    UInt32.le_iff_toNat_le]
  exact Iff.rfl

theorem isDigit_iff : c.isDigit = true ↔ 48 ≤ c.val.toNat ∧ c.val.toNat ≤ 57 := by
  change (decide ('0'.val ≤ c.val) && decide (c.val ≤ '9'.val)) = true ↔ _
  rw [Bool.and_eq_true, decide_eq_true_eq, decide_eq_true_eq, UInt32.le_iff_toNat_le,
    UInt32.le_iff_toNat_le]
  exact Iff.rfl

theorem isAlpha_eq : c.isAlpha = (c.isUpper || c.isLower) := rfl

theorem isWordChar_of_isDigit (h : c.isDigit = true) : isWordChar c = true := by
  rw [isWordChar, Char.isAlphanum, h, Bool.or_true, Bool.true_or]

theorem isWordChar_of_isAlpha (h : c.isAlpha = true) : isWordChar c = true := by
  rw [isWordChar, Char.isAlphanum, h, Bool.true_or, Bool.true_or]

theorem isAlpha_of_isDigit (h : c.isDigit = true) : c.isAlpha = false := by
  rw [isDigit_iff] at h
  rw [isAlpha_eq, Bool.or_eq_false_iff, Bool.eq_false_iff, Bool.eq_false_iff, ne_eq, ne_eq,
    isUpper_iff, isLower_iff]
  omega

/-- Blanks do not belong to words. -/
theorem isWordChar_of_isBlank (h : isBlank c = true) : isWordChar c = false := by
  have hne : c ≠ '_' := by
    rintro rfl
    cases h
  simp only [isBlank, blankRanges, List.any_cons, List.any_nil, Bool.or_false, Bool.or_eq_true,
    Bool.and_eq_true, decide_eq_true_eq, Char.toNat] at h
  have hupper : ¬c.isUpper = true := by
    rw [isUpper_iff]
    omega
  have hlower : ¬c.isLower = true := by
    rw [isLower_iff]
    omega
  have hdigit : ¬c.isDigit = true := by
    rw [isDigit_iff]
    omega
  rw [isWordChar, Char.isAlphanum, isAlpha_eq, Bool.eq_false_iff.mpr hupper,
    Bool.eq_false_iff.mpr hlower, Bool.eq_false_iff.mpr hdigit, beq_eq_false_iff_ne.mpr hne]
  rfl

theorem isBlank_of_isWordChar (h : isWordChar c = true) : isBlank c = false := by
  cases hblank : isBlank c with
  | false => rfl
  | true => rw [isWordChar_of_isBlank hblank] at h; cases h

end Characters

/-! ### Lexemes and their tokens -/

/-- The inside of a text string: every quote is doubled. -/
def doubled (value : List Char) : List Char :=
  value.flatMap fun c => if c = '\'' then ['\'', '\''] else [c]

/-- A lexeme denotes a token. -/
inductive Denotes : List Char → Token → Prop
  | word {first : Char} {rest : List Char} (hfirst : first.isAlpha = true)
      (hrest : ∀ c ∈ rest, isWordChar c = true) :
      Denotes (first :: rest) (.ofWord (String.ofList ((first :: rest).map Char.toLower)))
  | number {first : Char} {rest : List Char} (hfirst : first.isDigit = true)
      (hrest : ∀ c ∈ rest, c.isDigit = true) :
      Denotes (first :: rest) (.number (Nat.ofDigitChars 10 (first :: rest) 0))
  | text {value : List Char} (h : '\n' ∉ value) :
      Denotes ('\'' :: (doubled value ++ ['\''])) (.text (String.ofList value))
  | symbol (mark : Symbol) : Denotes mark.spelling.toList (.symbol mark)

/-- A word, a run of digits, a text in quotes, or a symbol. -/
def IsLexeme (chars : List Char) : Prop :=
  ∃ token, Denotes chars token

/-- What comes after a lexeme does not go on it. -/
def StopsAt (token : Token) (rest : List Char) : Prop :=
  ∀ c, rest.head? = some c → token.goesOnWith c = false

theorem doubled_cons_quote (value : List Char) :
    doubled ('\'' :: value) = '\'' :: '\'' :: doubled value := rfl

theorem doubled_cons_of_ne {c : Char} (h : c ≠ '\'') (value : List Char) :
    doubled (c :: value) = c :: doubled value := by
  rw [doubled, List.flatMap_cons, if_neg h]
  rfl

theorem doubled_append (value value' : List Char) :
    doubled (value ++ value') = doubled value ++ doubled value' :=
  List.flatMap_append

namespace Denotes

variable {c : Char} {chars rest : List Char} {token : Token}

theorem ne_nil (h : Denotes chars token) : chars ≠ [] := by
  cases h with
  | word | number | text => exact List.cons_ne_nil _ _
  | symbol mark => cases mark <;> exact List.cons_ne_nil _ _

/-- The first character of a lexeme begins neither a blank nor a comment. -/
theorem first_ne (h : Denotes (c :: chars) token) : c ≠ '{' ∧ c ≠ '/' ∧ isBlank c = false := by
  generalize hall : c :: chars = all at h
  cases h with
  | word hfirst _ =>
      obtain ⟨rfl, -⟩ := List.cons.inj hall
      refine ⟨?_, ?_, isBlank_of_isWordChar (isWordChar_of_isAlpha hfirst)⟩ <;>
      · rintro rfl
        cases hfirst
  | number hfirst _ =>
      obtain ⟨rfl, -⟩ := List.cons.inj hall
      refine ⟨?_, ?_, isBlank_of_isWordChar (isWordChar_of_isDigit hfirst)⟩ <;>
      · rintro rfl
        cases hfirst
  | text =>
      obtain ⟨rfl, -⟩ := List.cons.inj hall
      decide
  | symbol mark =>
      have hhead : mark.spelling.toList.head? = some c := by
        rw [← hall]
        rfl
      obtain ⟨-, -, -, hrest⟩ := mark.first_ne hhead
      exact hrest

/-- A lexeme is of the class that its first character decides. -/
theorem shape (h : Denotes (c :: chars) token) :
    if c.isAlpha then ∀ d ∈ chars, isWordChar d = true
    else if c.isDigit then ∀ d ∈ chars, d.isDigit = true
    else if c = '\'' then ∃ value, '\n' ∉ value ∧ chars = doubled value ++ ['\'']
    else ∃ mark : Symbol, c :: chars = mark.spelling.toList := by
  generalize hall : c :: chars = all at h
  cases h with
  | word hfirst hrest =>
      obtain ⟨rfl, rfl⟩ := List.cons.inj hall
      rwa [if_pos hfirst]
  | number hfirst hrest =>
      obtain ⟨rfl, rfl⟩ := List.cons.inj hall
      rwa [isAlpha_of_isDigit hfirst, if_neg Bool.false_ne_true, if_pos hfirst]
  | @text value hvalue =>
      obtain ⟨rfl, rfl⟩ := List.cons.inj hall
      exact ⟨value, hvalue, rfl⟩
  | symbol mark =>
      have hhead : mark.spelling.toList.head? = some c := by
        rw [← hall]
        rfl
      obtain ⟨halpha, hdigit, hquote, -⟩ := mark.first_ne hhead
      rw [halpha, hdigit, if_neg Bool.false_ne_true, if_neg Bool.false_ne_true, if_neg hquote]
      exact ⟨mark, rfl⟩

/-- A lexeme lies on one line. -/
theorem lineFeeds_eq_zero (h : Denotes chars token) : lineFeeds chars = 0 := by
  apply List.count_eq_zero.mpr
  cases h with
  | word hfirst hrest =>
      intro hmem
      rcases List.mem_cons.mp hmem with rfl | hmem
      · cases hfirst
      · cases hrest _ hmem
  | number hfirst hrest =>
      intro hmem
      rcases List.mem_cons.mp hmem with rfl | hmem
      · cases hfirst
      · cases hrest _ hmem
  | @text value hvalue =>
      have hinside : '\n' ∉ doubled value := by
        intro hmem
        obtain ⟨c, hc, hmem⟩ := List.mem_flatMap.mp hmem
        split at hmem
        · revert hmem
          decide
        · rw [List.mem_singleton] at hmem
          exact hvalue (hmem ▸ hc)
      simp only [List.mem_cons, List.mem_append, List.not_mem_nil, or_false, not_or]
      exact ⟨by decide, hinside, by decide⟩
  | symbol mark => exact mark.lineFeed_notMem

end Denotes

/-! ### Texts in quotes -/

theorem closeString_doubled_cons {c : Char} (hline : c ≠ '\n') (value rest : List Char) :
    closeString (doubled (c :: value) ++ rest) =
      (closeString (doubled value ++ rest)).map fun (value, back) => (c :: value, back) := by
  by_cases hquote : c = '\''
  · subst hquote
    rfl
  · rw [doubled_cons_of_ne hquote, List.cons_append, closeString, if_neg hline]
    · exact fun _ heq => absurd heq hquote
    · exact hquote

theorem closeString_doubled {value rest : List Char} (hvalue : '\n' ∉ value)
    (hstop : rest.head? ≠ some '\'') :
    closeString (doubled value ++ '\'' :: rest) = some (value, rest) := by
  induction value with
  | nil =>
      change closeString ('\'' :: rest) = _
      rw [closeString]
      rintro back rfl
      exact hstop rfl
  | cons c value ih =>
      obtain ⟨hne, hinside⟩ := not_or.mp (mt List.mem_cons.mpr hvalue)
      rw [closeString_doubled_cons (Ne.symm hne), ih hinside]
      rfl

theorem exists_of_closeString {text value back : List Char}
    (h : closeString text = some (value, back)) :
    text = doubled value ++ '\'' :: back ∧ '\n' ∉ value ∧ back.head? ≠ some '\'' := by
  fun_induction closeString text generalizing value with
  | case1 => cases h
  | case2 rest ih =>
      obtain ⟨⟨value', back'⟩, hinner, houter⟩ := Option.map_eq_some_iff.mp h
      obtain ⟨rfl, rfl⟩ := Prod.mk.inj houter
      obtain ⟨rfl, hvalue, hback⟩ := ih hinner
      refine ⟨rfl, List.not_mem_cons_of_ne_of_not_mem (by decide) hvalue, hback⟩
  | case3 rest hnot =>
      obtain ⟨rfl, rfl⟩ := Prod.mk.inj (Option.some.inj h)
      refine ⟨rfl, List.not_mem_nil, ?_⟩
      intro hhead
      obtain ⟨after, rfl⟩ := List.head?_eq_some_iff.mp hhead
      exact hnot after rfl
  | case4 => cases h
  | case5 c rest hdouble hquote hne ih =>
      obtain ⟨⟨value', back'⟩, hinner, houter⟩ := Option.map_eq_some_iff.mp h
      obtain ⟨rfl, rfl⟩ := Prod.mk.inj houter
      obtain ⟨rfl, hvalue, hback⟩ := ih hinner
      refine ⟨?_, List.not_mem_cons_of_ne_of_not_mem (Ne.symm hne) hvalue, hback⟩
      rw [doubled_cons_of_ne hquote]
      rfl

/-! ### Symbols -/

theorem leadingSymbol?_spelling {mark : Symbol} {rest : List Char}
    (hstop : StopsAt (.symbol mark) rest) :
    leadingSymbol? (mark.spelling.toList ++ rest) = some (mark, rest) := by
  rcases mark.spelling_cases with ⟨c, hmark⟩ | ⟨c, d, hmark⟩
  · have hone := Symbol.ofSpelling?_ofList hmark
    rw [hmark, List.singleton_append]
    cases rest with
    | nil => rw [leadingSymbol?, hone, Option.map_some]
    | cons d rest =>
        have hnone := hstop d rfl
        rw [goesOnWith, hmark, Option.isSome_eq_false_iff, Option.isNone_iff_eq_none] at hnone
        change Symbol.ofSpelling? (String.ofList [c, d]) = none at hnone
        simp only [leadingSymbol?, hnone, hone, Option.map_some]
  · have htwo := Symbol.ofSpelling?_ofList hmark
    rw [hmark, List.cons_append, List.singleton_append]
    simp only [leadingSymbol?, htwo]

theorem exists_of_leadingSymbol? {text back : List Char} {mark : Symbol}
    (h : leadingSymbol? text = some (mark, back)) :
    text = mark.spelling.toList ++ back ∧ StopsAt (.symbol mark) back := by
  unfold leadingSymbol? at h
  split at h
  · cases h
  · obtain ⟨found, hfound, heq⟩ := Option.map_eq_some_iff.mp h
    obtain ⟨rfl, rfl⟩ := Prod.mk.inj heq
    rw [Symbol.toList_of_ofSpelling? hfound]
    exact ⟨rfl, fun _ hhead => by cases hhead⟩
  · next c d rest =>
      split at h
      · next found hfound =>
          obtain ⟨rfl, rfl⟩ := Prod.mk.inj (Option.some.inj h)
          have hmark := Symbol.toList_of_ofSpelling? hfound
          refine ⟨by rw [hmark]; rfl, ?_⟩
          intro e _
          rw [goesOnWith, hmark, Option.isSome_eq_false_iff, Option.isNone_iff_eq_none]
          -- no symbol has three characters
          by_contra hsome
          obtain ⟨other, hother⟩ := Option.ne_none_iff_exists'.mp hsome
          have hthree := Symbol.toList_of_ofSpelling? hother
          rcases other.spelling_cases with ⟨x, hx⟩ | ⟨x, y, hx⟩ <;>
          · rw [hthree] at hx
            cases hx
      · next hnone =>
          obtain ⟨found, hfound, heq⟩ := Option.map_eq_some_iff.mp h
          obtain ⟨rfl, rfl⟩ := Prod.mk.inj heq
          have hmark := Symbol.toList_of_ofSpelling? hfound
          refine ⟨by rw [hmark]; rfl, ?_⟩
          intro e he
          obtain rfl := Option.some.inj he
          rw [goesOnWith, hmark]
          exact congrArg Option.isSome hnone

/-! ### Lexemes as they are scanned -/

section Step

variable {chars text rest : List Char} {token : Token}

theorem not_beginsGap_of_denotes (h : Denotes chars token) (rest : List Char) :
    ¬BeginsGap (chars ++ rest) := by
  rintro ⟨unit, after, hstep⟩
  cases chars with
  | nil => exact h.ne_nil rfl
  | cons c chars =>
      obtain ⟨hbrace, hslash, hblank⟩ := h.first_ne
      obtain ⟨htext, -⟩ := step_gap hstep
      have hunit := isSeparator_of_step hstep
      cases hunit with
      | blank hc =>
          obtain ⟨rfl, -⟩ := List.cons.inj htext
          rw [hblank] at hc
          cases hc
      | brace => exact hbrace (List.cons.inj htext).1
      | starSlash => exact hslash (List.cons.inj htext).1

theorem step_cons {c : Char} (h : c ≠ '{' ∧ c ≠ '/' ∧ isBlank c = false) (text : List Char) :
    step (c :: text) = lexeme c text := by
  rw [step, h.2.2, if_neg Bool.false_ne_true]
  · exact h.1
  · exact fun _ heq => absurd heq h.2.1

theorem takeWhile_append_of_stop {p : Char → Bool} (hchars : ∀ c ∈ chars, p c = true)
    (hstop : ∀ c, rest.head? = some c → p c = false) :
    (chars ++ rest).takeWhile p = chars ∧ (chars ++ rest).dropWhile p = rest := by
  rw [List.takeWhile_append_of_pos hchars, List.dropWhile_append_of_pos hchars]
  cases rest with
  | nil => exact ⟨List.append_nil _, rfl⟩
  | cons c rest =>
      have hc : ¬p c = true := Bool.eq_false_iff.mp (hstop c rfl)
      rw [List.takeWhile_cons_of_neg hc, List.dropWhile_cons_of_neg hc]
      exact ⟨List.append_nil _, rfl⟩

/-- A lexeme is taken off as a whole if nothing goes on it. -/
theorem step_lexeme (h : Denotes chars token) (hrange : token.InRange)
    (hstop : StopsAt token rest) : step (chars ++ rest) = .lexeme token rest := by
  cases h with
  | @word first tail hfirst hrest =>
      have hrun := takeWhile_append_of_stop hrest fun c hc => by
        rw [← goesOnWith_ofWord]
        exact hstop c hc
      rw [List.cons_append, step_cons (Denotes.word hfirst hrest).first_ne, lexeme,
        if_pos hfirst, wordLexeme, hrun.1, hrun.2]
  | @number first tail hfirst hrest =>
      have hrun := takeWhile_append_of_stop hrest hstop
      have hvalue : numberValue (first :: tail) ≤ maxNumber := Int.ofNat_le.mp hrange
      rw [List.cons_append, step_cons (Denotes.number hfirst hrest).first_ne, lexeme,
        isAlpha_of_isDigit hfirst, if_neg Bool.false_ne_true, if_pos hfirst, numberLexeme, hrun.1,
        hrun.2, if_pos hvalue]
      rfl
  | @text value hvalue =>
      have hquote : rest.head? ≠ some '\'' := by
        intro hhead
        have := hstop '\'' hhead
        cases this
      have htext : '\'' :: (doubled value ++ ['\'']) ++ rest =
          '\'' :: (doubled value ++ '\'' :: rest) := by
        simp
      rw [htext, step_cons (by decide), lexeme, if_neg (by decide), if_neg (by decide), if_pos rfl,
        stringLexeme, closeString_doubled hvalue hquote]
  | symbol mark =>
      have hlead := leadingSymbol?_spelling hstop
      cases hmark : mark.spelling.toList with
      | nil => exact absurd hmark (Denotes.symbol mark).ne_nil
      | cons c tail =>
          have hhead : mark.spelling.toList.head? = some c := by
            rw [hmark]
            rfl
          obtain ⟨halpha, hdigit, hquote, hgap⟩ := mark.first_ne hhead
          rw [hmark, List.cons_append] at hlead
          rw [List.cons_append, step_cons hgap, lexeme, halpha, hdigit, if_neg Bool.false_ne_true,
            if_neg Bool.false_ne_true, if_neg hquote, symbolLexeme, hlead]

/-- A text begins with a lexeme that nothing goes on. -/
structure BeginsLexeme (text chars : List Char) (token : Token) (rest : List Char) : Prop where
  text_eq : text = chars ++ rest
  denotes : Denotes chars token
  inRange : token.InRange
  stops : StopsAt token rest

theorem stops_dropWhile {p : Char → Bool} {c : Char} (h : (text.dropWhile p).head? = some c) :
    p c = false := by
  have hnot := List.head?_dropWhile_not p text
  rw [h] at hnot
  exact hnot

theorem exists_of_wordLexeme {first : Char} (hfirst : first.isAlpha = true)
    (h : wordLexeme first text = .lexeme token rest) :
    ∃ chars, BeginsLexeme (first :: text) chars token rest := by
  obtain ⟨rfl, rfl⟩ := Step.lexeme.inj h
  refine ⟨first :: text.takeWhile isWordChar, ?_, ?_, inRange_ofWord _, ?_⟩
  · rw [List.cons_append, List.takeWhile_append_dropWhile]
  · exact .word hfirst fun _ hc => List.mem_takeWhile_imp hc
  · intro c hc
    rw [goesOnWith_ofWord]
    exact stops_dropWhile hc

theorem exists_of_numberLexeme {first : Char} (hfirst : first.isDigit = true)
    (h : numberLexeme first text = .lexeme token rest) :
    ∃ chars, BeginsLexeme (first :: text) chars token rest := by
  unfold numberLexeme at h
  split at h
  · next hvalue =>
      obtain ⟨rfl, rfl⟩ := Step.lexeme.inj h
      refine ⟨first :: text.takeWhile Char.isDigit, ?_, ?_, Int.ofNat_le.mpr hvalue, ?_⟩
      · rw [List.cons_append, List.takeWhile_append_dropWhile]
      · exact .number hfirst fun _ hc => List.mem_takeWhile_imp hc
      · exact fun _ hc => stops_dropWhile hc
  · cases h

theorem exists_of_stringLexeme (h : stringLexeme text = .lexeme token rest) :
    ∃ chars, BeginsLexeme ('\'' :: text) chars token rest := by
  unfold stringLexeme at h
  split at h
  · next value back hclosed =>
      obtain ⟨rfl, rfl⟩ := Step.lexeme.inj h
      obtain ⟨rfl, hvalue, hback⟩ := exists_of_closeString hclosed
      refine ⟨'\'' :: (doubled value ++ ['\'']), ?_, .text hvalue, trivial, ?_⟩
      · simp
      · intro c hc
        apply beq_false_of_ne
        rintro rfl
        exact hback hc
  · cases h

theorem exists_of_symbolLexeme {first : Char} (h : symbolLexeme first text = .lexeme token rest) :
    ∃ chars, BeginsLexeme (first :: text) chars token rest := by
  unfold symbolLexeme at h
  split at h
  · next hlead =>
      obtain ⟨rfl, rfl⟩ := Step.lexeme.inj h
      obtain ⟨htext, hback⟩ := exists_of_leadingSymbol? hlead
      exact ⟨_, htext, .symbol _, trivial, hback⟩
  · cases h

/-- What is taken off is a lexeme that nothing goes on. -/
theorem exists_of_step_lexeme (h : step text = .lexeme token rest) :
    ∃ chars, BeginsLexeme text chars token rest := by
  unfold step at h
  split at h
  · cases h
  · split at h <;> cases h
  · split at h <;> cases h
  · next first after _ _ =>
      split at h
      · cases h
      by_cases halpha : first.isAlpha = true
      · rw [lexeme, if_pos halpha] at h
        exact exists_of_wordLexeme halpha h
      rw [lexeme, if_neg halpha] at h
      by_cases hdigit : first.isDigit = true
      · rw [if_pos hdigit] at h
        exact exists_of_numberLexeme hdigit h
      rw [if_neg hdigit] at h
      by_cases hquote : first = '\''
      · rw [if_pos hquote] at h
        rw [hquote]
        exact exists_of_stringLexeme h
      · rw [if_neg hquote] at h
        exact exists_of_symbolLexeme h

end Step

end MiniPascal.Token.Scan
