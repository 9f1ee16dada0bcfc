import MiniPascal.Proofs.Token.Munch

/-!
# Printing

Tokens are printed with gaps between them, before the first one and after the last one.
Since every printed token is a lexeme and nothing in a gap goes on it, the printed text
divides as it was printed, and scanning gives the tokens back.
-/

namespace MiniPascal.Token

open MiniPascal.Text
open Scan

/-- A word that begins with a small letter, without capital letters. -/
structure IsSmallWord (word : String) (first : Char) (rest : List Char) : Prop where
  toList_eq : word.toList = first :: rest
  first_isLower : first.isLower = true
  rest_small : ∀ c ∈ rest, c.isLower = true ∨ c.isDigit = true ∨ c = '_'

/-- Tokens that can be printed: their names are small words and not reserved, their numbers
are in range, and their texts lie on one line. -/
def Printable : Token → Prop
  | name word => (∃ first rest, IsSmallWord word first rest) ∧ ∀ k : Keyword, k.spelling ≠ word
  | number value => 0 ≤ value ∧ value ≤ 2147483647
  | text value => '\n' ∉ value.toList
  | keyword _ | symbol _ => True
  | endOfFile => False

def printed : Token → List Char
  | name word => word.toList
  | number value => (toString value).toList
  | text value => '\'' :: (doubled value.toList ++ ['\''])
  | keyword word => word.spelling.toList
  | symbol mark => mark.spelling.toList
  | endOfFile => []

/-- The text of tokens, each with a gap in front of it, and of a last gap. -/
def printAll (items : List (List Char × Token)) (last : List Char) : List Char :=
  (items.flatMap fun item => item.1 ++ item.2.printed) ++ last

/-- A separator that is there. -/
def Separates (gap : List Char) : Prop :=
  IsGap gap ∧ gap ≠ []

/-! ### Printed tokens are lexemes -/

theorem toLower_of_small {c : Char} (h : c.isLower = true ∨ c.isDigit = true ∨ c = '_') :
    c.toLower = c := by
  apply dif_neg
  rintro ⟨hlow, hhigh⟩
  rw [ge_iff_le, UInt32.le_iff_toNat_le] at hlow
  rw [UInt32.le_iff_toNat_le] at hhigh
  have hA : 'A'.val.toNat = 65 := rfl
  have hZ : 'Z'.val.toNat = 90 := rfl
  rcases h with hlower | hdigit | rfl
  · rw [isLower_iff] at hlower
    omega
  · rw [isDigit_iff] at hdigit
    omega
  · revert hlow hhigh
    decide

theorem isWordChar_of_small {c : Char} (h : c.isLower = true ∨ c.isDigit = true ∨ c = '_') :
    isWordChar c = true := by
  rcases h with hlower | hdigit | rfl
  · rw [isWordChar, Char.isAlphanum, isAlpha_eq, hlower, Bool.or_true, Bool.true_or,
      Bool.true_or]
  · exact isWordChar_of_isDigit hdigit
  · decide

/-- A small word is read as it is written. -/
theorem IsSmallWord.denotes {word : String} {first : Char} {rest : List Char}
    (h : IsSmallWord word first rest) : Denotes word.toList (.ofWord word) := by
  have hfirst : first.isAlpha = true := by
    rw [isAlpha_eq, h.first_isLower, Bool.or_true]
  have hdenotes := Denotes.word hfirst fun c hc => isWordChar_of_small (h.rest_small c hc)
  have hsmall : ∀ c ∈ first :: rest, c.toLower = id c :=
    List.forall_mem_cons.mpr ⟨toLower_of_small (.inl h.first_isLower),
      fun c hc => toLower_of_small (h.rest_small c hc)⟩
  have hkept : (first :: rest).map Char.toLower = first :: rest :=
    (List.map_congr_left hsmall).trans (List.map_id _)
  rw [hkept, ← h.toList_eq, String.ofList_toList] at hdenotes
  exact hdenotes

theorem Keyword.exists_isSmallWord (k : Keyword) :
    ∃ first rest, IsSmallWord k.spelling first rest := by
  have hsmall : k.spelling.toList ≠ [] ∧ k.spelling.toList.all Char.isLower = true := by
    cases k <;> decide
  obtain ⟨first, rest, hlist⟩ := List.exists_cons_of_ne_nil hsmall.1
  rw [hlist, List.all_cons, Bool.and_eq_true, List.all_eq_true] at hsmall
  exact ⟨first, rest, hlist, hsmall.2.1, fun c hc => .inl (hsmall.2.2 c hc)⟩

/-- A printed token is a lexeme that denotes it. -/
theorem Printable.denotes {token : Token} (h : token.Printable) :
    Denotes token.printed token ∧ token.InRange := by
  cases token with
  | name word =>
      obtain ⟨⟨first, rest, hword⟩, hkeyword⟩ := h
      have hnone : Keyword.ofSpelling? word = none := by
        apply List.find?_eq_none.mpr
        exact fun k _ heq => hkeyword k (eq_of_beq heq)
      have hdenotes := hword.denotes
      rw [ofWord, hnone] at hdenotes
      exact ⟨hdenotes, trivial⟩
  | number value =>
      obtain ⟨n, rfl⟩ := Int.eq_ofNat_of_zero_le h.1
      have hprinted : (toString (n : Int)).toList = Nat.toDigits 10 n := by
        change (toString n).toList = _
        rw [Nat.toString_eq_ofList_toDigits, String.toList_ofList]
      have hdigit : ∀ c ∈ Nat.toDigits 10 n, c.isDigit = true := fun c hc =>
        Nat.isDigit_of_mem_toDigits (by decide) (by decide) hc
      refine ⟨?_, h.2⟩
      change Denotes (toString (n : Int)).toList _
      rw [hprinted]
      cases hdigits : Nat.toDigits 10 n with
      | nil => exact absurd hdigits Nat.toDigits_ne_nil
      | cons first rest =>
          rw [hdigits] at hdigit
          obtain ⟨hfirst, hrest⟩ := List.forall_mem_cons.mp hdigit
          have hdenotes := Denotes.number hfirst hrest
          rw [← hdigits, Nat.ofDigitChars_ten_toDigits, hdigits] at hdenotes
          exact hdenotes
  | text value =>
      have hdenotes := Denotes.text h
      rw [String.ofList_toList] at hdenotes
      exact ⟨hdenotes, trivial⟩
  | keyword word =>
      obtain ⟨first, rest, hword⟩ := Keyword.exists_isSmallWord word
      have hdenotes := hword.denotes
      rw [ofWord_spelling] at hdenotes
      exact ⟨hdenotes, trivial⟩
  | symbol mark => exact ⟨.symbol mark, trivial⟩
  | endOfFile => cases h

/-- A small word that is not reserved can be printed. -/
theorem printable_name {word : String} {first : Char} {rest : List Char}
    (h : IsSmallWord word first rest) (hfree : Keyword.ofSpelling? word = none) :
    (name word).Printable := by
  refine ⟨⟨first, rest, h⟩, fun keyword hspelling => ?_⟩
  have hfound := Keyword.ofSpelling?_spelling keyword
  rw [hspelling, hfree] at hfound
  cases hfound

/-! ### Nothing in a gap goes on a token -/

theorem goesOnWith_eq_false {c : Char} (hword : isWordChar c = false) (hquote : c ≠ '\'')
    (hsymbol : c ∉ ['=', '>', '.']) (token : Token) : token.goesOnWith c = false := by
  cases token with
  | name | keyword => exact hword
  | number =>
      cases hdigit : c.isDigit with
      | false => exact hdigit
      | true =>
          rw [isWordChar_of_isDigit hdigit] at hword
          cases hword
  | text => exact beq_false_of_ne hquote
  | symbol mark =>
      rw [goesOnWith, Option.isSome_eq_false_iff, Option.isNone_iff_eq_none]
      by_contra hsome
      obtain ⟨found, hfound⟩ := Option.ne_none_iff_exists'.mp hsome
      exact hsymbol (Symbol.second_mem (Symbol.toList_of_ofSpelling? hfound)
        (Denotes.symbol mark).ne_nil)
  | endOfFile => rfl

/-- What follows a separator goes on no token before it. -/
theorem Separates.stopsAt {gap : List Char} (h : Separates gap) (token : Token)
    (rest : List Char) : StopsAt token (gap ++ rest) := by
  obtain ⟨hgap, hne⟩ := h
  cases hgap with
  | nil => exact absurd rfl hne
  | cons first _ =>
      intro c hc
      cases first with
      | blank hblank =>
          obtain rfl := Option.some.inj hc
          apply goesOnWith_eq_false (isWordChar_of_isBlank hblank)
          · rintro rfl
            cases hblank
          · intro hmem
            simp only [List.mem_cons, List.not_mem_nil, or_false] at hmem
            rcases hmem with rfl | rfl | rfl <;> cases hblank
      | brace | starSlash =>
          obtain rfl := Option.some.inj hc
          exact goesOnWith_eq_false (by decide) (by decide) (by decide) token

/-! ### Printed texts -/

def pieceOf (item : List Char × Token) : Piece :=
  ⟨item.1, item.2.printed, item.2⟩

theorem textOf_map_pieceOf (items : List (List Char × Token)) (last : List Char) :
    textOf (items.map pieceOf) last = printAll items last := by
  rw [textOf, List.flatMap_map]
  rfl

theorem printAll_cons (item : List Char × Token) (items : List (List Char × Token))
    (last : List Char) :
    printAll (item :: items) last = item.1 ++ (item.2.printed ++ printAll items last) := by
  rw [← textOf_map_pieceOf, List.map_cons, textOf_cons, textOf_map_pieceOf]
  rfl

/-- A printed text divides as it was printed. -/
theorem divides_printAll {items : List (List Char × Token)} {last : List Char}
    (hitems : ∀ item ∈ items, Separates item.1 ∧ item.2.Printable) (hlast : Separates last) :
    Divides (printAll items last) (items.map pieceOf) last := by
  induction items with
  | nil => exact divides_nil hlast.1
  | cons item items ih =>
      obtain ⟨⟨hseparates, hprintable⟩, hothers⟩ := List.forall_mem_cons.mp hitems
      obtain ⟨hdenotes, hrange⟩ := hprintable.denotes
      have hstops : StopsAt item.2 (printAll items last) := by
        cases items with
        | nil =>
            have hstop := hlast.stopsAt item.2 []
            rwa [List.append_nil] at hstop
        | cons next items =>
            rw [printAll_cons]
            exact (hothers next List.mem_cons_self).1.stopsAt item.2 _
      rw [printAll_cons]
      apply (ih hothers).cons (pieceOf item)
      · exact longestIn_isGap_iff.mpr ⟨hseparates.1, not_beginsGap_of_denotes hdenotes _⟩
      · exact hdenotes.longestIn hstops
      · exact ⟨hdenotes, hrange⟩

/-- The tokens of a printed text are those that were printed, where they were printed. -/
theorem locate_map_pieceOf (line : Nat) (items : List (List Char × Token)) (last : List Char) :
    locate line (items.map pieceOf) last =
      items.mapIdx (fun index item =>
          ⟨item.2, line + lineFeeds (printAll (items.take index) item.1)⟩) ++
        [⟨.endOfFile, line + lineFeeds (printAll items last)⟩] := by
  rw [locate, textOf_map_pieceOf]
  congr 1
  apply List.ext_getElem?
  intro index
  simp only [List.getElem?_mapIdx, List.getElem?_map, Option.map_map, ← List.map_take,
    textOf_map_pieceOf]
  rfl

/-- **Scanning undoes printing.**  Tokens that are printed with separators before, between
and after them are scanned to themselves, each on the line on which it was printed. -/
theorem scan_printAll {items : List (List Char × Token)} {last : List Char}
    (hitems : ∀ item ∈ items, Separates item.1 ∧ item.2.Printable) (hlast : Separates last)
    (line : Nat) : (scan line (printAll items last)).result = .ok
      (items.mapIdx (fun index item =>
          ⟨item.2, line + lineFeeds (printAll (items.take index) item.1)⟩) ++
        [⟨.endOfFile, line + lineFeeds (printAll items last)⟩]) := by
  rw [(divides_printAll hitems hlast).scan_eq line, locate_map_pieceOf]

/-- A text and a keyword with comments around them, one of which spans two lines. -/
theorem scan_printAll_comments :
    (scan 1 (printAll [([' '], .text "it's"), ("\x7b ' */ \x7d".toList, .keyword .begin_)]
      "/*\n\x7d*/".toList)).result = .ok
        [⟨.text "it's", 1⟩, ⟨.keyword .begin_, 1⟩, ⟨.endOfFile, 2⟩] := by
  have hblank : Separates [' '] := ⟨(IsSeparator.blank rfl).isGap, List.cons_ne_nil _ _⟩
  have hbrace : Separates "\x7b ' */ \x7d".toList :=
    ⟨(@IsSeparator.brace " ' */ ".toList (by decide)).isGap, by decide⟩
  have hstar : Separates "/*\n\x7d*/".toList :=
    ⟨(@IsSeparator.starSlash ['\n', '\x7d'] (by decide)).isGap, by decide⟩
  have htext : (Token.text "it's").Printable := by
    change '\n' ∉ "it's".toList
    decide
  apply scan_printAll _ hstar 1
  exact List.forall_mem_cons.mpr ⟨⟨hblank, htext⟩,
    List.forall_mem_singleton.mpr ⟨hbrace, trivial⟩⟩

end MiniPascal.Token
