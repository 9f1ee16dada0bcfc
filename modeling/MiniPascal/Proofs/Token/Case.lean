import MiniPascal.Proofs.Token.Printing

/-!
# Letters and layout

The tokens of a text are known from its lexemes, whatever stands between them, and the
case of a letter does not matter outside quotes.
-/

namespace MiniPascal.Token.Scan

/-! ### Letters -/

/-- A capital becomes a lower-case letter. -/
theorem isLower_toLower {c : Char} (h : c.isUpper = true) : c.toLower.isLower = true := by
  have hupper : 'A'.val ≤ c.val ∧ c.val ≤ 'Z'.val := of_decide_eq_true h
  have hval : c.toLower.val = c.val + ('a'.val - 'A'.val) := by
    unfold Char.toLower
    rw [dif_pos hupper]
  obtain ⟨hlow, hhigh⟩ := isUpper_iff.mp h
  have hsum : c.toLower.val.toNat = c.val.toNat + 32 := by
    rw [hval, UInt32.toNat_add]
    change (c.val.toNat + 32) % 2 ^ 32 = _
    omega
  rw [isLower_iff]
  omega

/-- The letter in lower case, if the character is one, and else the character. -/
theorem toLower_cases (c : Char) : c.toLower.isLower = true ∨ c.toLower = c := by
  by_cases hupper : c.isUpper = true
  · exact .inl (isLower_toLower hupper)
  · exact .inr (dif_neg fun h => hupper (decide_eq_true h))

theorem toLower_toLower (c : Char) : c.toLower.toLower = c.toLower := by
  rcases toLower_cases c with hlower | hsame
  · exact toLower_of_small (.inl hlower)
  · rw [hsame, hsame]

theorem isAlpha_toLower {c : Char} (h : c.isAlpha = true) : c.toLower.isAlpha = true := by
  rcases toLower_cases c with hlower | hsame
  · rw [isAlpha_eq, hlower, Bool.or_true]
  · rwa [hsame]

theorem isWordChar_toLower {c : Char} (h : isWordChar c = true) :
    isWordChar c.toLower = true := by
  rcases toLower_cases c with hlower | hsame
  · exact isWordChar_of_small (.inl hlower)
  · rwa [hsame]

/-! ### Lexemes -/

/-- A name consists of word characters, and has at least one. -/
theorem Denotes.name_chars {chars : List Char} {token : Token} (h : Denotes chars token)
    {name : String} (htoken : token = .name name) :
    name.toList ≠ [] ∧ ∀ c ∈ name.toList, isWordChar c = true := by
  cases h with
  | @word first rest hfirst hrest =>
      have hname : name = String.ofList ((first :: rest).map Char.toLower) := by
        unfold ofWord at htoken
        split at htoken
        · cases htoken
        · exact (Token.name.inj htoken).symm
      rw [hname, String.toList_ofList]
      refine ⟨List.cons_ne_nil _ _, fun c hc => ?_⟩
      obtain ⟨letter, hletter, rfl⟩ := List.mem_map.mp hc
      apply isWordChar_toLower
      obtain rfl | hmem := List.mem_cons.mp hletter
      · exact isWordChar_of_isAlpha hfirst
      · exact hrest letter hmem
  | number | text | symbol => cases htoken

/-- The lexeme with its letters in lower case, unless it is a text in quotes. -/
def foldCase (lexeme : List Char) : List Char :=
  if lexeme.head? = some '\'' then lexeme else lexeme.map Char.toLower

theorem foldCase_of_map_eq {lexeme : List Char} (h : lexeme.map Char.toLower = lexeme) :
    foldCase lexeme = lexeme := by
  unfold foldCase
  split
  · rfl
  · exact h

variable {chars : List Char} {token token' : Token}

/-- A lexeme denotes the same in lower case. -/
theorem Denotes.foldCase (h : Denotes chars token) : Denotes (foldCase chars) token := by
  cases h with
  | @word first rest hfirst hrest =>
      have hquote : ¬(first :: rest).head? = some '\'' := by
        intro hhead
        obtain rfl := Option.some.inj hhead
        cases hfirst
      have hkept : ((first :: rest).map Char.toLower).map Char.toLower =
          (first :: rest).map Char.toLower := by
        rw [List.map_map]
        exact List.map_congr_left fun c _ => toLower_toLower c
      have hlower : ∀ c ∈ rest.map Char.toLower, isWordChar c = true :=
        List.forall_mem_map.mpr fun c hc => isWordChar_toLower (hrest c hc)
      have hdenotes := Denotes.word (isAlpha_toLower hfirst) hlower
      rw [← List.map_cons, hkept] at hdenotes
      rw [Scan.foldCase, if_neg hquote]
      exact hdenotes
  | @number first rest hfirst hrest =>
      have hdigits : ∀ c ∈ first :: rest, c.toLower = id c := List.forall_mem_cons.mpr
        ⟨toLower_of_small (.inr (.inl hfirst)), fun c hc =>
          toLower_of_small (.inr (.inl (hrest c hc)))⟩
      rw [foldCase_of_map_eq ((List.map_congr_left hdigits).trans (List.map_id _))]
      exact .number hfirst hrest
  | text hvalue =>
      rw [Scan.foldCase, List.head?_cons, if_pos rfl]
      exact .text hvalue
  | symbol mark =>
      have hkept : mark.spelling.toList.map Char.toLower = mark.spelling.toList := by
        cases mark <;> decide
      rw [foldCase_of_map_eq hkept]
      exact .symbol mark

/-- A lexeme denotes one token. -/
theorem Denotes.unique (h : Denotes chars token) (hrange : token.InRange)
    (h' : Denotes chars token') (hrange' : token'.InRange) : token = token' := by
  have hend (token : Token) : StopsAt token [] := fun _ hhead => nomatch hhead
  have hstep := step_lexeme h hrange (hend token)
  rw [step_lexeme h' hrange' (hend token')] at hstep
  exact (Step.lexeme.inj hstep).1.symm

/-! ### Texts -/

/-- The text divides into these lexemes, with gaps around them. -/
def HasLexemes (source : List Char) (lexemes : List (List Char)) : Prop :=
  ∃ pieces last, Divides source pieces last ∧ lexemes = pieces.map Piece.lexeme

/-- The texts that are scanned without a fault are those that divide into lexemes. -/
theorem scan_eq_ok_iff_hasLexemes {line : Nat} {source : List Char} :
    (∃ tokens, (scan line source).result = .ok tokens) ↔ ∃ lexemes, HasLexemes source lexemes := by
  constructor
  · rintro ⟨tokens, hscan⟩
    obtain ⟨pieces, last, hdivides⟩ := exists_divides_of_scan hscan
    exact ⟨_, pieces, last, hdivides, rfl⟩
  · rintro ⟨lexemes, pieces, last, hdivides, -⟩
    exact ⟨_, congrArg Scanned.result (hdivides.scan_eq line)⟩

def lexemesWithin : Nat → List Char → Option (List (List Char))
  | 0, _ => none
  | fuel + 1, source =>
    match step source with
    | .finished => some []
    | .gap _ rest => lexemesWithin fuel rest
    | .lexeme _ rest =>
      (lexemesWithin fuel rest).map (source.take (source.length - rest.length) :: ·)
    | .fault _ => none

/-- The lexemes that are found are those of the text. -/
theorem hasLexemes_of_lexemesWithin {fuel : Nat} {source : List Char} {lexemes : List (List Char)}
    (h : lexemesWithin fuel source = some lexemes) : HasLexemes source lexemes := by
  induction fuel generalizing source lexemes with
  | zero => cases h
  | succ fuel ih =>
      rw [lexemesWithin] at h
      split at h
      · next hstep =>
          obtain rfl := Option.some.inj h
          rw [eq_nil_of_step hstep]
          exact ⟨[], [], divides_nil .nil, rfl⟩
      · next unit rest hstep =>
          obtain ⟨pieces, last, hdivides, rfl⟩ := ih h
          obtain ⟨pieces', last', hlonger, hsame⟩ :=
            hdivides.exists_separator (isSeparator_of_step hstep)
          rw [(step_gap hstep).1]
          exact ⟨pieces', last', hlonger, hsame.symm⟩
      · next token rest hstep =>
          obtain ⟨others, hothers, rfl⟩ := Option.map_eq_some_iff.mp h
          obtain ⟨pieces, last, hdivides, rfl⟩ := ih hothers
          obtain ⟨chars, hbegins⟩ := exists_of_step_lexeme hstep
          have hchars : source.take (source.length - rest.length) = chars := by
            rw [hbegins.text_eq, List.length_append, Nat.add_sub_cancel, List.take_left]
          rw [hchars]
          exact ⟨_, last, hdivides.cons_lexeme hbegins, rfl⟩
      · cases h

theorem tokens_locate (line : Nat) (pieces : List Piece) (last : List Char) :
    (locate line pieces last).map Located.token = pieces.map Piece.token ++ [.endOfFile] := by
  induction pieces generalizing line with
  | nil => rfl
  | cons piece pieces ih => rw [locate_cons, List.map_cons, ih, List.map_cons, List.cons_append]

theorem tokens_eq_of_foldCase_eq {pieces pieces' : List Piece}
    (h : ∀ piece ∈ pieces, Denotes piece.lexeme piece.token ∧ piece.token.InRange)
    (h' : ∀ piece ∈ pieces', Denotes piece.lexeme piece.token ∧ piece.token.InRange)
    (hsame : pieces.map (foldCase ∘ Piece.lexeme) = pieces'.map (foldCase ∘ Piece.lexeme)) :
    pieces.map Piece.token = pieces'.map Piece.token := by
  induction pieces generalizing pieces' with
  | nil =>
      obtain rfl := List.map_eq_nil_iff.mp hsame.symm
      rfl
  | cons piece pieces ih =>
      cases pieces' with
      | nil => cases hsame
      | cons piece' pieces' =>
          obtain ⟨hlexeme, hlexemes⟩ := List.cons.inj hsame
          obtain ⟨⟨hdenotes, hrange⟩, hothers⟩ := List.forall_mem_cons.mp h
          obtain ⟨⟨hdenotes', hrange'⟩, hothers'⟩ := List.forall_mem_cons.mp h'
          have hfolded := hdenotes.foldCase
          change foldCase piece.lexeme = foldCase piece'.lexeme at hlexeme
          rw [hlexeme] at hfolded
          have htoken := hfolded.unique hrange hdenotes'.foldCase hrange'
          rw [List.map_cons, List.map_cons, htoken, ih hothers hothers' hlexemes]

/-- Texts with the same lexemes, but for the case of letters outside quotes, are scanned
to the same tokens, at whatever lines. -/
theorem exists_scan_of_foldCase_eq {source source' : List Char}
    {lexemes lexemes' : List (List Char)}
    (h : HasLexemes source lexemes) (h' : HasLexemes source' lexemes')
    (hsame : lexemes.map foldCase = lexemes'.map foldCase) (line line' : Nat) :
    ∃ tokens tokens', (scan line source).result = .ok tokens ∧
      (scan line' source').result = .ok tokens' ∧
      tokens.map Located.token = tokens'.map Located.token := by
  obtain ⟨pieces, last, hdivides, rfl⟩ := h
  obtain ⟨pieces', last', hdivides', rfl⟩ := h'
  rw [List.map_map, List.map_map] at hsame
  have htokens := tokens_eq_of_foldCase_eq hdivides.tokens hdivides'.tokens hsame
  refine ⟨_, _, congrArg Scanned.result (hdivides.scan_eq line),
    congrArg Scanned.result (hdivides'.scan_eq line'), ?_⟩
  rw [tokens_locate, tokens_locate, htokens]

end MiniPascal.Token.Scan
