import MiniPascal.Proofs.Token.Lexemes

/-!
# Maximal munch

A text divides into gaps and lexemes by turns, each as long as it can be in its place.
Scanning finds this division: it succeeds on the texts that have one in which all numbers
are in range, and gives each token the line on which its lexeme begins.
-/

namespace MiniPascal.Token.Scan

open MiniPascal.Text

/-! ### Longest lexemes -/

section Longest

variable {chars other rest : List Char} {token : Token}

theorem length_le_of_stop {p : Char → Bool} (hother : ∀ c ∈ other, p c = true)
    (hbegins : other <+: chars ++ rest) (hstop : ∀ c, rest.head? = some c → p c = false) :
    other.length ≤ chars.length := by
  induction chars generalizing other with
  | nil =>
      cases other with
      | nil => exact Nat.le_refl _
      | cons c other =>
          obtain ⟨after, rfl⟩ := hbegins
          have hc := hstop c rfl
          rw [hother c List.mem_cons_self] at hc
          cases hc
  | cons d chars ih =>
      cases other with
      | nil => exact Nat.zero_le _
      | cons c other =>
          obtain ⟨-, hbegins⟩ := List.cons_prefix_cons.mp hbegins
          exact Nat.succ_le_succ
            (ih (fun c hc => hother c (List.mem_cons_of_mem _ hc)) hbegins)

theorem length_doubled_le {value other : List Char} (hrest : rest.head? ≠ some '\'')
    (hbegins : doubled other ++ ['\''] <+: doubled value ++ '\'' :: rest) :
    (doubled other).length ≤ (doubled value).length := by
  induction value generalizing other with
  | nil =>
      cases other with
      | nil => exact Nat.le_refl _
      | cons c other =>
          by_cases hc : c = '\''
          · subst hc
            obtain ⟨-, hbegins⟩ := List.cons_prefix_cons.mp hbegins
            obtain ⟨after, rfl⟩ := hbegins
            exact absurd rfl hrest
          · rw [doubled_cons_of_ne hc, List.cons_append] at hbegins
            exact absurd (List.cons_prefix_cons.mp hbegins).1 hc
  | cons d value ih =>
      cases other with
      | nil => exact Nat.zero_le _
      | cons c other =>
          by_cases hc : c = '\''
          · by_cases hd : d = '\''
            · subst hc hd
              rw [doubled_cons_quote, doubled_cons_quote] at hbegins ⊢
              obtain ⟨-, hbegins⟩ := List.cons_prefix_cons.mp hbegins
              obtain ⟨-, hbegins⟩ := List.cons_prefix_cons.mp hbegins
              exact Nat.add_le_add_right (ih hbegins) 2
            · rw [hc, doubled_cons_quote, doubled_cons_of_ne hd] at hbegins
              exact absurd (List.cons_prefix_cons.mp hbegins).1.symm hd
          · rw [doubled_cons_of_ne hc] at hbegins ⊢
            by_cases hd : d = '\''
            · rw [hd, doubled_cons_quote] at hbegins
              exact absurd (List.cons_prefix_cons.mp hbegins).1 hc
            · rw [doubled_cons_of_ne hd] at hbegins ⊢
              exact Nat.succ_le_succ (ih (List.cons_prefix_cons.mp hbegins).2)

theorem length_spelling_le {mark found : Symbol} (hstop : StopsAt (.symbol mark) rest)
    (hbegins : found.spelling.toList <+: mark.spelling.toList ++ rest) :
    found.spelling.toList.length ≤ mark.spelling.toList.length := by
  rcases found.spelling_cases with ⟨c, hfound⟩ | ⟨c, d, hfound⟩
  · rw [hfound]
    exact List.length_pos_iff.mpr (Denotes.symbol mark).ne_nil
  rcases mark.spelling_cases with ⟨e, hmark⟩ | ⟨e, f, hmark⟩
  · rw [hfound, hmark, List.singleton_append] at hbegins
    obtain ⟨rfl, after, rfl⟩ := List.cons_prefix_cons.mp hbegins
    have hnone := hstop d rfl
    rw [goesOnWith, hmark, List.singleton_append, Symbol.ofSpelling?_ofList hfound] at hnone
    cases hnone
  · rw [hfound, hmark]
    exact Nat.le_refl 2

/-- A lexeme that nothing goes on is the longest one in its place. -/
theorem Denotes.longestIn (h : Denotes chars token) (hstop : StopsAt token rest) :
    LongestIn IsLexeme chars (chars ++ rest) := by
  refine ⟨⟨token, h⟩, List.prefix_append _ _, ?_⟩
  rintro other hbegins ⟨token', hother⟩
  cases other with
  | nil => exact absurd rfl hother.ne_nil
  | cons c other =>
      have hshape := hother.shape
      cases h with
      | word hfirst hrest =>
          obtain ⟨rfl, htail⟩ := List.cons_prefix_cons.mp hbegins
          rw [if_pos hfirst] at hshape
          exact Nat.succ_le_succ (length_le_of_stop hshape htail fun c hc => by
            rw [← goesOnWith_ofWord]
            exact hstop c hc)
      | number hfirst hrest =>
          obtain ⟨rfl, htail⟩ := List.cons_prefix_cons.mp hbegins
          rw [isAlpha_of_isDigit hfirst, if_neg Bool.false_ne_true, if_pos hfirst] at hshape
          exact Nat.succ_le_succ (length_le_of_stop hshape htail hstop)
      | text hvalue =>
          obtain ⟨rfl, htail⟩ := List.cons_prefix_cons.mp hbegins
          obtain ⟨value', -, rfl⟩ := hshape
          change doubled value' ++ ['\''] <+: _ ++ rest at htail
          rw [List.append_assoc, List.singleton_append] at htail
          have hrest : rest.head? ≠ some '\'' := by
            intro hhead
            have := hstop '\'' hhead
            cases this
          have hle := length_doubled_le hrest htail
          simp only [List.length_cons, List.length_append, List.length_nil]
          omega
      | symbol mark =>
          cases hmark : mark.spelling.toList with
          | nil => exact absurd hmark (Denotes.symbol mark).ne_nil
          | cons d tail =>
              have hhead : mark.spelling.toList.head? = some c := by
                rw [hmark] at hbegins ⊢
                rw [(List.cons_prefix_cons.mp hbegins).1]
                rfl
              obtain ⟨halpha, hdigit, hquote, -⟩ := mark.first_ne hhead
              rw [halpha, hdigit, if_neg Bool.false_ne_true, if_neg Bool.false_ne_true,
                if_neg hquote] at hshape
              obtain ⟨found, hfound⟩ := hshape
              rw [hfound] at hbegins ⊢
              rw [← hmark]
              exact length_spelling_le hstop hbegins

/-- Two texts in quotes right after each other are one: the quotes between them are a
doubled one. -/
theorem Denotes.text_append {value : List Char} (hvalue : '\n' ∉ value)
    (hother : Denotes ('\'' :: other) token) :
    IsLexeme ('\'' :: (doubled value ++ ['\'']) ++ '\'' :: other) := by
  obtain ⟨value', hvalue', rfl⟩ := hother.shape
  have hinside : '\n' ∉ value ++ '\'' :: value' := by
    intro hmem
    rcases List.mem_append.mp hmem with hmem | hmem
    · exact hvalue hmem
    · rcases List.mem_cons.mp hmem with heq | hmem
      · cases heq
      · exact hvalue' hmem
  have hjoined := Denotes.text hinside
  rw [doubled_append, doubled_cons_quote] at hjoined
  have htext : '\'' :: (doubled value ++ ['\'']) ++ '\'' :: (doubled value' ++ ['\'']) =
      '\'' :: (doubled value ++ '\'' :: '\'' :: doubled value' ++ ['\'']) := by
    simp
  rw [htext]
  exact ⟨_, hjoined⟩

/-- Nothing goes on the longest lexeme in its place, unless a quote comes after it that
begins no lexeme. -/
theorem stopsAt_of_longestIn (h : Denotes chars token)
    (hlongest : LongestIn IsLexeme chars (chars ++ rest))
    (hquote : rest.head? = some '\'' → ∃ found, IsLexeme ('\'' :: found) ∧ '\'' :: found <+: rest) :
    StopsAt token rest := by
  intro c hhead
  by_contra hgoes
  rw [Bool.not_eq_false] at hgoes
  suffices hlonger : ∃ more, more ≠ [] ∧ more <+: rest ∧ IsLexeme (chars ++ more) by
    obtain ⟨more, hne, hbegins, hmore⟩ := hlonger
    have hle := hlongest.longest _ ((List.prefix_append_right_inj chars).mpr hbegins) hmore
    rw [List.length_append] at hle
    have := List.length_pos_iff.mpr hne
    omega
  have hone : [c] <+: rest := by
    obtain ⟨after, rfl⟩ := List.head?_eq_some_iff.mp hhead
    exact ⟨after, rfl⟩
  cases h with
  | word hfirst hrest =>
      rw [goesOnWith_ofWord] at hgoes
      refine ⟨[c], List.cons_ne_nil _ _, hone, _, .word hfirst ?_⟩
      exact List.forall_mem_append.mpr ⟨hrest, List.forall_mem_singleton.mpr hgoes⟩
  | number hfirst hrest =>
      refine ⟨[c], List.cons_ne_nil _ _, hone, _, .number hfirst ?_⟩
      exact List.forall_mem_append.mpr ⟨hrest, List.forall_mem_singleton.mpr hgoes⟩
  | text hvalue =>
      obtain rfl := eq_of_beq hgoes
      obtain ⟨found, ⟨token', hfound⟩, hbegins⟩ := hquote hhead
      exact ⟨_, List.cons_ne_nil _ _, hbegins, Denotes.text_append hvalue hfound⟩
  | symbol mark =>
      obtain ⟨found, hfound⟩ := Option.isSome_iff_exists.mp hgoes
      refine ⟨[c], List.cons_ne_nil _ _, hone, .symbol found, ?_⟩
      rw [← Symbol.toList_of_ofSpelling? hfound]
      exact .symbol found

end Longest

/-! ### Divisions -/

/-- A lexeme with the gap in front of it and the token that it denotes. -/
structure Piece where
  gap : List Char
  lexeme : List Char
  token : Token

/-- The text that pieces make up, with a gap behind the last one. -/
def textOf (pieces : List Piece) (last : List Char) : List Char :=
  (pieces.flatMap fun piece => piece.gap ++ piece.lexeme) ++ last

/-- A text consists of pieces and a last gap, in which every gap and every lexeme is the
longest one in its place. -/
structure Divides (source : List Char) (pieces : List Piece) (last : List Char) : Prop where
  source_eq : source = textOf pieces last
  gaps : ∀ before piece after, pieces = before ++ piece :: after →
    LongestIn IsGap piece.gap (textOf (piece :: after) last)
  lexemes : ∀ before piece after, pieces = before ++ piece :: after →
    LongestIn IsLexeme piece.lexeme (piece.lexeme ++ textOf after last)
  tokens : ∀ piece ∈ pieces, Denotes piece.lexeme piece.token ∧ piece.token.InRange
  last : IsGap last

/-- The tokens of pieces that begin on a line, each with the line of its lexeme, and the
end of the file. -/
def locate (line : Nat) (pieces : List Piece) (last : List Char) : List Located :=
  pieces.mapIdx (fun index piece =>
      ⟨piece.token, line + lineFeeds (textOf (pieces.take index) piece.gap)⟩) ++
    [⟨.endOfFile, line + lineFeeds (textOf pieces last)⟩]

section Division

variable {source last text rest : List Char} {piece : Piece} {pieces : List Piece}
variable {line : Nat}

theorem textOf_cons (piece : Piece) (pieces : List Piece) (last : List Char) :
    textOf (piece :: pieces) last = piece.gap ++ (piece.lexeme ++ textOf pieces last) := by
  rw [textOf, List.flatMap_cons, List.append_assoc, List.append_assoc]
  rfl

theorem locate_cons (line : Nat) (piece : Piece) (pieces : List Piece) (last : List Char) :
    locate line (piece :: pieces) last = ⟨piece.token, line + lineFeeds piece.gap⟩ ::
      locate (line + lineFeeds (piece.gap ++ piece.lexeme)) pieces last := by
  rw [locate, locate, List.mapIdx_cons, List.cons_append, textOf_cons]
  congr 2
  · apply List.mapIdx_eq_mapIdx_iff.mpr
    intro index _
    rw [List.take_succ_cons, textOf_cons, lineFeeds_append, lineFeeds_append, lineFeeds_append]
    simp only [Nat.add_assoc]
  · rw [lineFeeds_append, lineFeeds_append, lineFeeds_append]
    simp only [Nat.add_assoc]

theorem divides_nil (h : IsGap last) : Divides last [] last where
  source_eq := rfl
  gaps before _ after heq := by cases before <;> cases heq
  lexemes before _ after heq := by cases before <;> cases heq
  tokens _ hmem := absurd hmem List.not_mem_nil
  last := h

/-- A piece in front of a text that divides. -/
theorem Divides.cons (piece : Piece) (h : Divides rest pieces last)
    (gap : LongestIn IsGap piece.gap (piece.gap ++ (piece.lexeme ++ rest)))
    (lexeme : LongestIn IsLexeme piece.lexeme (piece.lexeme ++ rest))
    (token : Denotes piece.lexeme piece.token ∧ piece.token.InRange) :
    Divides (piece.gap ++ (piece.lexeme ++ rest)) (piece :: pieces) last where
  source_eq := by rw [textOf_cons, h.source_eq]
  gaps before found after heq := by
    cases before with
    | nil =>
        obtain ⟨rfl, rfl⟩ := List.cons.inj heq
        rw [textOf_cons, ← h.source_eq]
        exact gap
    | cons _ before =>
        obtain ⟨-, rfl⟩ := List.cons.inj heq
        exact h.gaps before found after rfl
  lexemes before found after heq := by
    cases before with
    | nil =>
        obtain ⟨rfl, rfl⟩ := List.cons.inj heq
        rw [← h.source_eq]
        exact lexeme
    | cons _ before =>
        obtain ⟨-, rfl⟩ := List.cons.inj heq
        exact h.lexemes before found after rfl
  tokens := List.forall_mem_cons.mpr ⟨token, h.tokens⟩
  last := h.last

theorem Divides.tail (h : Divides source (piece :: pieces) last) :
    Divides (textOf pieces last) pieces last where
  source_eq := rfl
  gaps before found after heq := h.gaps (piece :: before) found after (congrArg _ heq)
  lexemes before found after heq := h.lexemes (piece :: before) found after (congrArg _ heq)
  tokens := (List.forall_mem_cons.mp h.tokens).2
  last := h.last

/-! ### Scanning a division -/

theorem IsGap.head?_ne_quote {gap : List Char} (h : IsGap gap) : gap.head? ≠ some '\'' := by
  cases h with
  | nil => exact fun hhead => by cases hhead
  | cons first _ =>
      intro hhead
      cases first with
      | blank hc =>
          obtain rfl := Option.some.inj hhead
          cases hc
      | brace | starSlash => cases hhead

/-- A quote right after a lexeme begins another one. -/
theorem Divides.exists_of_quote (h : Divides source pieces last)
    (hquote : source.head? = some '\'') :
    ∃ found, IsLexeme ('\'' :: found) ∧ '\'' :: found <+: source := by
  rw [h.source_eq] at hquote ⊢
  cases pieces with
  | nil => exact absurd hquote h.last.head?_ne_quote
  | cons piece pieces =>
      rw [textOf_cons] at hquote ⊢
      have hgap := (h.gaps [] piece pieces rfl).mem
      cases hempty : piece.gap with
      | cons c gap =>
          rw [hempty] at hgap hquote
          exact absurd hquote hgap.head?_ne_quote
      | nil =>
          have hdenotes := (h.tokens piece List.mem_cons_self).1
          cases hlexeme : piece.lexeme with
          | nil => exact absurd hlexeme hdenotes.ne_nil
          | cons c found =>
              rw [hempty, hlexeme] at hquote
              obtain rfl := Option.some.inj hquote
              rw [hlexeme] at hdenotes
              exact ⟨found, ⟨_, hdenotes⟩, List.prefix_append _ _⟩

theorem scan_of_gap {unit : List Char} (h : step text = .gap unit rest) (line : Nat) :
    scan line text = scan (line + lineFeeds unit) rest := by
  rw [scan]
  split
  · next hstep => cases h.symm.trans hstep
  · next hstep =>
      obtain ⟨rfl, rfl⟩ := Step.gap.inj (h.symm.trans hstep)
      rfl
  · next hstep => cases h.symm.trans hstep
  · next hstep => cases h.symm.trans hstep

theorem scan_of_lexeme {token : Token} (h : step text = .lexeme token rest) (line : Nat) :
    scan line text = { scan line rest with
      result := (scan line rest).result.map (⟨token, line⟩ :: ·) } := by
  rw [scan]
  split
  · next hstep => cases h.symm.trans hstep
  · next hstep => cases h.symm.trans hstep
  · next hstep =>
      obtain ⟨rfl, rfl⟩ := Step.lexeme.inj (h.symm.trans hstep)
      rfl
  · next hstep => cases h.symm.trans hstep

/-- A gap is passed as a whole. -/
theorem scan_gap_append {gap : List Char} (h : IsGap gap) (line : Nat) (rest : List Char) :
    scan line (gap ++ rest) = scan (line + lineFeeds gap) rest := by
  induction h generalizing line with
  | nil => rfl
  | cons first _ ih =>
      rw [List.append_assoc, scan_of_gap (step_separator first _), ih, lineFeeds_append,
        Nat.add_assoc]

theorem scan_nil (line : Nat) : scan line [] = ⟨.ok [⟨.endOfFile, line⟩], line⟩ := by
  rw [scan]
  split
  · rfl
  · next hstep => cases hstep
  · next hstep => cases hstep
  · next hstep => cases hstep

/-- A text that divides is scanned to the tokens of its pieces. -/
theorem Divides.scan_eq (h : Divides source pieces last) (line : Nat) :
    scan line source = ⟨.ok (locate line pieces last), line + lineFeeds source⟩ := by
  induction pieces generalizing source line with
  | nil =>
      obtain rfl : source = last := h.source_eq
      have hscan := scan_gap_append h.last line []
      rw [List.append_nil] at hscan
      rw [hscan, scan_nil]
      rfl
  | cons piece pieces ih =>
      obtain ⟨hdenotes, hrange⟩ := h.tokens piece List.mem_cons_self
      have hstops := stopsAt_of_longestIn hdenotes (h.lexemes [] piece pieces rfl)
        h.tail.exists_of_quote
      have hstep := step_lexeme hdenotes hrange hstops
      have hlexeme := hdenotes.lineFeeds_eq_zero
      have hfeeds : lineFeeds source = lineFeeds piece.gap + lineFeeds (textOf pieces last) := by
        rw [h.source_eq, textOf_cons, lineFeeds_append, lineFeeds_append, hlexeme, Nat.zero_add]
      rw [hfeeds, h.source_eq, locate_cons, lineFeeds_append, hlexeme, Nat.add_zero, textOf_cons,
        scan_gap_append (h.gaps [] piece pieces rfl).mem, scan_of_lexeme hstep, ih h.tail,
        ← Nat.add_assoc]
      rfl

theorem eq_nil_of_step (h : step text = .finished) : text = [] := by
  unfold step at h
  split at h
  · rfl
  · split at h <;> cases h
  · split at h <;> cases h
  · split at h
    · cases h
    · unfold lexeme wordLexeme numberLexeme stringLexeme symbolLexeme at h
      repeat' split at h
      all_goals cases h

/-- A blank or a comment in front of a text that divides belongs to its first gap. -/
theorem Divides.exists_separator {unit : List Char} (h : Divides rest pieces last)
    (hunit : IsSeparator unit) : ∃ pieces' last', Divides (unit ++ rest) pieces' last' ∧
      pieces'.map Piece.lexeme = pieces.map Piece.lexeme := by
  rw [h.source_eq]
  cases pieces with
  | nil => exact ⟨[], unit ++ last, divides_nil (.cons hunit h.last), rfl⟩
  | cons piece pieces =>
      have hfirst := h.gaps [] piece pieces rfl
      rw [textOf_cons, longestIn_isGap_iff] at hfirst
      have hgap : LongestIn IsGap (unit ++ piece.gap)
          (unit ++ piece.gap ++ (piece.lexeme ++ textOf pieces last)) :=
        longestIn_isGap_iff.mpr ⟨.cons hunit hfirst.1, hfirst.2⟩
      have hlexeme := h.lexemes [] piece pieces rfl
      rw [textOf_cons, ← List.append_assoc]
      exact ⟨_, last, h.tail.cons ⟨unit ++ piece.gap, piece.lexeme, piece.token⟩ hgap hlexeme
        (h.tokens piece List.mem_cons_self), rfl⟩

/-- A lexeme that nothing goes on, in front of a text that divides. -/
theorem Divides.cons_lexeme {chars : List Char} {token : Token} (h : Divides rest pieces last)
    (hbegins : BeginsLexeme text chars token rest) :
    Divides text (⟨[], chars, token⟩ :: pieces) last := by
  have hgap : LongestIn IsGap [] ([] ++ (chars ++ rest)) :=
    longestIn_isGap_iff.mpr ⟨.nil, not_beginsGap_of_denotes hbegins.denotes rest⟩
  rw [hbegins.text_eq]
  exact h.cons ⟨[], chars, token⟩ hgap (hbegins.denotes.longestIn hbegins.stops)
    ⟨hbegins.denotes, hbegins.inRange⟩

/-- A text that is scanned without a fault divides. -/
theorem exists_divides_of_scan {tokens : List Located}
    (h : (scan line source).result = .ok tokens) : ∃ pieces last, Divides source pieces last := by
  induction line, source using scan.induct generalizing tokens with
  | case1 line source hstep =>
      rw [eq_nil_of_step hstep]
      exact ⟨[], [], divides_nil .nil⟩
  | case2 line source unit rest hstep ih =>
      rw [scan_of_gap hstep] at h
      obtain ⟨pieces, last, hdivides⟩ := ih h
      obtain ⟨pieces', last', hlonger, -⟩ :=
        hdivides.exists_separator (isSeparator_of_step hstep)
      rw [(step_gap hstep).1]
      exact ⟨pieces', last', hlonger⟩
  | case3 line source token rest hstep ih =>
      rw [scan_of_lexeme hstep] at h
      cases hresult : (scan line rest).result with
      | error fault =>
          simp only [hresult] at h
          cases h
      | ok others =>
          obtain ⟨pieces, last, hdivides⟩ := ih hresult
          obtain ⟨chars, hbegins⟩ := exists_of_step_lexeme hstep
          exact ⟨_, last, hdivides.cons_lexeme hbegins⟩
  | case4 line source fault hstep =>
      rw [scan] at h
      split at h
      · next hother => cases hstep.symm.trans hother
      · next hother => cases hstep.symm.trans hother
      · next hother => cases hstep.symm.trans hother
      · cases h

/-- What is scanned is denoted by a lexeme or ends the file, and does not stand above the
text. -/
theorem denotes_of_scan {tokens : List Located} (h : (scan line source).result = .ok tokens)
    {located : Located} (hlocated : located ∈ tokens) :
    line ≤ located.line ∧ (located.token = .endOfFile ∨
      ∃ chars, Denotes chars located.token ∧ located.token.InRange) := by
  obtain ⟨pieces, last, hdivides⟩ := exists_divides_of_scan h
  rw [hdivides.scan_eq line] at h
  obtain rfl := Except.ok.inj h
  rcases List.mem_append.mp hlocated with hpiece | hend
  · obtain ⟨index, hindex, rfl⟩ := List.mem_mapIdx.mp hpiece
    exact ⟨Nat.le_add_right _ _, .inr ⟨_, hdivides.tokens _ (List.getElem_mem hindex)⟩⟩
  · obtain rfl := List.mem_singleton.mp hend
    exact ⟨Nat.le_add_right _ _, .inl rfl⟩

/-- **Scanning is maximal munch.**  A text is scanned to tokens if and only if it divides
into gaps and lexemes, each the longest one in its place; the tokens are those that the
lexemes denote, on the lines where the lexemes begin, and the scan ends on the last line. -/
theorem scan_eq_ok_iff_divides (line : Nat) (source : List Char) (tokens : List Located)
    (endLine : Nat) : scan line source = ⟨.ok tokens, endLine⟩ ↔
      ∃ pieces last, Divides source pieces last ∧ tokens = locate line pieces last ∧
        endLine = line + lineFeeds source := by
  constructor
  · intro h
    obtain ⟨pieces, last, hdivides⟩ := exists_divides_of_scan (congrArg Scanned.result h)
    have hscanned := h.symm.trans (hdivides.scan_eq line)
    obtain ⟨hresult, hline⟩ := Scanned.mk.inj hscanned
    exact ⟨pieces, last, hdivides, Except.ok.inj hresult, hline⟩
  · rintro ⟨pieces, last, hdivides, rfl, rfl⟩
    exact hdivides.scan_eq line

end Division

end MiniPascal.Token.Scan
