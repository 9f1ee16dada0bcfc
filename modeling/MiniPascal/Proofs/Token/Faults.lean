import MiniPascal.Proofs.Token.Munch

/-!
# Faults of a text

A text that cannot be scanned has a first place where no blank, comment or lexeme can be
taken off.  What stands before it is scanned without a fault, and what stands there begins
like a comment, a text string or a number that is not one, or with a character that begins
nothing.  The fault is reported for the line of that place, however far it reaches.
-/

namespace MiniPascal.Token.Scan

open MiniPascal.Text

/-! ### What is wrong with a text -/

/-- A text begins with something that is wrong: a comment that is never closed, a text
string that meets the end of its line, a run of digits above the 32-bit range, or a
character that begins no lexeme, blank or comment. -/
inductive Offends : Fault → List Char → Prop
  | brace {inside : List Char} (h : '}' ∉ inside) : Offends .unterminatedComment ('{' :: inside)
  | starSlash {inside : List Char} (h : ¬['*', '/'] <:+: inside) :
      Offends .unterminatedComment ('/' :: '*' :: inside)
  | string {value rest : List Char} (hvalue : '\n' ∉ value)
      (hends : ∀ c, rest.head? = some c → c = '\n') :
      Offends .unterminatedString ('\'' :: (doubled value ++ rest))
  | number {digits rest : List Char} (hdigits : ∀ c ∈ digits, c.isDigit = true)
      (hstop : ∀ c, rest.head? = some c → c.isDigit = false)
      (hlarge : 2147483647 < Nat.ofDigitChars 10 digits 0) :
      Offends (.invalidNumber (String.ofList digits)) (digits ++ rest)
  /-- Comments begin with a slash only if a star comes next. -/
  | character {c : Char} {rest : List Char} (hlexeme : ∀ chars, ¬IsLexeme (c :: chars))
      (hseparator : ∀ chars, IsSeparator (c :: chars) → c = '/' ∧ rest.head? ≠ some '*') :
      Offends (.illegalCharacter c) (c :: rest)

/-- Complete lexemes whose numbers are in range, blanks and complete comments, up to what
comes after them: nothing of it goes on a lexeme. -/
inductive Passes : List Char → List Char → Prop
  | nil (rest : List Char) : Passes [] rest
  | separator {unit front rest : List Char} (first : IsSeparator unit)
      (others : Passes front rest) :
      Passes (unit ++ front) rest
  | lexeme {chars front rest : List Char} {token : Token} (first : Denotes chars token)
      (inRange : token.InRange) (stops : StopsAt token (front ++ rest))
      (others : Passes front rest) : Passes (chars ++ front) rest

/-! ### Comments and texts that are not closed -/

theorem throughBrace_eq_none_iff {text : List Char} : throughBrace text = none ↔ '}' ∉ text := by
  fun_induction throughBrace text with
  | case1 => simp
  | case2 rest => simp
  | case3 c rest hne ih => simp [ih, Ne.symm hne]

theorem throughStarSlash_eq_none_iff {text : List Char} :
    throughStarSlash text = none ↔ ¬['*', '/'] <:+: text := by
  fun_induction throughStarSlash text with
  | case1 => simp
  | case2 rest => simp [List.infix_cons_iff]
  | case3 c rest hnot ih =>
      have hhere : ¬['*', '/'] <+: c :: rest := by
        rintro ⟨after, heq⟩
        obtain ⟨rfl, rfl⟩ := List.cons.inj heq
        exact hnot after rfl rfl
      simp [List.infix_cons_iff, hhere, ih]

/-- A text in quotes is not closed if only doubled quotes stand before the end of its line. -/
theorem closeString_eq_none_iff {text : List Char} : closeString text = none ↔
    ∃ value rest, text = doubled value ++ rest ∧ '\n' ∉ value ∧
      ∀ c, rest.head? = some c → c = '\n' := by
  constructor
  · intro h
    fun_induction closeString text with
    | case1 => exact ⟨[], [], rfl, List.not_mem_nil, fun _ hhead => by cases hhead⟩
    | case2 rest ih =>
        obtain ⟨value, back, rfl, hvalue, hends⟩ := ih (Option.map_eq_none_iff.mp h)
        have hinside : '\n' ∉ '\'' :: value :=
          List.not_mem_cons_of_ne_of_not_mem (by decide) hvalue
        exact ⟨'\'' :: value, back, rfl, hinside, hends⟩
    | case3 => cases h
    | case4 rest =>
        exact ⟨[], '\n' :: rest, rfl, List.not_mem_nil, fun _ hhead => (Option.some.inj hhead).symm⟩
    | case5 c rest hdouble hquote hne ih =>
        obtain ⟨value, back, rfl, hvalue, hends⟩ := ih (Option.map_eq_none_iff.mp h)
        have hinside := List.not_mem_cons_of_ne_of_not_mem (Ne.symm hne) hvalue
        refine ⟨c :: value, back, ?_, hinside, hends⟩
        rw [doubled_cons_of_ne hquote]
        rfl
  · rintro ⟨value, rest, rfl, hvalue, hends⟩
    induction value with
    | nil =>
        cases rest with
        | nil => rfl
        | cons c rest =>
            obtain rfl := hends c rfl
            rfl
    | cons c value ih =>
        obtain ⟨hne, hinside⟩ := not_or.mp (mt List.mem_cons.mpr hvalue)
        rw [closeString_doubled_cons (Ne.symm hne), ih hinside]
        rfl

/-! ### Faults as they are found -/

section Step

variable {text rest : List Char} {cause : Fault} {first : Char}

theorem numberLexeme_eq_fault {more : List Char} (hmore : ∀ c ∈ more, c.isDigit = true)
    (hstop : ∀ c, rest.head? = some c → c.isDigit = false)
    (hlarge : 2147483647 < Nat.ofDigitChars 10 (first :: more) 0) :
    numberLexeme first (more ++ rest) =
      .fault (.invalidNumber (String.ofList (first :: more))) := by
  have hrun := takeWhile_append_of_stop hmore hstop
  have hvalue : ¬numberValue (first :: more) ≤ maxNumber := Nat.not_le.mpr hlarge
  rw [numberLexeme, hrun.1, if_neg hvalue]

/-- A character that begins no lexeme is no letter, digit or quote, and no symbol either. -/
theorem lexeme_eq_fault (h : ∀ chars, ¬IsLexeme (first :: chars)) (rest : List Char) :
    lexeme first rest = .fault (.illegalCharacter first) := by
  have halpha : ¬first.isAlpha = true := fun hfirst => h [] ⟨_, .word hfirst nofun⟩
  have hdigit : ¬first.isDigit = true := fun hfirst => h [] ⟨_, .number hfirst nofun⟩
  have hquote : first ≠ '\'' := by
    rintro rfl
    exact h _ ⟨_, @Denotes.text [] List.not_mem_nil⟩
  have hsymbol : leadingSymbol? (first :: rest) = none := by
    cases hlead : leadingSymbol? (first :: rest) with
    | none => rfl
    | some found =>
        obtain ⟨mark, back⟩ := found
        obtain ⟨htext, -⟩ := exists_of_leadingSymbol? hlead
        cases hmark : mark.spelling.toList with
        | nil => exact absurd hmark (Denotes.symbol mark).ne_nil
        | cons c tail =>
            rw [hmark] at htext
            obtain ⟨rfl, -⟩ := List.cons.inj htext
            exact absurd ⟨_, hmark ▸ Denotes.symbol mark⟩ (h tail)
  rw [lexeme, if_neg halpha, if_neg hdigit, if_neg hquote, symbolLexeme, hsymbol]

/-- What is wrong with a text is found at its front. -/
theorem Offends.step_eq (h : Offends cause text) : step text = .fault cause := by
  cases h with
  | brace hinside => rw [step, throughBrace_eq_none_iff.mpr hinside]
  | starSlash hinside => rw [step, throughStarSlash_eq_none_iff.mpr hinside]
  | string hvalue hends =>
      have hopen := closeString_eq_none_iff.mpr ⟨_, _, rfl, hvalue, hends⟩
      rw [step_cons (by decide), lexeme, if_neg (by decide), if_neg (by decide), if_pos rfl,
        stringLexeme, hopen]
  | @number digits rest hdigits hstop hlarge =>
      cases digits with
      | nil => cases hlarge
      | cons first more =>
          obtain ⟨hfirst, hmore⟩ := List.forall_mem_cons.mp hdigits
          rw [List.cons_append, step_cons (Denotes.number hfirst hmore).first_ne, lexeme,
            isAlpha_of_isDigit hfirst, if_neg Bool.false_ne_true, if_pos hfirst,
            numberLexeme_eq_fault hmore hstop hlarge]
  | @character c rest hlexeme hseparator =>
      have hbrace : c ≠ '{' := by
        rintro rfl
        cases (hseparator _ (@IsSeparator.brace [] List.not_mem_nil)).1
      have hblank : ¬isBlank c = true := by
        intro hblank
        obtain ⟨rfl, -⟩ := hseparator [] (.blank hblank)
        cases hblank
      have hstar : ∀ after, c = '/' → rest = '*' :: after → False := by
        rintro after rfl rfl
        exact (hseparator _ (@IsSeparator.starSlash [] (by decide))).2 rfl
      rw [step, if_neg hblank, lexeme_eq_fault hlexeme]
      · exact hbrace
      · exact hstar

theorem offends_of_numberLexeme (hfirst : first.isDigit = true)
    (h : numberLexeme first text = .fault cause) : Offends cause (first :: text) := by
  unfold numberLexeme at h
  split at h
  · cases h
  · next hvalue =>
      obtain rfl := Step.fault.inj h
      have hoffends := @Offends.number (first :: text.takeWhile Char.isDigit)
        (text.dropWhile Char.isDigit)
        (List.forall_mem_cons.mpr ⟨hfirst, fun _ hc => List.mem_takeWhile_imp hc⟩)
        (fun _ hc => stops_dropWhile hc) (Nat.not_le.mp hvalue)
      rwa [List.cons_append, List.takeWhile_append_dropWhile] at hoffends

theorem offends_of_stringLexeme (h : stringLexeme text = .fault cause) :
    Offends cause ('\'' :: text) := by
  unfold stringLexeme at h
  split at h
  · cases h
  · next hopen =>
      obtain rfl := Step.fault.inj h
      obtain ⟨value, rest, rfl, hvalue, hends⟩ := closeString_eq_none_iff.mp hopen
      exact .string hvalue hends

/-- A character with which a symbol begins is a symbol by itself. -/
theorem isSome_of_head?_spelling (mark : Symbol) {c : Char}
    (h : mark.spelling.toList.head? = some c) :
    (Symbol.ofSpelling? (String.ofList [c])).isSome = true := by
  cases mark <;> cases h <;> decide

theorem offends_of_symbolLexeme (halpha : ¬first.isAlpha = true) (hdigit : ¬first.isDigit = true)
    (hquote : first ≠ '\'')
    (hseparator : ∀ chars, IsSeparator (first :: chars) → first = '/' ∧ text.head? ≠ some '*')
    (h : symbolLexeme first text = .fault cause) : Offends cause (first :: text) := by
  unfold symbolLexeme at h
  split at h
  · cases h
  · next hnone =>
      obtain rfl := Step.fault.inj h
      refine .character ?_ hseparator
      rintro chars ⟨token, hdenotes⟩
      have hshape := hdenotes.shape
      rw [if_neg halpha, if_neg hdigit, if_neg hquote] at hshape
      obtain ⟨mark, hmark⟩ := hshape
      have hsome := isSome_of_head?_spelling mark (c := first) (by rw [← hmark]; rfl)
      have hlone : Symbol.ofSpelling? (String.ofList [first]) = none := by
        unfold leadingSymbol? at hnone
        split at hnone
        · next hempty => cases hempty
        · next hsingle =>
            obtain ⟨rfl, -⟩ := List.cons.inj hsingle
            exact Option.map_eq_none_iff.mp hnone
        · next hpair =>
            obtain ⟨rfl, -⟩ := List.cons.inj hpair
            split at hnone
            · cases hnone
            · exact Option.map_eq_none_iff.mp hnone
      rw [hlone] at hsome
      cases hsome

/-- Scanning takes nothing off the front of a text only if something is wrong there. -/
theorem offends_of_step (h : step text = .fault cause) : Offends cause text := by
  unfold step at h
  split at h
  · cases h
  · split at h
    · cases h
    · next hopen =>
        obtain rfl := Step.fault.inj h
        exact .brace (throughBrace_eq_none_iff.mp hopen)
  · split at h
    · cases h
    · next hopen =>
        obtain rfl := Step.fault.inj h
        exact .starSlash (throughStarSlash_eq_none_iff.mp hopen)
  · next first rest hbrace hstar =>
      split at h
      · cases h
      next hblank =>
      by_cases halpha : first.isAlpha = true
      · rw [lexeme, if_pos halpha] at h
        cases h
      rw [lexeme, if_neg halpha] at h
      by_cases hdigit : first.isDigit = true
      · rw [if_pos hdigit] at h
        exact offends_of_numberLexeme hdigit h
      rw [if_neg hdigit] at h
      by_cases hquote : first = '\''
      · rw [if_pos hquote] at h
        rw [hquote]
        exact offends_of_stringLexeme h
      rw [if_neg hquote] at h
      refine offends_of_symbolLexeme halpha hdigit hquote ?_ h
      intro chars hseparator
      cases hseparator with
      | blank hc => exact absurd hc hblank
      | brace => exact absurd rfl hbrace
      | starSlash =>
          refine ⟨rfl, fun hhead => ?_⟩
          obtain ⟨after, rfl⟩ := List.head?_eq_some_iff.mp hhead
          exact hstar after rfl rfl

theorem step_eq_fault_iff : step text = .fault cause ↔ Offends cause text :=
  ⟨offends_of_step, Offends.step_eq⟩

end Step

/-! ### What is scanned before a fault -/

section Passing

variable {front rest : List Char}

theorem scan_of_fault {text : List Char} {cause : Fault} (h : step text = .fault cause)
    (line : Nat) : (scan line text).result = .error (cause.diagnostic line) := by
  rw [scan]
  split
  · next hstep => cases h.symm.trans hstep
  · next hstep => cases h.symm.trans hstep
  · next hstep => cases h.symm.trans hstep
  · next hstep =>
      obtain rfl := Step.fault.inj (h.symm.trans hstep)
      rfl

/-- What passes in front of some text passes by itself. -/
theorem Passes.alone (h : Passes front rest) : Passes front [] := by
  induction h with
  | nil => exact .nil []
  | separator first _ ih => exact .separator first ih
  | @lexeme chars front rest token first inRange stops _ ih =>
      refine .lexeme first inRange (fun c hc => stops c ?_) ih
      rw [List.append_nil] at hc
      rw [List.head?_append, hc]
      rfl

/-- What passes is scanned without a fault. -/
theorem Passes.exists_tokens (h : Passes front []) (line : Nat) :
    ∃ tokens, scan line front = ⟨.ok tokens, line + lineFeeds front⟩ := by
  generalize hrest : ([] : List Char) = rest at h
  induction h generalizing line with
  | nil => exact ⟨_, scan_nil line⟩
  | @separator unit front _ first _ ih =>
      obtain ⟨tokens, hscan⟩ := ih (line + lineFeeds unit) hrest
      refine ⟨tokens, ?_⟩
      rw [scan_of_gap (step_separator first front), hscan, lineFeeds_append, Nat.add_assoc]
  | @lexeme chars front _ token first inRange stops _ ih =>
      obtain ⟨tokens, hscan⟩ := ih line hrest
      rw [← hrest, List.append_nil] at stops
      refine ⟨⟨token, line⟩ :: tokens, ?_⟩
      rw [scan_of_lexeme (step_lexeme first inRange stops), hscan, lineFeeds_append,
        first.lineFeeds_eq_zero, Nat.zero_add]
      rfl

/-- What passes is taken off, and the scan goes on from the line that it ends on. -/
theorem Passes.scan_eq_error (h : Passes front rest) {line : Nat} {diagnostic : Diagnostic}
    (hrest : (scan (line + lineFeeds front) rest).result = .error diagnostic) :
    (scan line (front ++ rest)).result = .error diagnostic := by
  induction h generalizing line with
  | nil => exact hrest
  | @separator unit front rest first _ ih =>
      rw [List.append_assoc, scan_of_gap (step_separator first _)]
      rw [lineFeeds_append, ← Nat.add_assoc] at hrest
      exact ih hrest
  | @lexeme chars front rest token first inRange stops _ ih =>
      rw [lineFeeds_append, first.lineFeeds_eq_zero, Nat.zero_add] at hrest
      rw [List.append_assoc, scan_of_lexeme (step_lexeme first inRange stops), ih hrest]
      rfl

/-- Only one place can be the first one with a fault. -/
theorem Passes.unique {front' rest' : List Char} {cause cause' : Fault} (h : Passes front rest)
    (offends : Offends cause rest) (h' : Passes front' rest') (offends' : Offends cause' rest')
    (heq : front ++ rest = front' ++ rest') : front = front' ∧ rest = rest' := by
  induction h generalizing front' with
  | nil rest =>
      cases h' with
      | nil => exact ⟨rfl, heq⟩
      | separator first _ =>
          have hstep := offends.step_eq
          rw [List.nil_append, List.append_assoc] at heq
          rw [heq, step_separator first] at hstep
          cases hstep
      | lexeme first inRange stops _ =>
          have hstep := offends.step_eq
          rw [List.nil_append, List.append_assoc] at heq
          rw [heq, step_lexeme first inRange stops] at hstep
          cases hstep
  | @separator unit front rest first _ ih =>
      have hstep := step_separator first (front ++ rest)
      rw [← List.append_assoc, heq] at hstep
      cases h' with
      | nil => cases hstep.symm.trans offends'.step_eq
      | separator first' others' =>
          rw [List.append_assoc, step_separator first'] at hstep
          obtain ⟨rfl, hothers⟩ := Step.gap.inj hstep
          obtain ⟨rfl, rfl⟩ := ih offends others' hothers.symm
          exact ⟨rfl, rfl⟩
      | lexeme first' inRange' stops' _ =>
          rw [List.append_assoc, step_lexeme first' inRange' stops'] at hstep
          cases hstep
  | @lexeme chars front rest token first inRange stops _ ih =>
      have hstep := step_lexeme first inRange stops
      rw [← List.append_assoc, heq] at hstep
      cases h' with
      | nil => cases hstep.symm.trans offends'.step_eq
      | separator first' _ =>
          rw [List.append_assoc, step_separator first'] at hstep
          cases hstep
      | lexeme first' inRange' stops' others' =>
          rw [List.append_assoc, step_lexeme first' inRange' stops'] at hstep
          obtain ⟨-, hothers⟩ := Step.lexeme.inj hstep
          obtain ⟨rfl, rfl⟩ := ih offends others' hothers.symm
          exact ⟨List.append_cancel_right (by simpa only [List.append_assoc] using heq), rfl⟩

/-- A scan that fails has passed all that stands before something that is wrong. -/
theorem exists_offends_of_scan {line : Nat} {source : List Char} {diagnostic : Diagnostic}
    (h : (scan line source).result = .error diagnostic) :
    ∃ front rest cause, source = front ++ rest ∧ Passes front rest ∧ Offends cause rest ∧
      diagnostic = cause.diagnostic (line + lineFeeds front) := by
  induction line, source using scan.induct generalizing diagnostic with
  | case1 line source hstep =>
      rw [eq_nil_of_step hstep, scan_nil] at h
      cases h
  | case2 line source unit rest hstep ih =>
      rw [scan_of_gap hstep] at h
      obtain ⟨front, back, cause, rfl, hpasses, hoffends, rfl⟩ := ih h
      refine ⟨unit ++ front, back, cause, ?_, .separator (isSeparator_of_step hstep) hpasses,
        hoffends, ?_⟩
      · rw [(step_gap hstep).1, List.append_assoc]
      · rw [lineFeeds_append, Nat.add_assoc]
  | case3 line source token rest hstep ih =>
      rw [scan_of_lexeme hstep] at h
      cases hresult : (scan line rest).result with
      | ok tokens =>
          simp only [hresult] at h
          cases h
      | error found =>
          simp only [hresult] at h
          obtain rfl := Except.error.inj h
          obtain ⟨front, back, cause, rfl, hpasses, hoffends, rfl⟩ := ih hresult
          obtain ⟨chars, hbegins⟩ := exists_of_step_lexeme hstep
          refine ⟨chars ++ front, back, cause, ?_,
            .lexeme hbegins.denotes hbegins.inRange hbegins.stops hpasses, hoffends, ?_⟩
          · rw [hbegins.text_eq, List.append_assoc]
          · rw [lineFeeds_append, hbegins.denotes.lineFeeds_eq_zero, Nat.zero_add]
  | case4 line source cause hstep =>
      rw [scan_of_fault hstep] at h
      exact ⟨[], source, cause, rfl, .nil source, offends_of_step hstep, (Except.error.inj h).symm⟩

/-- **The first fault is reported, for the line on which it begins.**  Scanning a text from
some line fails if and only if the text has a place up to which it is scanned without a
fault, and at which something is wrong.  There is only one such place, and the diagnostic
says what is wrong there and on which line. -/
theorem scan_eq_error_iff (line : Nat) (source : List Char) (diagnostic : Diagnostic) :
    (scan line source).result = .error diagnostic ↔
      ∃ front rest cause, source = front ++ rest ∧ Passes front rest ∧
        (∃ tokens, scan line front = ⟨.ok tokens, line + lineFeeds front⟩) ∧
        Offends cause rest ∧ diagnostic = cause.diagnostic (line + lineFeeds front) ∧
        ∀ front' rest' cause', source = front' ++ rest' → Passes front' rest' →
          Offends cause' rest' → front' = front := by
  constructor
  · intro h
    obtain ⟨front, rest, cause, rfl, hpasses, hoffends, hdiagnostic⟩ := exists_offends_of_scan h
    refine ⟨front, rest, cause, rfl, hpasses, hpasses.alone.exists_tokens line, hoffends,
      hdiagnostic, ?_⟩
    intro front' rest' cause' heq hpasses' hoffends'
    exact (hpasses'.unique hoffends' hpasses hoffends heq.symm).1
  · rintro ⟨front, rest, cause, rfl, hpasses, -, hoffends, rfl, -⟩
    exact hpasses.scan_eq_error (scan_of_fault hoffends.step_eq _)

end Passing

end MiniPascal.Token.Scan
