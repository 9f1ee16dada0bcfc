import MiniPascal.Diagnostic
import MiniPascal.Text.Blank
import MiniPascal.Token

/-!
# Scanning

A text is a sequence of lexemes with blanks and comments between them.
`Scan.step` takes one of these off the front of a text, always the longest that
fits; `Token.scan` repeats it to the end and counts the line feeds it passes.
Only blanks and comments hold line feeds, so a lexeme lies on one line.
-/

namespace MiniPascal.Token

open MiniPascal.Text

namespace Scan

/-- What can be wrong with the lexeme or comment at the front of a text. -/
inductive Fault
  | illegalCharacter (character : Char)
  | unterminatedComment
  | unterminatedString
  | invalidNumber (digits : String)
  deriving DecidableEq, Repr

def Fault.diagnostic (line : Nat) : Fault → Diagnostic
  | illegalCharacter character => .illegalCharacter character line
  | unterminatedComment => .unterminatedComment line
  | unterminatedString => .unterminatedString line
  | invalidNumber digits => .invalidNumber digits line

/-- The largest number a 32-bit immediate holds. -/
def maxNumber : Nat := 2147483647

/-- A name goes on with ASCII letters, digits and underscores. -/
def isWordChar (c : Char) : Bool :=
  c.isAlphanum || c == '_'

/-- Splits a text after the first closing brace. -/
def throughBrace : List Char → Option (List Char × List Char)
  | [] => none
  | '}' :: rest => some (['}'], rest)
  | c :: rest => (throughBrace rest).map fun (front, back) => (c :: front, back)

/-- Splits a text after the first star with a slash behind it. -/
def throughStarSlash : List Char → Option (List Char × List Char)
  | [] => none
  | '*' :: '/' :: rest => some (['*', '/'], rest)
  | c :: rest => (throughStarSlash rest).map fun (front, back) => (c :: front, back)

/-- Reads the inside of a text string through its closing quote: the value and
the rest.  A doubled quote stands for one, and a line feed ends the attempt. -/
def closeString : List Char → Option (List Char × List Char)
  | [] => none
  | '\'' :: '\'' :: rest => (closeString rest).map fun (value, back) => ('\'' :: value, back)
  | '\'' :: rest => some ([], rest)
  | c :: rest =>
    if c = '\n' then none
    else (closeString rest).map fun (value, back) => (c :: value, back)

def numberValue (digits : List Char) : Nat :=
  digits.foldl (fun value digit => 10 * value + (digit.toNat - '0'.toNat)) 0

/-- The longest symbol at the front of a text, and the rest. -/
def leadingSymbol? : List Char → Option (Symbol × List Char)
  | [] => none
  | [c] => (Symbol.ofSpelling? (String.ofList [c])).map (·, [])
  | c :: d :: rest =>
    match Symbol.ofSpelling? (String.ofList [c, d]) with
    | some mark => some (mark, rest)
    | none => (Symbol.ofSpelling? (String.ofList [c])).map (·, d :: rest)

/-- What stands at the front of a text. -/
inductive Step
  /-- Nothing: the text is empty. -/
  | finished
  /-- A blank or a complete comment. -/
  | gap (skipped rest : List Char)
  /-- A complete lexeme. -/
  | lexeme (token : Token) (rest : List Char)
  /-- Neither. -/
  | fault (cause : Fault)

/-- A keyword or name: the whole run of word characters, in lower case. -/
def wordLexeme (first : Char) (rest : List Char) : Step :=
  .lexeme (.ofWord (String.ofList ((first :: rest.takeWhile isWordChar).map Char.toLower)))
    (rest.dropWhile isWordChar)

/-- A number: the whole run of digits, if it is in range. -/
def numberLexeme (first : Char) (rest : List Char) : Step :=
  if numberValue (first :: rest.takeWhile Char.isDigit) ≤ maxNumber then
    .lexeme (.number (numberValue (first :: rest.takeWhile Char.isDigit)))
      (rest.dropWhile Char.isDigit)
  else
    .fault (.invalidNumber (String.ofList (first :: rest.takeWhile Char.isDigit)))

/-- A text string whose opening quote has been taken. -/
def stringLexeme (rest : List Char) : Step :=
  match closeString rest with
  | some (value, back) => .lexeme (.text (String.ofList value)) back
  | none => .fault .unterminatedString

/-- A symbol, or a character that begins nothing. -/
def symbolLexeme (first : Char) (rest : List Char) : Step :=
  match leadingSymbol? (first :: rest) with
  | some (mark, back) => .lexeme (.symbol mark) back
  | none => .fault (.illegalCharacter first)

/-- The lexeme that begins with `first`, which is neither a blank nor the
opening of a comment. -/
def lexeme (first : Char) (rest : List Char) : Step :=
  if first.isAlpha then wordLexeme first rest
  else if first.isDigit then numberLexeme first rest
  else if first = '\'' then stringLexeme rest
  else symbolLexeme first rest

/-- Takes one blank, comment or lexeme off the front of a text. -/
def step : List Char → Step
  | [] => .finished
  | '{' :: rest =>
    match throughBrace rest with
    | some (front, back) => .gap ('{' :: front) back
    | none => .fault .unterminatedComment
  | '/' :: '*' :: rest =>
    match throughStarSlash rest with
    | some (front, back) => .gap ('/' :: '*' :: front) back
    | none => .fault .unterminatedComment
  | c :: rest => if isBlank c then .gap [c] rest else lexeme c rest

/-! ### Nothing is lost, and every step makes progress -/

theorem throughBrace_append {text front back : List Char}
    (h : throughBrace text = some (front, back)) : text = front ++ back := by
  fun_induction throughBrace text generalizing front with
  | case1 => simp at h
  | case2 rest =>
    obtain ⟨rfl, rfl⟩ := Prod.mk.inj (Option.some.inj h)
    rfl
  | case3 c rest _ ih =>
    obtain ⟨⟨front', back'⟩, inner, outer⟩ := Option.map_eq_some_iff.1 h
    obtain ⟨rfl, rfl⟩ := Prod.mk.inj outer
    simp [ih inner]

theorem throughStarSlash_append {text front back : List Char}
    (h : throughStarSlash text = some (front, back)) : text = front ++ back := by
  fun_induction throughStarSlash text generalizing front with
  | case1 => simp at h
  | case2 rest =>
    obtain ⟨rfl, rfl⟩ := Prod.mk.inj (Option.some.inj h)
    rfl
  | case3 c rest _ ih =>
    obtain ⟨⟨front', back'⟩, inner, outer⟩ := Option.map_eq_some_iff.1 h
    obtain ⟨rfl, rfl⟩ := Prod.mk.inj outer
    simp [ih inner]

theorem length_closeString {text value back : List Char}
    (h : closeString text = some (value, back)) : back.length < text.length := by
  fun_induction closeString text generalizing value with
  | case1 => simp at h
  | case2 rest ih =>
    obtain ⟨⟨value', back'⟩, inner, outer⟩ := Option.map_eq_some_iff.1 h
    obtain ⟨rfl, rfl⟩ := Prod.mk.inj outer
    have := ih inner
    simp only [List.length_cons]
    omega
  | case3 rest => simp_all
  | case4 => simp at h
  | case5 c rest _ _ _ ih =>
    obtain ⟨⟨value', back'⟩, inner, outer⟩ := Option.map_eq_some_iff.1 h
    obtain ⟨rfl, rfl⟩ := Prod.mk.inj outer
    have := ih inner
    simp only [List.length_cons]
    omega

theorem length_leadingSymbol? {text back : List Char} {mark : Symbol}
    (h : leadingSymbol? text = some (mark, back)) : back.length < text.length := by
  unfold leadingSymbol? at h
  split at h
  · simp at h
  · obtain ⟨_, _, outer⟩ := Option.map_eq_some_iff.1 h
    obtain ⟨rfl, rfl⟩ := Prod.mk.inj outer
    simp
  · split at h
    · obtain ⟨rfl, rfl⟩ := Prod.mk.inj (Option.some.inj h)
      simp only [List.length_cons]
      omega
    · obtain ⟨_, _, outer⟩ := Option.map_eq_some_iff.1 h
      obtain ⟨rfl, rfl⟩ := Prod.mk.inj outer
      simp

private theorem length_dropWhile_le (p : Char → Bool) (text : List Char) :
    (text.dropWhile p).length ≤ text.length :=
  (List.dropWhile_suffix p).length_le

theorem length_wordLexeme {first : Char} {text rest : List Char} {token : Token}
    (h : wordLexeme first text = .lexeme token rest) : rest.length ≤ text.length := by
  obtain ⟨-, rfl⟩ := Step.lexeme.inj h
  exact length_dropWhile_le _ _

theorem length_numberLexeme {first : Char} {text rest : List Char} {token : Token}
    (h : numberLexeme first text = .lexeme token rest) : rest.length ≤ text.length := by
  unfold numberLexeme at h
  split at h
  · obtain ⟨-, rfl⟩ := Step.lexeme.inj h
    exact length_dropWhile_le _ _
  · simp at h

theorem length_stringLexeme {text rest : List Char} {token : Token}
    (h : stringLexeme text = .lexeme token rest) : rest.length ≤ text.length := by
  unfold stringLexeme at h
  split at h
  · rename_i closed
    obtain ⟨-, rfl⟩ := Step.lexeme.inj h
    exact Nat.le_of_lt (length_closeString closed)
  · simp at h

theorem length_symbolLexeme {first : Char} {text rest : List Char} {token : Token}
    (h : symbolLexeme first text = .lexeme token rest) : rest.length ≤ text.length := by
  unfold symbolLexeme at h
  split at h
  · rename_i found
    obtain ⟨-, rfl⟩ := Step.lexeme.inj h
    exact Nat.le_of_lt_succ (length_leadingSymbol? found)
  · simp at h

theorem length_lexeme {first : Char} {text rest : List Char} {token : Token}
    (h : lexeme first text = .lexeme token rest) : rest.length ≤ text.length := by
  unfold lexeme at h
  split at h
  · exact length_wordLexeme h
  · split at h
    · exact length_numberLexeme h
    · split at h
      · exact length_stringLexeme h
      · exact length_symbolLexeme h

theorem lexeme_ne_gap {first : Char} {text skipped rest : List Char} :
    lexeme first text ≠ .gap skipped rest := by
  intro h
  unfold lexeme wordLexeme numberLexeme stringLexeme symbolLexeme at h
  repeat' split at h
  all_goals simp at h

/-- A gap is what was taken off the front. -/
theorem step_gap {text skipped rest : List Char} (h : step text = .gap skipped rest) :
    text = skipped ++ rest ∧ skipped ≠ [] := by
  unfold step at h
  split at h
  · simp at h
  · split at h
    · rename_i closed
      obtain ⟨rfl, rfl⟩ := Step.gap.inj h
      exact ⟨by simp [throughBrace_append closed], by simp⟩
    · simp at h
  · split at h
    · rename_i closed
      obtain ⟨rfl, rfl⟩ := Step.gap.inj h
      exact ⟨by simp [throughStarSlash_append closed], by simp⟩
    · simp at h
  · split at h
    · obtain ⟨rfl, rfl⟩ := Step.gap.inj h
      exact ⟨rfl, by simp⟩
    · exact absurd h lexeme_ne_gap

theorem length_step_gap {text skipped rest : List Char} (h : step text = .gap skipped rest) :
    rest.length < text.length := by
  obtain ⟨rfl, nonempty⟩ := step_gap h
  have := List.length_pos_iff.2 nonempty
  simp only [List.length_append]
  omega

theorem length_step_lexeme {text rest : List Char} {token : Token}
    (h : step text = .lexeme token rest) : rest.length < text.length := by
  unfold step at h
  repeat' split at h
  all_goals first
    | exact Nat.lt_succ_of_le (length_lexeme h)
    | simp at h

end Scan

/-- The outcome of scanning a text: its tokens or the first fault, and the line
counter when the scan stopped. -/
structure Scanned where
  result : Except Diagnostic (List Located)
  endLine : Nat

/-- Scans a text whose first character is on the given line.  The tokens end
with the end of the file.  An unclosed comment runs to the end of the text, so
the counter stops there; any other fault stops it at the faulty lexeme. -/
def scan (line : Nat) (source : List Char) : Scanned :=
  match _h : Scan.step source with
  | .finished => { result := .ok [⟨.endOfFile, line⟩], endLine := line }
  | .gap skipped rest => scan (line + lineFeeds skipped) rest
  | .lexeme token rest =>
    let scanned := scan line rest
    { scanned with result := scanned.result.map (⟨token, line⟩ :: ·) }
  | .fault cause =>
    { result := .error (cause.diagnostic line)
      endLine := if cause = .unterminatedComment then line + lineFeeds source else line }
termination_by source.length
decreasing_by
  · exact Scan.length_step_gap _h
  · exact Scan.length_step_lexeme _h

end MiniPascal.Token
