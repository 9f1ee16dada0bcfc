import MiniPascal.Assembly.Listing
import MiniPascal.Proofs.Text.Quoted
import MiniPascal.Proofs.Token.Lexemes

/-!
# Reading a listing back

A rendered listing is read line by line: a line that starts in the first column begins with
a label up to a colon, or is a directive; the rest of it, and any other line, is an opcode,
its operands and a comment.  The reader knows no widths of columns.  It gives back what was
rendered if opcodes, labels and operands are words or quoted texts, and comments do not end
in blanks.
-/

namespace MiniPascal.Assembly

open MiniPascal.Text

/-- What a line says, whatever columns it is set in. -/
inductive Piece
  | label (text : String)
  | directive (text : String)
  | instruction (opcode operands comment : String)
  deriving DecidableEq, Repr

/-- A label on a line of its own is no other than one in front of an instruction. -/
def ListingLine.pieces : ListingLine → List Piece
  | directive text => [.directive text]
  | label text => [.label text]
  | instruction label? opcode operands comment =>
    label?.toList.map Piece.label ++ [.instruction opcode operands comment]

def Piece.instruction? : Piece → Option (String × String)
  | instruction opcode operands _ => some (opcode, operands)
  | label _ | directive _ => none

/-- What a listing says, in order. -/
def Listing.pieces (listing : Listing) : List Piece :=
  listing.lines.flatMap ListingLine.pieces

theorem ListingLine.filterMap_pieces (line : ListingLine) :
    line.pieces.filterMap Piece.instruction? = line.instruction?.toList := by
  cases line with
  | directive | label => rfl
  | instruction label? opcode operands comment => cases label? <;> rfl

/-- What a listing says has all its instructions. -/
theorem Listing.instructions_eq (listing : Listing) :
    listing.instructions = listing.pieces.filterMap Piece.instruction? := by
  obtain ⟨lines⟩ := listing
  rw [instructions, pieces]
  induction lines with
  | nil => rfl
  | cons line lines ih =>
      rw [List.flatMap_cons, List.filterMap_append, line.filterMap_pieces, ← ih]
      cases h : line.instruction? with
      | none => exact List.filterMap_cons_none h
      | some found => exact List.filterMap_cons_some h

/-! ### The reader -/

def dropSpaces (text : List Char) : List Char :=
  text.dropWhile (· = ' ')

/-- A text through the next quote that is not escaped, and what follows. -/
def throughQuote : List Char → List Char × List Char
  | [] => ([], [])
  | '"' :: rest => (['"'], rest)
  | '\\' :: c :: rest => ('\\' :: c :: (throughQuote rest).1, (throughQuote rest).2)
  | c :: rest => (c :: (throughQuote rest).1, (throughQuote rest).2)

/-- The operands at the front of a text, and what follows.  They are a quoted text, or go on
to the next space; before a comment there are none. -/
def readOperands : List Char → List Char × List Char
  | '"' :: rest => ('"' :: (throughQuote rest).1, (throughQuote rest).2)
  | '#' :: rest => ([], '#' :: rest)
  | text => (text.takeWhile (· ≠ ' '), text.dropWhile (· ≠ ' '))

def readComment : List Char → List Char
  | '#' :: ' ' :: comment => comment
  | _ => []

/-- An instruction: its opcode, its operands and its comment. -/
def readInstruction (text : List Char) : Piece :=
  let opcode := (dropSpaces text).takeWhile (· ≠ ' ')
  let operands := readOperands (dropSpaces ((dropSpaces text).dropWhile (· ≠ ' ')))
  .instruction (String.ofList opcode) (String.ofList operands.1)
    (String.ofList (readComment (dropSpaces operands.2)))

def readLine : List Char → List Piece
  | [] => []
  | ' ' :: rest => [readInstruction rest]
  | text =>
    match text.dropWhile (· ≠ ':') with
    | [] => [.directive (String.ofList text)]
    | _ :: rest =>
      .label (String.ofList (text.takeWhile (· ≠ ':'))) ::
        if (dropSpaces rest).isEmpty then [] else [readInstruction rest]

def readLines (text : List Char) : List Piece :=
  (text.splitOn '\n').flatMap readLine

def readText (text : String) : List Piece :=
  readLines text.toList

/-! ### Words, operands and comments -/

/-- The characters of opcodes, labels and operands other than texts. -/
def isSign (c : Char) : Bool :=
  c.isAlphanum || ['_', '.', '$', '%', '-', '(', ')', ','].contains c

theorem isSign_bounds {c : Char} (h : isSign c = true) :
    36 ≤ c.toNat ∧ c.toNat ≤ 122 ∧ c.toNat ≠ 58 := by
  rw [isSign, Char.isAlphanum, Token.Scan.isAlpha_eq] at h
  simp only [Bool.or_eq_true, Token.Scan.isUpper_iff, Token.Scan.isLower_iff,
    Token.Scan.isDigit_iff, List.contains_eq_mem, decide_eq_true_eq] at h
  have hvalue : c.toNat = c.val.toNat := rfl
  rcases h with ((hletter | hletter) | hdigit) | hmark
  · omega
  · omega
  · omega
  · have hmarks : ['_', '.', '$', '%', '-', '(', ')', ','].all (fun mark =>
        36 ≤ mark.toNat ∧ mark.toNat ≤ 122 ∧ mark.toNat ≠ 58) = true := by decide
    exact of_decide_eq_true (List.all_eq_true.mp hmarks c hmark)

theorem isBlank_of_isSign {c : Char} (h : isSign c = true) : isBlank c = false := by
  obtain ⟨hlow, hhigh, -⟩ := isSign_bounds h
  rw [isBlank, List.any_eq_false]
  intro range hrange hwithin
  simp only [Bool.and_eq_true, decide_eq_true_eq] at hwithin
  have hapart : ∀ range ∈ blankRanges, range.2 < 36 ∨ 122 < range.1 := by decide
  have := hapart range hrange
  omega

/-- No sign is a mark that the reader looks for. -/
theorem ne_of_isSign {c : Char} (h : isSign c = true) :
    c ≠ ' ' ∧ c ≠ ':' ∧ c ≠ '\n' ∧ c ≠ '"' ∧ c ≠ '#' := by
  obtain ⟨hlow, hhigh, hcolon⟩ := isSign_bounds h
  refine ⟨?_, ?_, ?_, ?_, ?_⟩ <;> (rintro rfl; revert hlow hhigh hcolon; decide)

def Signs (text : String) : Prop :=
  ∀ c ∈ text.toList, isSign c = true

instance (text : String) : Decidable (Signs text) :=
  decidable_of_iff (text.toList.all isSign = true) List.all_eq_true

/-- A word: signs, and at least one. -/
def IsWord (text : String) : Prop :=
  text.toList ≠ [] ∧ Signs text

instance (text : String) : Decidable (IsWord text) :=
  inferInstanceAs (Decidable (_ ∧ _))

/-- Operands that can be read: none, a word or a quoted text. -/
inductive IsOperands : String → Prop
  | none : IsOperands ""
  | word {text : String} (h : IsWord text) : IsOperands text
  | quoted (text : String) : IsOperands (quote text)

/-- A text that does not end in a blank. -/
def IsTrimmed (text : List Char) : Prop :=
  ∀ c ∈ text.getLast?, isBlank c = false

instance (text : List Char) : Decidable (IsTrimmed text) :=
  decidable_of_iff (text.getLast?.all (!isBlank ·) = true) <| by
    rw [IsTrimmed]
    cases text.getLast? <;> simp

/-- A comment that stays as it is at the end of a line. -/
def IsComment (comment : String) : Prop :=
  '\n' ∉ comment.toList ∧ IsTrimmed comment.toList

instance (comment : String) : Decidable (IsComment comment) :=
  inferInstanceAs (Decidable (_ ∧ _))

/-- A directive that cannot be taken for a label or an instruction. -/
def IsDirective (text : String) : Prop :=
  text.toList.head?.any (· ≠ ' ') = true ∧ ∀ c ∈ text.toList, c ≠ ':' ∧ c ≠ '\n'

instance (text : String) : Decidable (IsDirective text) :=
  decidable_of_iff (text.toList.head?.any (· ≠ ' ') = true ∧
    text.toList.all (fun c => c ≠ ':' ∧ c ≠ '\n') = true) (by simp [IsDirective])

/-- The line can be read back. -/
def ListingLine.Legible : ListingLine → Prop
  | directive text => IsDirective text
  | label text => IsWord text
  | instruction label? opcode operands comment =>
    (∀ label ∈ label?, IsWord label) ∧ IsWord opcode ∧ IsOperands operands ∧ IsComment comment

/-! ### Spaces and blanks -/

theorem dropSpaces_replicate_append (count : Nat) (text : List Char) :
    dropSpaces (List.replicate count ' ' ++ text) = dropSpaces text :=
  List.dropWhile_append_of_pos fun _ hc => decide_eq_true (List.eq_of_mem_replicate hc)

theorem dropSpaces_cons {c : Char} (h : c ≠ ' ') (text : List Char) :
    dropSpaces (c :: text) = c :: text :=
  List.dropWhile_cons_of_neg (by simpa using h)

theorem trimEnd_append_replicate (text : List Char) (count : Nat) :
    trimEnd (text ++ List.replicate count ' ') = trimEnd text := by
  have hblank : ∀ c ∈ List.replicate count ' ', isBlank c = true := fun c hc => by
    rw [List.eq_of_mem_replicate hc]
    rfl
  rw [trimEnd, List.reverse_append, List.reverse_replicate,
    List.dropWhile_append_of_pos hblank]
  rfl

namespace IsTrimmed

variable {text back : List Char}

theorem nil : IsTrimmed [] :=
  nofun

theorem of_forall (h : ∀ c ∈ text, isBlank c = false) : IsTrimmed text :=
  fun c hc => h c (List.mem_of_mem_getLast? hc)

theorem concat {c : Char} (h : isBlank c = false) (front : List Char) :
    IsTrimmed (front ++ [c]) := by
  intro last hlast
  rw [List.getLast?_concat] at hlast
  obtain rfl := Option.some.inj hlast
  exact h

/-- What comes before does not count, unless nothing comes after. -/
theorem append (h : IsTrimmed back) (hne : back ≠ []) (front : List Char) :
    IsTrimmed (front ++ back) := by
  obtain ⟨init, last, rfl⟩ := (List.eq_nil_or_concat' back).resolve_left hne
  rw [← List.append_assoc]
  exact concat (h last List.getLast?_concat) _

theorem trimEnd_eq (h : IsTrimmed text) : trimEnd text = text := by
  obtain rfl | ⟨front, last, rfl⟩ := List.eq_nil_or_concat' text
  · rfl
  · exact trimEnd_append_singleton (h last List.getLast?_concat)

end IsTrimmed

theorem IsWord.isTrimmed {text : String} (h : IsWord text) : IsTrimmed text.toList :=
  .of_forall fun c hc => isBlank_of_isSign (h.2 c hc)

theorem IsOperands.isTrimmed {text : String} (h : IsOperands text) : IsTrimmed text.toList := by
  cases h with
  | none => exact .nil
  | word h => exact h.isTrimmed
  | quoted literal =>
      rw [toList_quote, ← List.cons_append]
      exact .concat (by decide) _

/-! ### Line feeds -/

/-- However many line feeds a text has, it is quoted on one line. -/
theorem lineFeed_notMem_quote (text : String) : '\n' ∉ (quote text).toList := by
  rw [toList_quote]
  simp [lineFeed_notMem_escape]

theorem IsWord.lineFeed_notMem {text : String} (h : IsWord text) : '\n' ∉ text.toList :=
  fun hmem => (ne_of_isSign (h.2 _ hmem)).2.2.1 rfl

theorem IsOperands.lineFeed_notMem {text : String} (h : IsOperands text) :
    '\n' ∉ text.toList := by
  cases h with
  | none => exact List.not_mem_nil
  | word h => exact h.lineFeed_notMem
  | quoted literal => exact lineFeed_notMem_quote literal

/-! ### Reading what was set in columns -/

/-- A quoted text ends at its closing quote, whatever it holds. -/
theorem throughQuote_flatMap_escape (text back : List Char) :
    throughQuote (text.flatMap escape ++ '"' :: back) = (text.flatMap escape ++ ['"'], back) := by
  induction text with
  | nil => rfl
  | cons c text ih =>
      rw [List.flatMap_cons, List.append_assoc, List.append_assoc]
      obtain ⟨mark, hescape, -⟩ | ⟨hescape, hc⟩ := escape_cases c
      · rw [hescape, List.cons_append, List.singleton_append, throughQuote, ih]
        rfl
      · have hquote : '"' ≠ c := ne_of_mem_of_not_mem (by decide) hc
        have hslash : '\\' ≠ c := ne_of_mem_of_not_mem (by decide) hc
        have hstep : throughQuote (c :: (text.flatMap escape ++ '"' :: back)) =
            (c :: (throughQuote (text.flatMap escape ++ '"' :: back)).1,
              (throughQuote (text.flatMap escape ++ '"' :: back)).2) := by
          rw [throughQuote.eq_def]
          split <;> simp_all
        rw [hescape, List.singleton_append, hstep, ih]
        rfl

/-- After a word comes a space, or nothing. -/
def Bounded (back : List Char) : Prop :=
  ∀ c ∈ back.head?, c = ' '

theorem takeWhile_word {text : String} (h : IsWord text) {back : List Char} (hback : Bounded back) :
    (text.toList ++ back).takeWhile (· ≠ ' ') = text.toList ∧
      (text.toList ++ back).dropWhile (· ≠ ' ') = back := by
  have hword : ∀ c ∈ text.toList, decide (c ≠ ' ') = true := fun c hc =>
    decide_eq_true (ne_of_isSign (h.2 c hc)).1
  rw [List.takeWhile_append_of_pos hword, List.dropWhile_append_of_pos hword]
  cases back with
  | nil => exact ⟨List.append_nil _, rfl⟩
  | cons c back =>
      obtain rfl := hback c rfl
      exact ⟨List.append_nil _, rfl⟩

/-- A word begins with none of the marks that the reader looks for. -/
theorem IsWord.exists_cons {text : String} (h : IsWord text) : ∃ first rest,
    text.toList = first :: rest ∧ first ≠ ' ' ∧ first ≠ ':' ∧ first ≠ '"' ∧ first ≠ '#' := by
  obtain ⟨first, rest, heq⟩ := List.exists_cons_of_ne_nil h.1
  obtain ⟨hspace, hcolon, -, hquote, hmark⟩ := ne_of_isSign (h.2 first (heq ▸ List.mem_cons_self))
  exact ⟨first, rest, heq, hspace, hcolon, hquote, hmark⟩

theorem readOperands_append {operands : String} (h : IsOperands operands) (hne : operands ≠ "")
    {back : List Char} (hback : Bounded back) :
    readOperands (operands.toList ++ back) = (operands.toList, back) := by
  cases h with
  | none => exact absurd rfl hne
  | quoted text =>
      rw [toList_quote, List.cons_append, List.append_assoc, readOperands,
        List.singleton_append, throughQuote_flatMap_escape]
  | word h =>
      obtain ⟨htake, hdrop⟩ := takeWhile_word h hback
      obtain ⟨first, rest, heq, -, -, hquote, hmark⟩ := h.exists_cons
      rw [heq] at htake hdrop ⊢
      rw [List.cons_append, readOperands, ← List.cons_append, htake, hdrop]
      · exact fun _ heq => hquote (List.cons.inj heq).1
      · exact fun _ heq => hmark (List.cons.inj heq).1

/-! ### Columns -/

namespace ListingLine

theorem commentColumn_empty : commentColumn "" = [] := rfl

theorem commentColumn_of_ne {comment : String} (h : comment ≠ "") :
    commentColumn comment = ' ' :: '#' :: ' ' :: comment.toList := by
  rw [commentColumn, if_neg]
  rw [String.isEmpty_iff]
  exact h

/-- The columns are set off by spaces, and trimmed. -/
theorem columns_eq (opcode operands comment : String) :
    columns opcode operands comment =
      trimEnd (opcode.toList ++ (List.replicate (opcodeWidth - opcode.toList.length + 1) ' ' ++
        (operands.toList ++ (List.replicate (operandWidth - operands.toList.length) ' ' ++
          commentColumn comment)))) := by
  rw [columns, padRight, padRight, List.replicate_succ']
  simp only [List.append_assoc]

end ListingLine

/-- What follows an opcode says the operands and the comment. -/
structure Follows (back : List Char) (operands comment : String) : Prop where
  bounded : Bounded back
  said : ∃ rest, readOperands (dropSpaces back) = (operands.toList, rest) ∧
    readComment (dropSpaces rest) = comment.toList
  lineFeed_notMem : '\n' ∉ back

theorem bounded_replicate_append (count : Nat) (text : List Char) :
    Bounded (List.replicate (count + 1) ' ' ++ text) := by
  rintro _ ⟨⟩
  rfl

/-- Operands start right behind the spaces in front of them. -/
theorem IsOperands.dropSpaces_append {operands : String} (h : IsOperands operands)
    (hne : operands ≠ "") (back : List Char) :
    dropSpaces (operands.toList ++ back) = operands.toList ++ back := by
  cases h with
  | none => exact absurd rfl hne
  | quoted text =>
      rw [toList_quote]
      exact dropSpaces_cons (by decide) _
  | word h =>
      obtain ⟨first, rest, heq, hspace, -⟩ := h.exists_cons
      rw [heq]
      exact dropSpaces_cons hspace _

section Columns

variable {operands comment : String}

theorem follows_of_comment (hoperands : IsOperands operands) (hcomment : IsComment comment)
    (hne : comment ≠ "") (gap gap' : Nat) :
    Follows (List.replicate (gap + 1) ' ' ++ (operands.toList ++ (List.replicate gap' ' ' ++
      ListingLine.commentColumn comment))) operands comment where
  bounded := bounded_replicate_append _ _
  said := by
    have hmark : dropSpaces (List.replicate gap' ' ' ++ ListingLine.commentColumn comment) =
        '#' :: ' ' :: comment.toList := by
      rw [ListingLine.commentColumn_of_ne hne, dropSpaces_replicate_append]
      rfl
    rw [dropSpaces_replicate_append]
    by_cases hnone : operands = ""
    · subst hnone
      refine ⟨'#' :: ' ' :: comment.toList, ?_, rfl⟩
      rw [String.toList_empty, List.nil_append, hmark]
      rfl
    · have htail : Bounded (List.replicate gap' ' ' ++ ListingLine.commentColumn comment) := by
        rw [ListingLine.commentColumn_of_ne hne]
        cases gap' <;> (rintro _ ⟨⟩; rfl)
      refine ⟨List.replicate gap' ' ' ++ ListingLine.commentColumn comment, ?_, ?_⟩
      · rw [hoperands.dropSpaces_append hnone, readOperands_append hoperands hnone htail]
      · rw [hmark]
        rfl
  lineFeed_notMem := by
    rw [ListingLine.commentColumn_of_ne hne]
    simp [hoperands.lineFeed_notMem, hcomment.1]

theorem follows_of_operands (hoperands : IsOperands operands) (hne : operands ≠ "") (gap : Nat) :
    Follows (List.replicate (gap + 1) ' ' ++ operands.toList) operands "" where
  bounded := bounded_replicate_append _ _
  said := by
    have hend : Bounded [] := nofun
    have hread := readOperands_append hoperands hne hend
    rw [dropSpaces_replicate_append]
    rw [List.append_nil] at hread
    have hdrop := hoperands.dropSpaces_append hne []
    rw [List.append_nil] at hdrop
    exact ⟨[], by rw [hdrop, hread], rfl⟩
  lineFeed_notMem := by
    simp [hoperands.lineFeed_notMem]

theorem follows_nil : Follows [] "" "" :=
  ⟨nofun, ⟨[], rfl, rfl⟩, List.not_mem_nil⟩

/-- An opcode is followed by the columns of its operands and its comment. -/
theorem exists_columns_eq {opcode : String} (hopcode : IsWord opcode)
    (hoperands : IsOperands operands) (hcomment : IsComment comment) :
    ∃ back, ListingLine.columns opcode operands comment = opcode.toList ++ back ∧
      Follows back operands comment := by
  rw [ListingLine.columns_eq]
  by_cases hnone : comment = ""
  · subst hnone
    rw [ListingLine.commentColumn_empty, List.append_nil, ← List.append_assoc,
      ← List.append_assoc, trimEnd_append_replicate]
    by_cases hempty : operands = ""
    · subst hempty
      rw [String.toList_empty, List.append_nil, trimEnd_append_replicate,
        hopcode.isTrimmed.trimEnd_eq]
      exact ⟨[], (List.append_nil _).symm, follows_nil⟩
    · have htrimmed : IsTrimmed (opcode.toList ++
          List.replicate (ListingLine.opcodeWidth - opcode.toList.length + 1) ' ' ++
            operands.toList) :=
        hoperands.isTrimmed.append (fun h => hempty (String.toList_eq_nil_iff.mp h)) _
      rw [htrimmed.trimEnd_eq, List.append_assoc]
      exact ⟨_, rfl, follows_of_operands hoperands hempty _⟩
  · have hnonempty : comment.toList ≠ [] := fun h => hnone (String.toList_eq_nil_iff.mp h)
    have htrimmed : IsTrimmed (' ' :: '#' :: ' ' :: comment.toList) :=
      hcomment.2.append hnonempty [' ', '#', ' ']
    have hfollows := follows_of_comment hoperands hcomment hnone
      (ListingLine.opcodeWidth - opcode.toList.length)
      (ListingLine.operandWidth - operands.toList.length)
    refine ⟨_, IsTrimmed.trimEnd_eq ?_, hfollows⟩
    rw [ListingLine.commentColumn_of_ne hnone, ← List.append_assoc, ← List.append_assoc,
      ← List.append_assoc]
    exact htrimmed.append (List.cons_ne_nil _ _) _

end Columns

/-! ### Lines -/

/-- An instruction is read behind any number of spaces. -/
theorem readInstruction_columns {opcode operands comment : String} (hopcode : IsWord opcode)
    (hoperands : IsOperands operands) (hcomment : IsComment comment) (count : Nat) :
    readInstruction (List.replicate count ' ' ++
      ListingLine.columns opcode operands comment) = .instruction opcode operands comment := by
  obtain ⟨back, hcolumns, hbounded, ⟨rest, hread, hsaid⟩, -⟩ :=
    exists_columns_eq hopcode hoperands hcomment
  obtain ⟨first, others, heq, hspace, -⟩ := hopcode.exists_cons
  obtain ⟨htake, hdrop⟩ := takeWhile_word hopcode hbounded
  have hstart : dropSpaces (List.replicate count ' ' ++ (opcode.toList ++ back)) =
      opcode.toList ++ back := by
    rw [dropSpaces_replicate_append, heq]
    exact dropSpaces_cons hspace _
  rw [hcolumns]
  simp only [readInstruction, hstart, htake, hdrop, hread, hsaid, String.ofList_toList]

theorem lineFeed_notMem_columns {opcode operands comment : String} (hopcode : IsWord opcode)
    (hoperands : IsOperands operands) (hcomment : IsComment comment) :
    '\n' ∉ ListingLine.columns opcode operands comment := by
  obtain ⟨back, hcolumns, -, -, hback⟩ := exists_columns_eq hopcode hoperands hcomment
  rw [hcolumns, List.mem_append, not_or]
  exact ⟨hopcode.lineFeed_notMem, hback⟩

theorem readLine_of_ne {c : Char} (h : c ≠ ' ') (text : List Char) :
    readLine (c :: text) =
      match (c :: text).dropWhile (· ≠ ':') with
      | [] => [.directive (String.ofList (c :: text))]
      | _ :: rest =>
        .label (String.ofList ((c :: text).takeWhile (· ≠ ':'))) ::
          if (dropSpaces rest).isEmpty then [] else [readInstruction rest] := by
  rw [readLine]
  · exact nofun
  · exact fun _ heq => h (List.cons.inj heq).1

theorem readLine_directive {text : String} (h : IsDirective text) :
    readLine text.toList = [.directive text] := by
  obtain ⟨hfirst, hchars⟩ := h
  cases hlist : text.toList with
  | nil =>
      rw [hlist] at hfirst
      cases hfirst
  | cons c rest =>
      rw [hlist] at hfirst hchars
      have hcolon : (c :: rest).dropWhile (· ≠ ':') = [] :=
        List.dropWhile_eq_nil_iff.mpr fun d hd => decide_eq_true (hchars d hd).1
      rw [readLine_of_ne (by simpa using hfirst), hcolon, ← hlist, String.ofList_toList]

/-- A label is read through its colon, whatever follows. -/
theorem readLine_label {label : String} (h : IsWord label) (back : List Char) :
    readLine (label.toList ++ ':' :: back) = .label label ::
      if (dropSpaces back).isEmpty then [] else [readInstruction back] := by
  obtain ⟨first, rest, heq, hspace, -⟩ := h.exists_cons
  have hcolon : ∀ c ∈ label.toList, decide (c ≠ ':') = true := fun c hc =>
    decide_eq_true (ne_of_isSign (h.2 c hc)).2.1
  have htake : (label.toList ++ ':' :: back).takeWhile (· ≠ ':') = label.toList := by
    rw [List.takeWhile_append_of_pos hcolon]
    exact List.append_nil _
  have hdrop : (label.toList ++ ':' :: back).dropWhile (· ≠ ':') = ':' :: back := by
    rw [List.dropWhile_append_of_pos hcolon]
    rfl
  rw [heq] at htake hdrop ⊢
  rw [List.cons_append] at htake hdrop ⊢
  rw [readLine_of_ne hspace, hdrop, htake, ← heq, String.ofList_toList]

theorem isEmpty_dropSpaces_columns {opcode operands comment : String} (hopcode : IsWord opcode)
    (hoperands : IsOperands operands) (hcomment : IsComment comment) (count : Nat) :
    (dropSpaces (List.replicate count ' ' ++
      ListingLine.columns opcode operands comment)).isEmpty = false := by
  obtain ⟨back, hcolumns, -⟩ := exists_columns_eq hopcode hoperands hcomment
  obtain ⟨first, others, heq, hspace, -⟩ := hopcode.exists_cons
  rw [hcolumns, dropSpaces_replicate_append, heq, List.cons_append, dropSpaces_cons hspace]
  rfl

theorem readLines_line {line : List Char} (h : '\n' ∉ line) (rest : List Char) :
    readLines (line ++ '\n' :: rest) = readLine line ++ readLines rest := by
  rw [readLines, List.splitOn_append_cons_self_of_not_mem h, List.flatMap_cons]
  rfl

section Lines

variable {opcode operands comment : String}

/-- A line with an instruction alone. -/
theorem readLines_instruction (hopcode : IsWord opcode) (hoperands : IsOperands operands)
    (hcomment : IsComment comment) (rest : List Char) :
    readLines (List.replicate 8 ' ' ++ ListingLine.columns opcode operands comment ++
        '\n' :: rest) = .instruction opcode operands comment :: readLines rest := by
  have hline : '\n' ∉ List.replicate 8 ' ' ++ ListingLine.columns opcode operands comment := by
    simp [lineFeed_notMem_columns hopcode hoperands hcomment]
  rw [readLines_line hline]
  exact congrArg ([·] ++ readLines rest)
    (readInstruction_columns hopcode hoperands hcomment 7)

/-- A line with a label in front of an instruction. -/
theorem readLines_labelled {label : String} (hlabel : IsWord label) (hopcode : IsWord opcode)
    (hoperands : IsOperands operands) (hcomment : IsComment comment) (count : Nat)
    (rest : List Char) :
    readLines (label.toList ++ ':' :: (List.replicate count ' ' ++
        ListingLine.columns opcode operands comment) ++ '\n' :: rest) =
      .label label :: .instruction opcode operands comment :: readLines rest := by
  have hline : '\n' ∉ label.toList ++ ':' :: (List.replicate count ' ' ++
      ListingLine.columns opcode operands comment) := by
    simp [hlabel.lineFeed_notMem, lineFeed_notMem_columns hopcode hoperands hcomment]
  rw [readLines_line hline, readLine_label hlabel,
    isEmpty_dropSpaces_columns hopcode hoperands hcomment,
    readInstruction_columns hopcode hoperands hcomment]
  rfl

/-- A line with a label alone. -/
theorem readLines_label {label : String} (hlabel : IsWord label) (rest : List Char) :
    readLines (label.toList ++ ':' :: '\n' :: rest) = .label label :: readLines rest := by
  have hline : '\n' ∉ label.toList ++ [':'] := by
    simp [hlabel.lineFeed_notMem]
  have hread := readLines_line hline rest
  rw [readLine_label hlabel, List.append_assoc] at hread
  exact hread

end Lines

/-- A legible line is read back, wherever it stands. -/
theorem readLines_render {line : ListingLine} (h : line.Legible) (rest : List Char) :
    readLines (line.render ++ rest) = line.pieces ++ readLines rest := by
  cases line with
  | directive text =>
      have hline : '\n' ∉ text.toList := fun hmem => (h.2 _ hmem).2 rfl
      have hread := readLines_line hline rest
      rw [readLine_directive h] at hread
      rw [ListingLine.render, List.append_assoc]
      exact hread
  | label text =>
      rw [ListingLine.render, List.append_assoc]
      exact readLines_label h rest
  | instruction label? opcode operands comment =>
      obtain ⟨hlabel, hopcode, hoperands, hcomment⟩ := h
      rw [ListingLine.render, List.append_assoc]
      cases label? with
      | none => exact readLines_instruction hopcode hoperands hcomment rest
      | some label =>
          have hlabel := hlabel label rfl
          rw [ListingLine.margin]
          split
          · have hread := readLines_labelled hlabel hopcode hoperands hcomment
              (ListingLine.marginWidth - (label.toList ++ [':']).length) rest
            simp only [padRight, List.append_assoc, List.cons_append, List.nil_append] at hread ⊢
            exact hread
          · have hread := readLines_instruction hopcode hoperands hcomment rest
            simp only [List.append_assoc, List.cons_append, List.nil_append] at hread ⊢
            rw [readLines_label hlabel]
            exact congrArg (Piece.label label :: ·) hread

/-- **A legible listing is read back.**  -/
theorem readText_render {listing : Listing} (h : ∀ line ∈ listing.lines, line.Legible) :
    readText listing.render = listing.pieces := by
  obtain ⟨lines⟩ := listing
  rw [readText, Listing.render, String.toList_ofList, Listing.pieces]
  induction lines with
  | nil => rfl
  | cons line lines ih =>
      obtain ⟨hline, hlines⟩ := List.forall_mem_cons.mp h
      rw [List.flatMap_cons, List.flatMap_cons, readLines_render hline, ih hlines]

end MiniPascal.Assembly
