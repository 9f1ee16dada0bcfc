import MiniPascal.Proofs.Assembly.Immediate
import MiniPascal.Proofs.Check.Erased
import MiniPascal.Proofs.Code.Settled
import MiniPascal.Proofs.Compile.Bodies
import MiniPascal.Proofs.Compile.Parsed
import MiniPascal.Proofs.Token.Printing

/-!
# Numbers in listings

A number in a listing fits a 32-bit word, with two kinds of exceptions: a text that is used
as a number stands for the sum of its character codes, however long it is, and the codes
of enumeration literals and the room of arguments grow with the text of the program.
-/

namespace MiniPascal

open MiniPascal.Assembly
open MiniPascal.Code

/-! ### Where numbers come from -/

namespace Token

/-- The sum of the character codes of a text string. -/
def codeSum : Token → Nat
  | text content => Literal.codeSum content
  | name _ | number _ | keyword _ | symbol _ | endOfFile => 0

/-- The number is not negative, and if it does not fit a 32-bit word then it is the sum of
the codes of a text string or less than four times the number of tokens. -/
def Explain (tokens : List Token) (value : Int) : Prop :=
  0 ≤ value ∧ (value ≤ 2147483647 ∨ (∃ token ∈ tokens, value = token.codeSum) ∨
    value < 4 * tokens.length)

theorem Explain.mono {tokens tokens' : List Token} {value : Int} (h : Explain tokens value)
    (hsublist : tokens.Sublist tokens') : Explain tokens' value := by
  obtain ⟨hlow, hword | ⟨token, hmem, hsum⟩ | hlength⟩ := h
  · exact ⟨hlow, .inl hword⟩
  · exact ⟨hlow, .inr (.inl ⟨token, hsublist.subset hmem, hsum⟩)⟩
  · have hle := hsublist.length_le
    exact ⟨hlow, .inr (.inr (by omega))⟩

theorem Scan.Denotes.nonneg {chars : List Char} {token : Token} (h : Denotes chars token)
    {value : Int} (htoken : token = .number value) : 0 ≤ value := by
  cases h with
  | word =>
      unfold ofWord at htoken
      split at htoken
      · cases htoken
      · cases htoken
  | number =>
      cases htoken
      exact Int.natCast_nonneg _
  | text | symbol => cases htoken

/-- The numbers among the tokens of a text fit a 32-bit word. -/
theorem inRange_of_scan {line : Nat} {source : List Char} {tokens : List Located}
    (h : (scan line source).result = .ok tokens) {value : Int}
    (hvalue : number value ∈ tokens.map Located.token) : 0 ≤ value ∧ value ≤ 2147483647 := by
  obtain ⟨located, hlocated, htoken⟩ := List.mem_map.mp hvalue
  obtain ⟨-, hend | ⟨chars, hdenotes, hrange⟩⟩ := Scan.denotes_of_scan h hlocated
  · cases htoken.symm.trans hend
  · rw [htoken] at hrange
    exact ⟨hdenotes.nonneg htoken, hrange⟩

end Token

/-- The number of a literal whose token is in the text. -/
theorem Literal.explained {tokens : List Token}
    (hnumbers : ∀ value, .number value ∈ tokens → 0 ≤ value ∧ value ≤ 2147483647) (value : Literal)
    (h : value.token ∈ tokens) : Token.Explain tokens value.value := by
  cases value with
  | number value =>
      obtain ⟨hlow, hhigh⟩ := hnumbers value h
      exact ⟨hlow, .inl hhigh⟩
  | char value =>
      have hcode : value.toNat < 1114112 := by
        have hvalid := value.valid
        unfold UInt32.isValidChar Nat.isValidChar at hvalid
        change value.val.toNat < 1114112
        omega
      exact ⟨Int.natCast_nonneg _, .inl (by rw [Literal.value]; omega)⟩
  | text value => exact ⟨Int.natCast_nonneg _, .inr (.inl ⟨.text value, h, rfl⟩)⟩

/-- The number that a declaration says itself. -/
def DeclKind.number? : DeclKind → Option Int
  | .constant (.literal value _) => some value.value
  | .enumLiteral code => some code
  | .constant (.named _) | .type _ | .variableOf _ | .parameter _ | .routine _ => none

theorem DeclKind.number?_erased (kind : DeclKind) : kind.erased.number? = kind.number? := by
  cases kind with
  | constant value => cases value <;> rfl
  | type | variableOf | parameter | enumLiteral | routine => rfl

/-- The library has no large numbers. -/
theorem Library.number?_bounds : ∀ decl ∈ decls, ∀ value ∈ decl.kind.number?,
    0 ≤ value ∧ value ≤ 2147483647 := by
  decide

/-- What a declaration stands for is what the end of its definition says. -/
theorem Tree.Denotes.exists_number {tree : Tree} {path : List DeclId} {id : DeclId} {value : Int}
    {literal? : Option Literal} (h : tree.Denotes path id value literal?) :
    ∃ (last : DeclId) (decl : Decl),
      tree.decls[last]? = some decl ∧ decl.kind.number? = some value := by
  induction h with
  | enumLiteral found kind => exact ⟨_, _, found, kind ▸ rfl⟩
  | literal found kind => exact ⟨_, _, found, kind ▸ rfl⟩
  | named found kind bound rest ih => exact ih

namespace CheckedProgram

variable {outline : Outline} {skeleton : Skeleton} {tree : Tree}

/-- The number that a declaration of a checked program stands for. -/
theorem explained_declValue (program : CheckedProgram outline skeleton tree)
    (underway : Check.Underway outline tree)
    (hnumbers : ∀ value, .number value ∈ outline.tokens → 0 ≤ value ∧ value ≤ 2147483647)
    {id : DeclId} {decl : Decl} {value : Int} (hdecl : tree.decls[id]? = some decl)
    (hvalue : tree.declValue decl = .ok value) : Token.Explain outline.tokens value := by
  obtain ⟨decl', hdecl', hsettled⟩ := program.settled (Array.getElem?_eq_some_iff.mp hdecl).1
  obtain rfl := Option.some.inj (hdecl.symm.trans hdecl')
  have hdenotes : ∃ path value' literal?, tree.Denotes path id value' literal? := by
    cases hkind : decl.kind with
    | constant | enumLiteral =>
        rw [hkind] at hsettled
        exact hsettled
    | type | variableOf | parameter | routine =>
        rw [Tree.declValue, Tree.valueBy, hkind] at hvalue
        cases hvalue
  obtain ⟨path, value', literal?, hdenotes⟩ := hdenotes
  obtain rfl := Except.ok.inj ((hdenotes.declValue_eq hdecl).symm.trans hvalue)
  obtain ⟨last, ending, hending, hnumber⟩ := hdenotes.exists_number
  rcases underway.comesFrom hending with hfrom | ⟨known, hknown, hkind⟩
  · cases hkind : ending.kind with
    | constant content =>
        cases content with
        | literal literal line =>
            rw [hkind] at hfrom hnumber
            obtain rfl := Option.some.inj hnumber
            exact literal.explained hnumbers hfrom
        | named ref =>
            rw [hkind] at hnumber
            cases hnumber
    | enumLiteral code =>
        rw [hkind] at hfrom hnumber
        obtain rfl := Option.some.inj hnumber
        obtain ⟨hlow, hhigh⟩ := hfrom
        exact ⟨hlow, .inr (.inr (by omega))⟩
    | type | variableOf | parameter | routine =>
        rw [hkind] at hnumber
        cases hnumber
  · rw [← DeclKind.number?_erased, hkind] at hnumber
    obtain ⟨hlow, hhigh⟩ := Library.number?_bounds known hknown value' hnumber
    exact ⟨hlow, .inl hhigh⟩

/-- The numbers that the code of a checked program can hold are explained by its text. -/
theorem explained_codeNumber (program : CheckedProgram outline skeleton tree)
    (underway : Check.Underway outline tree)
    (hnumbers : ∀ value, .number value ∈ outline.tokens → 0 ≤ value ∧ value ≤ 2147483647)
    {value : Int} (h : CodeNumber tree outline.tokens value) :
    Token.Explain outline.tokens value := by
  cases h with
  | zero => exact ⟨Int.le_refl 0, .inl (by decide)⟩
  | word => exact ⟨by decide, .inl (by decide)⟩
  | arguments hcount =>
      have hsize : Frame.wordSize = 4 := rfl
      rw [hsize]
      exact ⟨by omega, .inr (.inr (by omega))⟩
  | literal hmem => exact Literal.explained hnumbers _ hmem
  | declared hdecl hvalue => exact program.explained_declValue underway hnumbers hdecl hvalue

end CheckedProgram

/-- The numbers in the listing of a checked program are explained by its text. -/
theorem CheckedProgram.explained_immediates {tokens : List Located} {outline : Outline}
    {skeleton : Skeleton} {tree : Tree} {context final : Context} {listing : Listing}
    (program : CheckedProgram outline skeleton tree) (underway : Check.Underway outline tree)
    (hparse : (Outline.parse tokens).result = .ok outline)
    (hnumbers : ∀ value, .number value ∈ tokens.map Located.token → 0 ≤ value ∧ value ≤ 2147483647)
    (h : (Compilation.generate tree).run context = .ok listing final) :
    ∀ value ∈ listing.immediates, Token.Explain (tokens.map Located.token) value := by
  obtain ⟨lines, labels, codes, main, body, between, rfl, hbodies, -⟩ := program.exists_bodies h
  have hsublist : outline.tokens.Sublist (tokens.map Located.token) := by
    rw [Outline.tokens_of_parse hparse]
    exact (List.takeWhile_sublist _).map _
  have hlines := hbodies.codeLines fun _ _ => underway.tokens_sublist program.hasSkeleton
  intro value hvalue
  rw [immediates_listed] at hvalue
  obtain ⟨line, hline, himmediate⟩ := List.mem_filterMap.mp hvalue
  have hnumber := (hlines line hline).codeNumber himmediate
  have hexplained := program.explained_codeNumber underway
    (fun value hvalue => hnumbers value (hsublist.subset hvalue)) hnumber
  exact hexplained.mono hsublist

/-- **Numbers in a listing come from the text.**  Every number that the listing of a text
moves or adds is not negative and fits a 32-bit word, or it is the sum of the codes of a
text string in the source, or less than four times the number of tokens.  So all numbers
fit if the sums of the text strings do and there are few enough tokens. -/
theorem compile_immediates {source : String} {context final : Context} {listing : Listing}
    (h : (compile source).run context = .ok listing final) :
    ∃ tokens, Compilation.scan source = .ok tokens ∧
      (∀ value ∈ listing.immediates, 0 ≤ value ∧ (value ≤ 2147483647 ∨
        (∃ located ∈ tokens, value = located.token.codeSum) ∨ value < 4 * tokens.length)) ∧
      ((∀ located ∈ tokens, located.token.codeSum ≤ 2147483647) → tokens.length ≤ 536870912 →
        ∀ value ∈ listing.immediates, -2147483648 ≤ value ∧ value ≤ 2147483647) := by
  obtain ⟨tokens, tree, middle, hscan, htokens, hgenerate⟩ := exists_stages_of_compile h
  obtain ⟨outline, skeleton, hparse, underway, program⟩ :=
    Compilation.exists_checkedProgram htokens
  have hexplained := program.explained_immediates underway hparse
    (fun _ hvalue => Token.inRange_of_scan hscan hvalue) hgenerate
  have hsources : ∀ value ∈ listing.immediates, 0 ≤ value ∧ (value ≤ 2147483647 ∨
      (∃ located ∈ tokens, value = located.token.codeSum) ∨ value < 4 * tokens.length) := by
    intro value hvalue
    have hexplain := hexplained value hvalue
    simpa only [Token.Explain, List.mem_map, exists_exists_and_eq_and,
      List.length_map] using hexplain
  refine ⟨tokens, hscan, hsources, ?_⟩
  intro hsums hfew value hvalue
  obtain ⟨hlow, hword | ⟨located, hlocated, hsum⟩ | hcount⟩ := hsources value hvalue
  · exact ⟨by omega, hword⟩
  · have hle := hsums located hlocated
    exact ⟨by omega, by omega⟩
  · exact ⟨by omega, by omega⟩

/-- The source of a program with numbers of all kinds: a constant named after a text, the
code of an enumeration literal, arguments, characters and comparisons. -/
def manyNumbers : String :=
  "program p; const a = 'ab'; b = a; type t = (on, off); var n: t;
    procedure q(x: integer; y: integer); begin n := off end;
    begin q('c', 2147483647); n := b + eol; write(n > 'xyz', 'line') end."

/-- No text in the source is too long, so all numbers of the listing fit. -/
theorem compile_immediates_manyNumbers :
    ∃ tokens listing final, Compilation.scan manyNumbers = .ok tokens ∧
      (compile manyNumbers).run (.fresh false false) = .ok listing final ∧
      (∀ located ∈ tokens, located.token.codeSum ≤ 2147483647) ∧ tokens.length ≤ 536870912 ∧
      ∀ value ∈ listing.immediates, -2147483648 ≤ value ∧ value ≤ 2147483647 := by
  have hok : Compilation.endsWith (fun _ _ => true)
      ((compile manyNumbers).run (.fresh false false)) = true := by
    decide +kernel
  have htexts : Compilation.passes (fun tokens => decide
      ((∀ located ∈ tokens, located.token.codeSum ≤ 2147483647) ∧ tokens.length ≤ 536870912))
      (Compilation.scan manyNumbers) = true := by
    decide +kernel
  obtain ⟨listing, final, hcompile, -⟩ := Compilation.exists_of_endsWith hok
  obtain ⟨tokens, hscan, -, hfits⟩ := compile_immediates hcompile
  obtain ⟨tokens', hscan', htest⟩ := Compilation.exists_of_passes htexts
  obtain rfl := Except.ok.inj (hscan.symm.trans hscan')
  obtain ⟨hsums, hfew⟩ := of_decide_eq_true htest
  exact ⟨tokens, listing, final, hscan, hcompile, hsums, hfew, hfits hsums hfew⟩

/-! ### A text that is too long -/

def repeated (c : Char) (count : Nat) : String :=
  String.ofList (List.replicate count c)

theorem codeSum_repeated (c : Char) (count : Nat) :
    Literal.codeSum (repeated c count) = count * c.toNat := by
  rw [Literal.codeSum, repeated, String.toList_ofList]
  induction count with
  | zero => exact (Nat.zero_mul _).symm
  | succ count ih => rw [List.replicate_succ, List.foldr_cons, ih, Nat.succ_mul, Nat.add_comm]

theorem ofText_repeated (c : Char) (count : Nat) :
    Literal.ofText (repeated c (count + 2)) = .text (repeated c (count + 2)) := by
  have hchars : (repeated c (count + 2)).toList = c :: c :: List.replicate count c :=
    String.toList_ofList
  rw [Literal.ofText, hchars]

theorem lineFeed_notMem_repeated {c : Char} (h : c ≠ '\n') (count : Nat) :
    '\n' ∉ (repeated c count).toList := by
  rw [repeated, String.toList_ofList, List.mem_replicate]
  exact fun hmem => h hmem.2.symm

/-- Tokens of a program that assigns a text to a variable. -/
def assigning (content : String) : List Token :=
  [.keyword .program, .name "p", .symbol .semicolon, .keyword .var, .name "x", .symbol .colon,
    .name "integer", .symbol .semicolon, .keyword .begin_, .name "x", .symbol .assign,
    .text content, .keyword .end_, .symbol .dot]

/-- Enough of the last character for the sum of their codes not to fit a 32-bit word. -/
def longText : String :=
  repeated (Char.ofNat 0x10FFFF) (1926 + 2)

/-- The source of a program that assigns the long text to a variable. -/
def longAssigned : String :=
  String.ofList (Token.printAll ((assigning longText).map ([' '], ·)) [' '])

theorem printable_assigning {content : String} (h : '\n' ∉ content.toList) :
    ∀ token ∈ assigning content, token.Printable := by
  have hp : (Token.name "p").Printable :=
    @Token.printable_name "p" 'p' [] ⟨by decide, rfl, by simp⟩ (by decide +kernel)
  have hx : (Token.name "x").Printable :=
    @Token.printable_name "x" 'x' [] ⟨by decide, rfl, by simp⟩ (by decide +kernel)
  have hinteger : (Token.name "integer").Printable :=
    @Token.printable_name "integer" 'i' ['n', 't', 'e', 'g', 'e', 'r']
      ⟨by decide, rfl, by simp⟩ (by decide +kernel)
  simp only [assigning, List.forall_mem_cons]
  exact ⟨trivial, hp, trivial, trivial, hx, trivial, hinteger, trivial, trivial, hx, trivial, h,
    trivial, trivial, fun _ hnone => absurd hnone List.not_mem_nil⟩

/-- The tokens of the assignment, each on a line. -/
def assigningAt (content : String) (line : Nat → Nat) : List Located :=
  (assigning content ++ [Token.endOfFile]).mapIdx fun index token => ⟨token, line index⟩

theorem parse_assigning (content : String) (line : Nat → Nat) :
    (Outline.parse (assigningAt content line)).result =
      .ok ⟨"p", line 0, .mk (line 3) [.vars [(⟨"x", line 4⟩, .named (.unbound "integer" (line 6)))]]
        [.assign (.unbound "x" (line 9)) none (.literal (.ofText content) (line 11))]⟩ := by
  simp only [assigningAt, assigning, List.cons_append, List.nil_append, List.mapIdx_cons,
    List.mapIdx_nil]
  with_unfolding_all rfl

/-- The line on which a token of the printed assignment stands. -/
def assigningLine (content : String) (index : Nat) : Nat :=
  1 + Text.lineFeeds (Token.printAll (((assigning content).map ([' '], ·)).take index) [' '])

theorem scan_assigning {content : String} (h : '\n' ∉ content.toList) :
    Compilation.scan (String.ofList (Token.printAll ((assigning content).map ([' '], ·)) [' '])) =
      .ok (assigningAt content (assigningLine content)) := by
  have hblank : Token.Separates [' '] :=
    ⟨(Token.Scan.IsSeparator.blank rfl).isGap, List.cons_ne_nil _ _⟩
  have hitems : ∀ item ∈ (assigning content).map (([' '], ·) : Token → List Char × Token),
      Token.Separates item.1 ∧ item.2.Printable := by
    intro item hitem
    obtain ⟨token, htoken, rfl⟩ := List.mem_map.mp hitem
    exact ⟨hblank, printable_assigning h token htoken⟩
  rw [Compilation.scan, String.toList_ofList, (Token.divides_printAll hitems hblank).scan_eq 1,
    Token.locate_map_pieceOf]
  apply congrArg Except.ok
  simp only [assigningAt, assigning, List.map_cons, List.map_nil, List.cons_append, List.nil_append,
    List.mapIdx_cons, List.mapIdx_nil]
  rfl

/-- Statements that are a literal's assignment without their bindings are one with them. -/
theorem Statement.eq_assign_of_erasedAll {statements : List Statement} {target : NameRef}
    {value : Literal} {line : Nat}
    (h : erasedAll statements = erasedAll [.assign target none (.literal value line)]) :
    ∃ bound, statements = [.assign bound none (.literal value line)] := by
  obtain ⟨first, others, rfl, hfirst, hothers⟩ := eq_cons_of_erasedAll h
  obtain rfl := eq_nil_of_erasedAll hothers
  obtain ⟨bound, index, source, rfl, -, hindex, hsource⟩ := eq_assign_of_erased hfirst
  obtain rfl := Option.map_eq_none_iff.mp hindex
  cases source with
  | literal found place =>
      cases hsource
      exact ⟨bound, rfl⟩
  | name | element | call | group | negation | signed | binary | comparison => cases hsource

/-- The sum of the codes of the long text does not fit a 32-bit word, and the program that
assigns it compiles: the sum is in the listing. -/
theorem compile_immediates_longText :
    ∃ listing final, (compile longAssigned).run (.fresh false false) = .ok listing final ∧
      ∃ value ∈ listing.immediates, 2147483647 < value := by
  have hline : '\n' ∉ longText.toList := lineFeed_notMem_repeated (by decide +kernel) _
  have hscan := scan_assigning hline
  have hok : Compilation.endsWith (fun _ _ => true) ((Compilation.compileTokens
      (assigningAt longText (assigningLine longText))).run (.fresh false false)) = true := by
    decide +kernel
  obtain ⟨listing, final, hlisting, -⟩ := Compilation.exists_of_endsWith hok
  have hcompile : (compile longAssigned).run (.fresh false false) = .ok listing final := by
    rw [compile, longAssigned, hscan]
    exact hlisting
  refine ⟨listing, final, hcompile, 2148006008, ?_, by decide⟩
  obtain ⟨tokens, tree, middle, hscan', htokens, hgenerate⟩ := exists_stages_of_compile hcompile
  obtain rfl := Except.ok.inj (hscan.symm.trans hscan')
  obtain ⟨outline, skeleton, hparse, underway, program⟩ := Compilation.exists_checkedProgram htokens
  rw [parse_assigning] at hparse
  obtain rfl := Except.ok.inj hparse
  obtain ⟨lines, labels, codes, main, body, between, rfl, hbodies, -⟩ :=
    program.exists_bodies hgenerate
  have hbody := hbodies.block
  rw [program.body_eq] at hbody
  obtain ⟨parsed, hparsed, hstatements⟩ := underway.exists_parsed program.hasSkeleton hbody
  have hblock := program.hasSkeleton.block _ skeleton.root_mem_nodes
  obtain rfl := Option.some.inj (hparsed.symm.trans hblock)
  rw [program.hasSkeleton.block_eq] at hstatements
  obtain ⟨bound, hassign⟩ := Statement.eq_assign_of_erasedAll hstatements
  obtain ⟨code, hcode, hmain⟩ := emits_framedBody hbodies.main
  rw [hassign] at hcode
  obtain ⟨front, between', back, rfl, hfirst, -⟩ := emits_statements_cons hcode
  obtain ⟨first, _, second, _, _, _, hvalue, -, -, -, -, rfl⟩ := emits_assign hfirst
  obtain ⟨rfl, -⟩ := emits_literal hvalue
  have hsum : (Literal.ofText longText).value = 2148006008 := by
    rw [longText, ofText_repeated, Literal.value, codeSum_repeated]
    decide +kernel
  have hmem : Line.instruction none (.move (.immediate (Literal.ofText longText).value) .eax) "" ∈
      lines := by
    rw [hbodies.lines_eq, hmain]
    exact List.mem_append_right _ (List.mem_append_right _ (List.mem_cons_of_mem _
      (List.mem_append_left _ (List.mem_append_left _
        (List.mem_append_left _ List.mem_cons_self)))))
  rw [immediates_listed, ← hsum]
  exact List.mem_filterMap.mpr ⟨_, hmem, rfl⟩

end MiniPascal
