import MiniPascal.Proofs.Check.Accepts
import MiniPascal.Proofs.Code.Frames
import MiniPascal.Proofs.Compile.Total
import MiniPascal.Proofs.Grammar.Locality
import MiniPascal.Proofs.Grammar.Programs
import MiniPascal.Proofs.Token.Printing

/-!
# Programs with many variables

Words that differ can be the variables of a program, however many they are: the program
compiles, and its block needs a frame with a word for each of them.  So there is no largest
frame.
-/

namespace MiniPascal

/-! ### Tokens on one line -/

namespace Token

/-- The text of tokens on one line, with blanks around them. -/
def spaced (tokens : List Token) : List Char :=
  printAll (tokens.map fun token => ([' '], token)) [' ']

def onLine (tokens : List Token) : List Located :=
  tokens.map (⟨·, 1⟩)

/-- Such a text is scanned to its tokens. -/
theorem Scan.scan_spaced {tokens : List Token} (h : ∀ token ∈ tokens, token.Printable) :
    (scan 1 (spaced tokens)).result = .ok (onLine (tokens ++ [.endOfFile])) := by
  have hblank : IsSeparator [' '] := .blank rfl
  induction tokens with
  | nil =>
      change (scan 1 ([' '] ++ [])).result = _
      rw [scan_of_gap (step_separator hblank _), scan_nil]
      rfl
  | cons token tokens ih =>
      obtain ⟨hprintable, hothers⟩ := List.forall_mem_cons.mp h
      obtain ⟨hdenotes, hrange⟩ := hprintable.denotes
      have hstops : StopsAt token (spaced tokens) := by
        have hblank' : Separates [' '] := ⟨hblank.isGap, List.cons_ne_nil _ _⟩
        cases tokens with
        | nil => exact hblank'.stopsAt token []
        | cons next tokens =>
            rw [spaced, List.map_cons, printAll_cons]
            exact hblank'.stopsAt token _
      have htext : spaced (token :: tokens) = [' '] ++ (token.printed ++ spaced tokens) := by
        rw [spaced, List.map_cons, printAll_cons]
        rfl
      rw [htext, scan_of_gap (step_separator hblank _),
        scan_of_lexeme (step_lexeme hdenotes hrange hstops)]
      change (scan 1 (spaced tokens)).result.map _ = _
      rw [ih hothers]
      rfl

end Token

namespace Outline

open Reader
open Token (onLine)

/-! ### Readers on one line -/

/-- On the first line, a reader takes tokens until others are left, and gives a value. -/
def Takes {α : Type} (reader : Reader α) (tokens : List Token) (value : α) (rest : List Token) :
    Prop :=
  ∀ title? events, ∃ title?' events', reader.run ⟨onLine tokens, 1, title?, events⟩ =
    .ok value ⟨onLine rest, 1, title?', events'⟩

namespace Takes

variable {α β : Type} {tokens middle rest : List Token} {token : Token} {value : α} {result : β}

theorem pure (value : α) (tokens : List Token) : Takes (Pure.pure value) tokens value tokens :=
  fun _ _ => ⟨_, _, rfl⟩

theorem bind {first : Reader α} {next : α → Reader β} (h : Takes first tokens value middle)
    (hnext : Takes (next value) middle result rest) :
    Takes (first >>= next) tokens result rest := by
  intro title? events
  obtain ⟨title?', events', hfirst⟩ := h title? events
  obtain ⟨title?'', events'', hsecond⟩ := hnext title?' events'
  exact ⟨title?'', events'', (run_bind_of_ok hfirst).trans hsecond⟩

theorem within {reader : Reader α} (h : Takes reader tokens value rest) (production : Production) :
    Takes (within production reader) tokens value rest := by
  intro title? events
  obtain ⟨title?', events', hrun⟩ := h title? (.enter production :: events)
  exact ⟨title?', .leave production :: events', run_bind_of_ok hrun⟩

theorem current_bind {next : Token → Reader α}
    (h : Takes (next token) (token :: tokens) value rest) :
    Takes (current >>= next) (token :: tokens) value rest :=
  bind (fun _ _ => ⟨_, _, rfl⟩) h

theorem currentLine_bind {next : Nat → Reader α} (h : Takes (next 1) tokens value rest) :
    Takes (currentLine >>= next) tokens value rest :=
  bind (fun _ _ => ⟨_, _, rfl⟩) h

theorem expect_bind (kind : Token.Kind) {next : Unit → Reader α} (hkind : token.kind = kind)
    (h : Takes (next ()) middle value rest) (hmiddle : middle ≠ []) :
    Takes (expect kind >>= next) (token :: middle) value rest := by
  obtain ⟨second, others, rfl⟩ := List.exists_cons_of_ne_nil hmiddle
  refine bind (current_bind ?_) h
  rw [if_pos hkind]
  exact fun _ _ => ⟨_, _, rfl⟩

theorem of_length {reader : Nat → Reader α}
    (h : Takes (reader tokens.length) tokens value rest) :
    Takes (do reader (← get).rest.length) tokens value rest := by
  intro title? events
  change ∃ title?' events', (reader (onLine tokens).length).run _ = _
  rw [onLine, List.length_map]
  exact h title? events

section Loops

variable {begins : Token → Bool} {item : Reader α} {others : List α} {bound : Nat}

theorem atMost_nil (h : begins token = false) :
    Takes (atMost begins item bound) (token :: rest) [] (token :: rest) := by
  cases bound with
  | zero => exact pure [] _
  | succ bound =>
      apply current_bind
      rw [h]
      exact pure [] _

theorem atMost_cons (h : begins token = true) (hitem : Takes item (token :: tokens) value middle)
    (hothers : Takes (atMost begins item bound) middle others rest) :
    Takes (atMost begins item (bound + 1)) (token :: tokens) (value :: others) rest := by
  apply current_bind
  rw [if_pos h]
  exact hitem.bind (hothers.bind (pure _ _))

end Loops

end Takes

/-! ### Programs that declare words -/

def integerVariable (word : String) : Ident × TypeExpr Ident :=
  (⟨word, 1⟩, .named (.unbound "integer" 1))

/-- The program that declares words as its variables and does nothing. -/
def declaring (words : List String) : Outline where
  name := "p"
  line := 1
  body := .mk 1 [.vars (words.map integerVariable)] [.empty 1]

def sectionTokens (words : List String) (rest : List Token) : List Token :=
  (words.map integerVariable).flatMap (typedTokens .colon) ++ .keyword .begin_ :: rest

theorem tokens_declaring (words : List String) : (declaring words).tokens =
    .keyword .program :: .name "p" :: .symbol .semicolon :: .keyword .var ::
      sectionTokens words [.keyword .end_, .symbol .dot] := by
  simp [tokens, declaring, programTokens, Block.tokens, blockTokens, partsTokens, Part.tokens,
    sectionTokens, Statement.tokensAll, Statement.tokensAfter, Statement.tokens]

section Variables

variable {word : String} {words : List String} {next : Token} {rest : List Token}

theorem takes_varDecl : Takes varDecl (typedTokens .colon (integerVariable word) ++ next :: rest)
    (integerVariable word) (next :: rest) :=
  fun _ _ => ⟨_, _, by with_unfolding_all rfl⟩

theorem sectionTokens_cons (word : String) (words : List String) (rest : List Token) :
    ∃ next after, sectionTokens words rest = next :: after ∧
      sectionTokens (word :: words) rest =
        typedTokens .colon (integerVariable word) ++ next :: after := by
  obtain ⟨next, after, hafter⟩ := List.exists_cons_of_ne_nil (List.append_ne_nil_of_right_ne_nil
    ((words.map integerVariable).flatMap (typedTokens .colon))
    (List.cons_ne_nil (Token.keyword .begin_) rest))
  refine ⟨next, after, hafter, ?_⟩
  rw [sectionTokens, List.map_cons, List.flatMap_cons, List.append_assoc, hafter]

/-- Declarations are taken one after another, up to the beginning of the statements. -/
theorem takes_varDecls {bound : Nat} (h : words.length ≤ bound) :
    Takes (atMost (·.kind == .name) varDecl bound) (sectionTokens words rest)
      (words.map integerVariable) (.keyword .begin_ :: rest) := by
  induction words generalizing bound with
  | nil => exact .atMost_nil rfl
  | cons word words ih =>
      cases bound with
      | zero => cases h
      | succ bound =>
          obtain ⟨next, after, hafter, htokens⟩ := sectionTokens_cons word words rest
          have hothers := ih (Nat.le_of_succ_le_succ h)
          rw [hafter] at hothers
          rw [htokens]
          exact .atMost_cons rfl takes_varDecl hothers

theorem length_le_sectionTokens (words : List String) (rest : List Token) :
    words.length ≤ (sectionTokens words rest).length := by
  induction words with
  | nil => exact Nat.zero_le _
  | cons word words ih =>
      obtain ⟨next, after, hafter, htokens⟩ := sectionTokens_cons word words rest
      rw [htokens, ← hafter, List.length_append]
      change words.length + 1 ≤ 4 + _
      omega

theorem takes_vars : Takes (sectionOf .varPart .var varDecl)
    (.keyword .var :: sectionTokens (word :: words) rest)
    ((word :: words).map integerVariable) (.keyword .begin_ :: rest) := by
  obtain ⟨next, after, hafter, htokens⟩ := sectionTokens_cons word words rest
  have hothers := @takes_varDecls words rest _ (length_le_sectionTokens words rest)
  rw [htokens]
  apply Takes.within
  refine Takes.expect_bind (.keyword .var) rfl ?_ (List.cons_ne_nil _ _)
  apply takes_varDecl.bind
  rw [← hafter]
  exact hothers.of_length.bind (.pure _ _)

/-- A block with one section of variables and no statements. -/
theorem takes_block : Takes block
    (.keyword .var :: sectionTokens (word :: words) [.keyword .end_, .symbol .dot, .endOfFile])
    (declaring (word :: words)).body [.symbol .dot, .endOfFile] := by
  refine @Takes.of_length _ _ _ _ (fun length => blockWithin (length + 1)) ?_
  apply Takes.within
  apply Takes.currentLine_bind
  have hparts (inner : Reader Block) (bound : Nat) :
      Takes (atMost beginsPart (partOf inner) (bound + 1))
      (.keyword .var :: sectionTokens (word :: words) [.keyword .end_, .symbol .dot, .endOfFile])
      [.vars ((word :: words).map integerVariable)]
      [.keyword .begin_, .keyword .end_, .symbol .dot, .endOfFile] :=
    .atMost_cons rfl (.current_bind (takes_vars.bind (.pure _ _))) (.atMost_nil rfl)
  apply Takes.bind (hparts _ _).of_length
  refine Takes.expect_bind (.keyword .begin_) rfl ?_ (List.cons_ne_nil _ _)
  have hstatements : Takes statementList [.keyword .end_, .symbol .dot, .endOfFile] [.empty 1]
      [.keyword .end_, .symbol .dot, .endOfFile] := fun _ _ => ⟨_, _, rfl⟩
  apply hstatements.bind
  exact Takes.expect_bind (.keyword .end_) rfl (.pure _ _) (List.cons_ne_nil _ _)

theorem takes_program : Takes program ((declaring (word :: words)).tokens ++ [.endOfFile])
    (declaring (word :: words)) [.endOfFile] := by
  have htokens : (declaring (word :: words)).tokens ++ [.endOfFile] =
      .keyword .program :: .name "p" :: .symbol .semicolon :: .keyword .var ::
        sectionTokens (word :: words) [.keyword .end_, .symbol .dot, .endOfFile] := by
    rw [tokens_declaring, sectionTokens, sectionTokens]
    simp only [List.cons_append, List.append_assoc, List.nil_append]
  have hname (next : Token) (rest : List Token) :
      Takes takeName (.name "p" :: next :: rest) "p" (next :: rest) := fun _ _ => ⟨_, _, rfl⟩
  have htitle (tokens : List Token) :
      Takes (modify fun cursor => { cursor with title? := some "p" }) tokens ⟨⟩ tokens :=
    fun _ _ => ⟨_, _, rfl⟩
  rw [htokens]
  apply Takes.within
  apply Takes.currentLine_bind
  refine Takes.expect_bind (.keyword .program) rfl ?_ (List.cons_ne_nil _ _)
  apply (hname _ _).bind
  apply (htitle _).bind
  refine Takes.expect_bind (.symbol .semicolon) rfl ?_ (List.cons_ne_nil _ _)
  apply takes_block.bind
  refine Takes.expect_bind (.symbol .dot) rfl ?_ (List.cons_ne_nil _ _)
  exact Takes.current_bind (.pure _ _)

end Variables

/-- The tokens of such a program can be printed if its words can be. -/
theorem printable_declaring {words : List String}
    (h : ∀ word ∈ words, (Token.name word).Printable) :
    ∀ token ∈ (declaring words).tokens, token.Printable := by
  have hprogram : (Token.name "p").Printable :=
    @Token.printable_name "p" 'p' [] ⟨by decide, rfl, by simp⟩ (by decide +kernel)
  have hinteger : (Token.name "integer").Printable :=
    @Token.printable_name "integer" 'i' ['n', 't', 'e', 'g', 'e', 'r'] ⟨by decide, rfl, by simp⟩
      (by decide +kernel)
  have hdecl : ∀ word ∈ words, ∀ token ∈ typedTokens .colon (integerVariable word),
      token.Printable := by
    intro word hword
    change ∀ token ∈ [Token.name word, .symbol .colon, .name "integer", .symbol .semicolon],
      token.Printable
    simp only [List.forall_mem_cons]
    exact ⟨h word hword, trivial, hinteger, trivial, fun _ hnil => absurd hnil List.not_mem_nil⟩
  rw [tokens_declaring, sectionTokens, List.flatMap_map]
  simp only [List.forall_mem_cons, List.forall_mem_append]
  refine ⟨trivial, hprogram, trivial, trivial, ?_, trivial, trivial, trivial,
    fun _ hnil => absurd hnil List.not_mem_nil⟩
  intro token htoken
  obtain ⟨word, hword, hmem⟩ := List.mem_flatMap.mp htoken
  exact hdecl word hword token hmem

/-- The program is read back from its tokens. -/
theorem parse_declaring {words : List String} (hwords : words ≠ []) :
    (parse (onLine ((declaring words).tokens ++ [.endOfFile]))).result = .ok (declaring words) := by
  obtain ⟨word, others, rfl⟩ := List.exists_cons_of_ne_nil hwords
  obtain ⟨title?, events, hrun⟩ := @takes_program word others none []
  exact parse_result_eq_ok_iff.mpr ⟨_, hrun⟩

/-! ### The check of such a program -/

/-- An entry is that of a word as a variable. -/
structure DeclaresVariable (word : String) (entry : DeclEntry) : Prop where
  name_eq : entry.declared.decl.name = word
  literals_eq : entry.literals = []
  kind_eq : ∃ type, entry.declared.decl.kind = .variableOf type ∧
    type.uses = [(.typeName, .unbound "integer" 1)]

namespace HasSkeleton

variable {words : List String} {skeleton : Skeleton}

theorem entries_declaring (h : HasSkeleton (declaring words) skeleton) :
    List.Forall₂ DeclaresVariable words skeleton.root.entries := by
  obtain ⟨groups, hgroups, hentries⟩ := h.groups
  cases hgroups with
  | @cons _ entries _ _ hfirst hothers =>
      cases hothers
      have hflat : skeleton.root.entries = entries := hentries.trans (List.append_nil entries)
      rw [hflat]
      refine (List.forall₂_map_left_iff.mp hfirst).imp ?_
      rintro word entry ⟨type, hdecl, -, huses, hliterals⟩
      constructor
      case name_eq => rw [hdecl]; rfl
      case literals_eq => exact List.map_eq_nil_iff.mp hliterals
      case kind_eq => exact ⟨type, by rw [hdecl]; rfl, huses⟩

theorem exists_word (h : HasSkeleton (declaring words) skeleton) {entry : DeclEntry}
    (hentry : entry ∈ skeleton.root.entries) : ∃ word ∈ words, DeclaresVariable word entry :=
  exists_of_forall₂_right h.entries_declaring hentry

theorem declared_declaring (h : HasSkeleton (declaring words) skeleton) :
    skeleton.root.declared = skeleton.root.entries.map DeclEntry.declared := by
  rw [Node.declared, h.params_eq, List.nil_append, List.map_eq_flatMap]
  refine List.flatMap_congr fun entry hentry => ?_
  obtain ⟨word, -, declares⟩ := h.exists_word hentry
  rw [DeclEntry.all, declares.literals_eq]

theorem names_declaring (h : HasSkeleton (declaring words) skeleton) :
    skeleton.root.declared.map (·.decl.name) = words := by
  rw [h.declared_declaring, List.map_map]
  have hentries := h.entries_declaring
  generalize skeleton.root.entries = entries at hentries
  clear h
  induction hentries with
  | nil => rfl
  | cons declares _ ih => exact congrArg₂ List.cons declares.name_eq ih

theorem inner_declaring (h : HasSkeleton (declaring words) skeleton) : skeleton.inner = [] := by
  rw [List.eq_nil_iff_forall_not_mem]
  intro body hbody
  have hwords := @h.exists_word
  cases h.wellFormed with
  | mk _ bodies _ _ =>
      obtain ⟨routine, -, -, -, -, entry, hentry, -, result, hkind⟩ :=
        exists_of_forall₂_left bodies hbody
      obtain ⟨word, -, declares⟩ := hwords hentry
      obtain ⟨type, htype, -⟩ := declares.kind_eq
      cases htype.symm.trans hkind

/-- No word hides a name that is not among them. -/
theorem named_declaring (h : HasSkeleton (declaring words) skeleton) {name : String}
    (hname : name ∉ words) (ids : List DeclId) :
    (Tree.ofOutline (declaring words)).named ids name = none := by
  rw [Tree.named, List.find?_eq_none]
  intro decl hdecl heq
  obtain ⟨id, -, hfound⟩ := List.mem_filterMap.mp hdecl
  obtain ⟨x, hx, rfl⟩ :=
    h.exists_declared (Array.mem_toList_iff.mpr (Array.mem_of_getElem? hfound))
  rw [Skeleton.declared_eq, h.inner_declaring, List.flatMap_nil, List.append_nil] at hx
  have hword := List.mem_map_of_mem (f := fun x : Numbered => x.decl.name) hx
  rw [h.names_declaring] at hword
  exact hname (beq_iff_eq.mp heq ▸ hword)

theorem blockCorrect_declaring (h : HasSkeleton (declaring words) skeleton)
    (hdistinct : words.Nodup) (hinteger : "integer" ∉ words) :
    (Tree.ofOutline (declaring words)).BlockCorrect skeleton.id skeleton.root.block where
  distinct := by
    rw [h.namesOf_eq .top, h.names_declaring]
    exact hdistinct
  declarations before declared after hsplit decl hdecl use huse := by
    have hids := h.wellFormed.node.declarations_eq
    have hmem : declared ∈ skeleton.root.entries.map (·.declared.id) := by
      rw [← hids, hsplit]
      exact List.mem_append_right _ List.mem_cons_self
    obtain ⟨entry, hentry, rfl⟩ := List.mem_map.mp hmem
    obtain ⟨word, -, declares⟩ := h.exists_word hentry
    obtain ⟨type, hkind, huses⟩ := declares.kind_eq
    have hfound := h.decl _ (entry_mem skeleton.root_mem_nodes hentry)
    obtain rfl := Option.some.inj (hdecl.symm.trans hfound)
    have hall : (Tree.ofOutline (declaring words)).usesOf entry.declared.decl.kind =
        [(.typeName, .unbound "integer" 1)] := by
      rw [Tree.usesOf, hkind]
      exact (List.append_nil _).trans huses
    rw [hall] at huse
    obtain rfl := List.mem_singleton.mp huse
    refine ⟨.bare "integer" libraryLine (.type (.builtin .integer)), ?_, .type⟩
    change (Tree.ofOutline (declaring words)).meaningAfter _ _ "integer" = _
    rw [Tree.meaningAfter, h.named_declaring hinteger, Option.none_or, h.enclosing?_top,
      Option.bind_some, h.meaning_library]
    rfl
  statements use huse := by
    rw [h.block_eq] at huse
    cases huse
  nesting := by
    rw [h.frameDepth_eq h.enclosing?_top, h.frameDepth_library, h.hasFrame_eq .top]
    split <;> decide

/-- Different words are the variables of a correct program, if none of them hides the name
of their type. -/
theorem wellFormed_declaring (h : HasSkeleton (declaring words) skeleton)
    (hdistinct : words.Nodup) (hinteger : "integer" ∉ words) :
    (Tree.ofOutline (declaring words)).WellFormed := by
  intro id block hblock
  have hids : skeleton.blockIds = [skeleton.id] := by
    rw [Skeleton.blockIds_eq, h.inner_declaring]
    rfl
  rcases h.block_mem id (Array.getElem?_eq_some_iff.mp hblock).1 with rfl | hid
  · obtain rfl := Option.some.inj (h.library.symm.trans hblock)
    exact h.blockCorrect_library
  · rw [hids] at hid
    obtain rfl := List.mem_singleton.mp hid
    obtain rfl := Option.some.inj ((h.block _ skeleton.root_mem_nodes).symm.trans hblock)
    exact h.blockCorrect_declaring hdistinct hinteger

end HasSkeleton

end Outline

/-! ### Frames of any size -/

namespace CheckedProgram

open Outline (declaring)

variable {words : List String} {skeleton : Skeleton} {tree : Tree}

/-- Each variable has a word in the frame of the program. -/
theorem length_frameWords_declaring (program : CheckedProgram (declaring words) skeleton tree) :
    skeleton.frameWords.length = words.length := by
  have h := program.hasSkeleton
  have hwords : skeleton.frameWords = skeleton.root.declared := by
    have hinner := h.inner_declaring
    have hdeclared := h.declared_declaring
    have hexists := @h.exists_word
    cases skeleton with
    | mk root inner =>
        obtain rfl : inner = [] := hinner
        rw [hdeclared]
        refine (List.append_nil _).trans (List.filter_eq_self.mpr ?_)
        intro x hx
        obtain ⟨entry, hentry, rfl⟩ := List.mem_map.mp hx
        obtain ⟨word, -, declares⟩ := hexists hentry
        obtain ⟨type, hkind, -⟩ := declares.kind_eq
        rw [hkind]
        rfl
  rw [hwords, ← h.names_declaring, List.length_map]

/-- So the program needs a frame of that size, at the first level. -/
theorem needsFrame_declaring (program : CheckedProgram (declaring words) skeleton tree) :
    tree.NeedsFrame (32 + 4 * words.length : Nat) 1 := by
  have howns : skeleton.root.ownsFrame = true := by
    rw [Node.ownsFrame, program.hasSkeleton.program]
    rfl
  obtain ⟨statements, hblock, -⟩ := program.checked.node.block
  rw [howns, if_pos rfl, program.length_frameWords_declaring] at hblock
  rw [← Skeleton.id, ← program.body_eq] at hblock
  refine ⟨tree.body, _, .inl rfl, hblock, ?_, ?_⟩
  · change _ = 32 + 4 * (words.length : Int)
    omega
  · exact (if_pos howns).symm

end CheckedProgram

/-- Different words are the variables of a program that compiles, if none of them is reserved
or hides the name of their type. -/
theorem compile_declaring {words : List String} (hwords : words ≠ [])
    (hprintable : ∀ word ∈ words, (Token.name word).Printable) (hdistinct : words.Nodup)
    (hinteger : "integer" ∉ words) (context : Context) :
    ∃ skeleton tree middle listing final,
      CheckedProgram (Outline.declaring words) skeleton tree ∧
      (Compilation.generate tree).run middle = .ok listing final ∧
      (compile (String.ofList (Token.spaced (Outline.declaring words).tokens))).run context =
        .ok listing final := by
  have hscan : Compilation.scan (String.ofList (Token.spaced (Outline.declaring words).tokens)) =
      .ok (Token.onLine ((Outline.declaring words).tokens ++ [.endOfFile])) := by
    rw [Compilation.scan, String.toList_ofList]
    exact Token.Scan.scan_spaced (Outline.printable_declaring hprintable)
  have hparse := Outline.parse_declaring hwords
  obtain ⟨_, hskeleton⟩ := Outline.exists_skeleton (Outline.declaring words)
  obtain ⟨middle, hchecked⟩ := Compilation.checkTokens_eq_ok_iff.mpr ⟨_, hparse,
    (Tree.check_eq_ok_iff _ _).mpr (hskeleton.wellFormed_declaring hdistinct hinteger), rfl⟩
  obtain ⟨outline, skeleton, houtline, -, program⟩ := Compilation.exists_checkedProgram hchecked
  obtain rfl := Except.ok.inj (hparse.symm.trans houtline)
  obtain ⟨listing, final, hgenerate⟩ := program.exists_listing middle
  refine ⟨skeleton, _, middle, listing, final, program, hgenerate, ?_⟩
  rw [compile, hscan]
  exact (Compilation.run_bind_of_ok hchecked).trans hgenerate

/-! ### Words with numbers -/

/-- A word with a number. -/
def numberedWord (index : Nat) : String :=
  "x" ++ toString index

theorem toList_numberedWord (index : Nat) :
    (numberedWord index).toList = 'x' :: Nat.toDigits 10 index := by
  rw [numberedWord, String.toList_append, Nat.toString_eq_ofList_toDigits]
  exact congrArg ('x' :: ·) String.toList_ofList

theorem numberedWord_injective : Function.Injective numberedWord := by
  intro index other heq
  have hdigits := congrArg String.toList heq
  rw [toList_numberedWord, toList_numberedWord] at hdigits
  have hvalue := congrArg (Nat.ofDigitChars 10 · 0) (List.cons.inj hdigits).2
  simpa only [Nat.ofDigitChars_ten_toDigits] using hvalue

/-- Neither a reserved word nor the name of the type of whole numbers begins like them. -/
theorem numberedWord_ne {word : String} (h : word.toList.head? ≠ some 'x') (index : Nat) :
    word ≠ numberedWord index := by
  rintro rfl
  rw [toList_numberedWord] at h
  exact h rfl

theorem printable_numberedWord (index : Nat) : (Token.name (numberedWord index)).Printable := by
  refine ⟨⟨'x', Nat.toDigits 10 index, toList_numberedWord index, rfl, ?_⟩, ?_⟩
  · exact fun c hc => .inr (.inl (Nat.isDigit_of_mem_toDigits (by decide) (by decide) hc))
  · exact fun k => numberedWord_ne (by cases k <;> decide) index

/-- There are as many of them as one likes. -/
def numberedWords (count : Nat) : List String :=
  (List.range count).map numberedWord

theorem length_numberedWords (count : Nat) : (numberedWords count).length = count := by
  rw [numberedWords, List.length_map, List.length_range]

theorem numberedWords_nodup (count : Nat) : (numberedWords count).Nodup :=
  List.nodup_range.map numberedWord_injective

theorem printable_numberedWords (count : Nat) :
    ∀ word ∈ numberedWords count, (Token.name word).Printable := by
  intro word hword
  obtain ⟨index, -, rfl⟩ := List.mem_map.mp hword
  exact printable_numberedWord index

theorem integer_notMem_numberedWords (count : Nat) : "integer" ∉ numberedWords count := by
  intro hmem
  obtain ⟨index, -, heq⟩ := List.mem_map.mp hmem
  exact numberedWord_ne (by decide) index heq.symm

end MiniPascal
