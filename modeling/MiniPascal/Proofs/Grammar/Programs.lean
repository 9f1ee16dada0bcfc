import MiniPascal.Proofs.Grammar.Declarations
import MiniPascal.Proofs.Grammar.Statements

/-!
# Reading programs

The reader of programs accepts exactly the sentences of the grammar, up to the first end
of the file.
-/

namespace MiniPascal

open Token (Kind)
open scoped Computability

namespace Ebnf

/-! ### Words of blocks -/

theorem words_constPart : words Production.constPart =
    oneOf [.keyword .const] * (words Production.constDecl * (words Production.constDecl)∗) := by
  rw [words_production, Production.rule, words_append, words_append, words_many, words_word,
    mul_assoc]

theorem words_typePart : words Production.typePart =
    oneOf [.keyword .type] * (words Production.typeDecl * (words Production.typeDecl)∗) := by
  rw [words_production, Production.rule, words_append, words_append, words_many, words_word,
    mul_assoc]

theorem words_varPart : words Production.varPart =
    oneOf [.keyword .var] * (words Production.varDecl * (words Production.varDecl)∗) := by
  rw [words_production, Production.rule, words_append, words_append, words_many, words_word,
    mul_assoc]

theorem words_procedureDecl : words Production.procedureDecl =
    oneOf [.keyword .procedure] * (oneOf [.name] * ((words Production.paramList + 1) *
      (oneOf [.symbol .semicolon] * (words Production.block * oneOf [.symbol .semicolon])))) := by
  rw [words_production, Production.rule]
  simp only [words_append, words_optional, words_word, words_name, words_mark, mul_assoc]

theorem words_functionDecl : words Production.functionDecl =
    oneOf [.keyword .function] * (oneOf [.name] * ((words Production.paramList + 1) *
      (oneOf [.symbol .colon] * (oneOf [.name] * (oneOf [.symbol .semicolon] *
        (words Production.block * oneOf [.symbol .semicolon])))))) := by
  rw [words_production, Production.rule]
  simp only [words_append, words_optional, words_word, words_name, words_mark, words_typeName,
    mul_assoc]

def declarationParts : Language Kind :=
  words Production.constPart + words Production.typePart + words Production.varPart +
    words Production.functionDecl + words Production.procedureDecl

theorem words_block : words Production.block =
    declarationParts∗ * (oneOf [.keyword .begin_] *
      (words Production.statementList * oneOf [.keyword .end_])) := by
  rw [words_production, Production.rule]
  simp only [words_append, words_or, words_many, words_word, mul_assoc]
  rfl

theorem words_program : words Production.program =
    oneOf [.keyword .program] * (oneOf [.name] * (oneOf [.symbol .semicolon] *
      (words Production.block * oneOf [.symbol .dot]))) := by
  rw [words_production, Production.rule]
  simp only [words_append, words_word, words_name, words_mark, mul_assoc]

def partKinds : List Kind :=
  [.keyword .const] ++ [.keyword .type] ++ [.keyword .var] ++ [.keyword .function] ++
    [.keyword .procedure]

theorem starts_declarationParts : Starts partKinds declarationParts := by
  rw [declarationParts, words_constPart, words_typePart, words_varPart, words_functionDecl,
    words_procedureDecl]
  exact (((((starts_oneOf _).mul _).add ((starts_oneOf _).mul _)).add ((starts_oneOf _).mul _)).add
    ((starts_oneOf _).mul _)).add ((starts_oneOf _).mul _)

end Ebnf

namespace Outline

open Reader Ebnf

variable {bound : Nat}

/-! ### Declaration parts -/

theorem tests_beginsPart : Tests beginsPart partKinds := by
  intro token
  unfold beginsPart
  split <;> simp_all [partKinds, Token.kind_eq_keyword_iff]

theorem reads_sectionOf {α : Type} {decl : Reader α} {words : Language Kind}
    (h : Reads decl words Anything bound) (hstarts : Starts [.name] words)
    (production : Production) (keyword : Keyword) :
    Reads (sectionOf production keyword decl) (oneOf [.keyword keyword] * (words * words∗))
      (· ≠ .name) bound := by
  apply Reads.within
  apply (reads_word keyword).bind _ fun _ _ _ _ => trivial
  intro _
  apply (h.many1 (tests_kind .name) hstarts fun _ _ => trivial).mono _ (Nat.le_refl bound)
  exact fun kind hne => ⟨trivial, fun hmem => hne (List.mem_singleton.mp hmem)⟩

section

variable {block : Reader Block}

theorem reads_procedureOf (h : Reads block (words Production.block) Anything bound) :
    Reads (procedureOf block) (words Production.procedureDecl) Anything (bound + 1) := by
  rw [words_procedureDecl]
  apply Reads.within
  apply still_currentLine.reads_bind
  intro line
  apply (reads_word .procedure).token_bind
  intro _
  apply reads_takeName.bind _ fun _ _ _ _ => trivial
  intro name
  apply reads_optionalParams.bind _ (((starts_oneOf _).mul _).leads (by decide))
  intro params
  apply (reads_mark .semicolon).bind _ fun _ _ _ _ => trivial
  intro _
  apply h.bind _ fun _ _ _ _ => trivial
  exact fun body => (reads_mark .semicolon).bind_still fun _ => still_pure _

theorem reads_functionOf (h : Reads block (words Production.block) Anything bound) :
    Reads (functionOf block) (words Production.functionDecl) Anything (bound + 1) := by
  rw [words_functionDecl]
  apply Reads.within
  apply still_currentLine.reads_bind
  intro line
  apply (reads_word .function).token_bind
  intro _
  apply reads_takeName.bind _ fun _ _ _ _ => trivial
  intro name
  apply reads_optionalParams.bind _ (((starts_oneOf _).mul _).leads (by decide))
  intro params
  apply (reads_mark .colon).bind _ fun _ _ _ _ => trivial
  intro _
  apply reads_typeName.bind _ fun _ _ _ _ => trivial
  intro result
  apply (reads_mark .semicolon).bind _ fun _ _ _ _ => trivial
  intro _
  apply h.bind _ fun _ _ _ _ => trivial
  exact fun body => (reads_mark .semicolon).bind_still fun _ => still_pure _

theorem reads_partOf (h : Reads block (words Production.block) Anything bound) :
    Reads (partOf block) declarationParts (· ≠ .name) (bound + 1) := by
  have hconsts := (@reads_sectionOf (bound + 1) _ _ _ reads_constDecl starts_constDecl .constPart
    .const).bind_still fun decls => still_pure (Part.constants decls)
  have htypes := (@reads_sectionOf (bound + 1) _ _ _ reads_typeDecl starts_typeDecl .typePart
    .type).bind_still fun decls => still_pure (Part.types decls)
  have hvars := (@reads_sectionOf (bound + 1) _ _ _ reads_varDecl starts_varDecl .varPart
    .var).bind_still fun decls => still_pure (Part.vars decls)
  have hfunction := reads_functionOf h
  have hprocedure := reads_procedureOf h
  rw [declarationParts]
  constructor
  · rw [words_constPart, words_typePart, words_varPart]
    apply Sound.current_bind
    intro token
    split
    · exact hconsts.sound.mono (fun _ hword => .inl (.inl (.inl (.inl hword)))) _
    · exact htypes.sound.mono (fun _ hword => .inl (.inl (.inl (.inr hword)))) _
    · exact hvars.sound.mono (fun _ hword => .inl (.inl (.inr hword))) _
    · exact hfunction.sound.mono (fun _ hword => .inl (.inr hword)) _
    · exact hprocedure.sound.mono (fun _ hword => .inr hword) _
  · rw [words_constPart, words_typePart, words_varPart]
    rw [words_functionDecl] at hfunction ⊢
    rw [words_procedureDecl] at hprocedure ⊢
    refine (((Complete.add ?consts ?types).add ?vars).add ?function).add ?procedure
    case consts => exact Complete.keyword_bind hconsts.complete
    case types => exact Complete.keyword_bind htypes.complete
    case vars => exact Complete.keyword_bind hvars.complete
    case function => exact Complete.keyword_bind (hfunction.complete.of_anything _)
    case procedure => exact Complete.keyword_bind (hprocedure.complete.of_anything _)

end

/-! ### Blocks -/

theorem reads_blockWithin (depth : Nat) :
    Reads (blockWithin depth) (words Production.block) Anything depth := by
  induction depth with
  | zero => exact ⟨sound_unexpected _ _, Complete.zero _ _ _⟩
  | succ depth ih =>
      rw [words_block]
      apply Reads.within
      apply still_currentLine.reads_bind
      intro line
      have hparts := (reads_partOf ih).many tests_beginsPart starts_declarationParts (by decide)
      apply hparts.bind _ (((starts_oneOf _).mul _).leads (by decide))
      intro parts
      apply (reads_word .begin_).bind _ fun _ _ _ _ => trivial
      intro _
      apply reads_statementList.bind _ ((starts_oneOf _).leads (by decide))
      exact fun statements => (reads_word .end_).bind_still fun _ => still_pure _

theorem reads_block : Reads block (words Production.block) Anything bound :=
  reads_of_depth reads_blockWithin

/-! ### Programs -/

/-- Nothing is left but the end of the file. -/
def Ends {α : Type} (reader : Reader α) : Prop :=
  ∀ cursor final value, reader.run cursor = .ok value final → headKind final.rest = .endOfFile

theorem Ends.bind {α β : Type} {first : Reader α} {next : α → Reader β}
    (h : ∀ value, Ends (next value)) : Ends (first >>= next) := by
  intro cursor final result hrun
  obtain ⟨value, middle, -, hsecond⟩ := run_bind_eq_ok_iff.mp hrun
  exact h value middle final result hsecond

theorem Ends.within {α : Type} {reader : Reader α} (h : Ends reader) (production : Production) :
    Ends (within production reader) := by
  apply Ends.bind
  intro _ cursor final result hrun
  obtain ⟨value, middle, hreader, hleave⟩ := run_bind_eq_ok_iff.mp hrun
  rw [(still_leave production value).rest_eq hleave]
  exact h cursor middle value hreader

/-- Where the file must end, no more tokens are taken. -/
theorem reads_end (outline : Outline) : Reads (do
      if (← current).kind = .endOfFile then
        return outline
      else
        unexpected (.token .endOfFile)) 1 (· = .endOfFile) bound where
  sound := by
    apply Sound.current_bind
    intro token
    split
    · exact (still_pure outline).sound _
    · exact sound_unexpected _ _ _
  complete := by
    apply Complete.current_bind (leads_one fun _ => id)
    intro token htoken
    rw [if_pos htoken]
    exact (still_pure outline).reads.complete.of_anything _

theorem ends_end (outline : Outline) : Ends (do
      if (← current).kind = .endOfFile then
        return outline
      else
        unexpected (.token .endOfFile)) := by
  intro cursor final value hrun
  rw [run_current_bind] at hrun
  split at hrun
  · next hkind =>
      cases hrun
      rw [← cursor.kind_current, hkind]
  · cases hrun

theorem still_entitle (name : String) :
    Still (modify fun cursor => { cursor with title? := some name } : Reader PUnit) :=
  still_modify fun _ => rfl

theorem reads_program : Reads program (words Production.program) (· = .endOfFile) bound := by
  rw [words_program]
  apply Reads.within
  apply still_currentLine.reads_bind
  intro line
  apply (reads_word .program).bind _ fun _ _ _ _ => trivial
  intro _
  apply reads_takeName.bind _ fun _ _ _ _ => trivial
  intro name
  apply (still_entitle name).reads_bind
  intro _
  apply (reads_mark .semicolon).bind _ fun _ _ _ _ => trivial
  intro _
  apply reads_block.bind _ fun _ _ _ _ => trivial
  intro body
  rw [← mul_one (oneOf [.symbol .dot])]
  exact (reads_mark .dot).bind (fun _ => reads_end _) fun _ _ _ _ => trivial

theorem ends_program : Ends program :=
  Ends.within (.bind fun _ => .bind fun _ => .bind fun _ => .bind fun _ => .bind fun _ =>
    .bind fun _ => .bind fun _ => ends_end _) .program

/-! ### The end of the file -/

def beforeEnd (tokens : List Located) : List Located :=
  tokens.takeWhile (·.kind ≠ .endOfFile)

def fromEnd (tokens : List Located) : List Located :=
  tokens.dropWhile (·.kind ≠ .endOfFile)

theorem headKind_fromEnd (tokens : List Located) : headKind (fromEnd tokens) = .endOfFile := by
  induction tokens with
  | nil => rfl
  | cons first rest ih =>
      unfold fromEnd
      by_cases hfirst : first.kind = .endOfFile
      · rw [List.dropWhile_cons_of_neg (by simpa using hfirst)]
        exact hfirst
      · rw [List.dropWhile_cons_of_pos (by simpa using hfirst)]
        exact ih

/-- Tokens that are no end of the file, up to one, are all those before the first one. -/
theorem beforeEnd_append {front back : List Located} (hfront : .endOfFile ∉ kinds front)
    (hback : headKind back = .endOfFile) : beforeEnd (front ++ back) = front := by
  have hnone : back.takeWhile (·.kind ≠ .endOfFile) = [] := by
    cases back with
    | nil => rfl
    | cons first rest =>
        have hfirst : first.kind = .endOfFile := hback
        exact List.takeWhile_cons_of_neg (by simpa using hfirst)
  have hall : ∀ located ∈ front, (decide (located.kind ≠ .endOfFile)) = true := by
    intro located hmem
    exact decide_eq_true fun heq => hfront (heq ▸ List.mem_map_of_mem hmem)
  rw [beforeEnd, List.takeWhile_append_of_pos hall, hnone, List.append_nil]

theorem parse_result_eq_ok_iff {tokens : List Located} {outline : Outline} :
    (parse tokens).result = .ok outline ↔
      ∃ final, program.run (.start tokens) = .ok outline final := by
  unfold parse
  cases program.run (.start tokens) <;> simp

theorem parse_result_eq_error_iff {tokens : List Located} {error : SyntaxError} :
    (parse tokens).result = .error error ↔
      ∃ final, program.run (.start tokens) = .error error final := by
  unfold parse
  cases program.run (.start tokens) <;> simp

/-- A list of tokens is accepted exactly if the tokens before the first end of the file
are a sentence of the grammar. -/
theorem parse_accepts_iff_sentence (tokens : List Located) :
    (∃ outline, (parse tokens).result = .ok outline) ↔ Sentence (kinds (beforeEnd tokens)) := by
  have hreads := @reads_program ((beforeEnd tokens).length + 1)
  constructor
  · rintro ⟨outline, hparse⟩
    obtain ⟨final, hrun⟩ := parse_result_eq_ok_iff.mp hparse
    obtain ⟨front, hrest, hfront⟩ := hreads.sound _ _ _ _ rfl hrun
    have hend := ends_program _ _ _ hrun
    have hsplit : tokens = front ++ final.rest := hrest
    rw [hsplit, beforeEnd_append (Derives.endOfFile_notMem hfront) hend]
    exact hfront
  · intro hsentence
    have hsplit : tokens = beforeEnd tokens ++ fromEnd tokens :=
      List.takeWhile_append_dropWhile.symm
    obtain ⟨outline, final, hrun, -⟩ := hreads.complete (.start tokens) _ _ hsplit hsentence
      (headKind_fromEnd tokens) (Nat.lt_succ_self _)
    exact ⟨outline, parse_result_eq_ok_iff.mpr ⟨final, hrun⟩⟩

end Outline

end MiniPascal
