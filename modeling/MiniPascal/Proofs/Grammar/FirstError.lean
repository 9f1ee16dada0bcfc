import MiniPascal.Proofs.Grammar.Echoes
import MiniPascal.Proofs.Grammar.Viable

/-!
# The first impossible token

A parse fails at the first token that no program has in its place.  What comes before that
token begins a program, and goes on to one with each of the tokens that the error expects
instead; with the token itself it does not.
-/

namespace MiniPascal

open Token (Kind)
open scoped Computability

namespace Outline

open Reader Ebnf

variable {bound : Nat}

/-! ### Expressions -/

theorem viable_constant : Viable constant (oneOf constantKinds) bound := by
  apply Viable.within
  apply still_currentLine.viable_bind
  intro line
  apply still_current.viable_bind
  intro token
  have htake (value : Constant) :
      Viable (advance >>= fun _ => pure value) (oneOf constantKinds) bound :=
    (safe_advance.bind fun _ => safe_pure value).viable _
  cases token with
  | number value => exact htake _
  | text value => exact htake _
  | name word => exact htake _
  | _ => exact viable_unexpected (goesOn_oneOf fun _ hkind => hkind)

theorem viable_reference : Viable reference (oneOf [.name]) bound :=
  still_currentLine.viable_bind fun _ => viable_takeName.bind_pure _

theorem viable_identifier : Viable identifier (oneOf [.name]) bound :=
  still_currentLine.viable_bind fun _ => viable_takeName.bind_pure _

section

variable {factor : Reader Expr}

theorem viable_termOf (hsound : Sound factor (words Production.factor))
    (h : Viable factor (words Production.factor) bound) :
    Viable (termOf factor) (words Production.term) bound := by
  rw [words_term]
  apply Viable.within
  exact h.bind hsound fun _ => (h.operands hsound operators_multiplicative).bind_pure _

theorem sound_termOf (hsound : Sound factor (words Production.factor)) :
    Sound (termOf factor) (words Production.term) :=
  (reads_termOf ⟨hsound, Complete.zero _ _ _⟩).sound

theorem viable_simpleExprOf (hsound : Sound factor (words Production.factor))
    (h : Viable factor (words Production.factor) bound) :
    Viable (simpleExprOf factor) (words Production.simpleExpr) bound := by
  have hterm := viable_termOf hsound h
  have htermSound := sound_termOf hsound
  rw [words_simpleExpr]
  apply Viable.within
  apply still_currentLine.viable_bind
  intro line
  have hmore (first : Expr) :
      Viable (operands Token.additive? (termOf factor) >>= fun others => pure (first.join others))
        (oneOf additiveKinds * words Production.term)∗ bound :=
    (hterm.operands htermSound operators_additive).bind_pure _
  have hsigned (sign : Sign) := hterm.bind htermSound fun term => hmore (.signed sign term line)
  have hplain := hterm.bind htermSound hmore
  exact viable_operator_or hsigned hplain operators_sign (fun hsome => by rw [hsome]; rfl)
    (fun hnone => by rw [hnone])

theorem sound_simpleExprOf (hsound : Sound factor (words Production.factor)) :
    Sound (simpleExprOf factor) (words Production.simpleExpr) :=
  (reads_simpleExprOf ⟨hsound, Complete.zero _ _ _⟩).sound

theorem viable_expressionOf (hsound : Sound factor (words Production.factor))
    (h : Viable factor (words Production.factor) bound) :
    Viable (expressionOf factor) (words Production.expression) bound := by
  have hsimple := viable_simpleExprOf hsound h
  rw [words_expression]
  apply Viable.within
  apply hsimple.bind (sound_simpleExprOf hsound)
  intro left
  exact viable_operator_or (fun relation => hsimple.bind_pure (.comparison relation left))
    ((safe_pure left).viable 1) operators_relation (fun hsome => by rw [hsome])
    (fun hnone => by rw [hnone])

theorem sound_expressionOf (hsound : Sound factor (words Production.factor)) :
    Sound (expressionOf factor) (words Production.expression) :=
  (reads_expressionOf ⟨hsound, Complete.zero _ _ _⟩).sound

end

section

variable {expression : Reader Expr} (hsound : Sound expression (words Production.expression))
variable (h : Viable expression (words Production.expression) bound)

include hsound h

theorem viable_arguments : Viable (arguments expression) Ebnf.arguments bound := by
  have hargs : Sound (separated .comma expression) (words Production.expression *
      (oneOf [.symbol .comma] * words Production.expression)∗) :=
    ((⟨hsound, Complete.zero _ _ _⟩ : Reads expression _ Anything 0).separated trivial).sound
  apply (viable_mark .leftParen).bind (@reads_mark 0 _).sound
  intro _
  apply (h.separated hsound).bind hargs
  exact fun args => (viable_mark .rightParen).bind_pure _

theorem viable_functionCall :
    Viable (functionCall expression) (words Production.functionCall) bound := by
  rw [words_functionCall]
  apply Viable.within
  apply viable_reference.bind (@reads_reference 0).sound
  exact fun ref => (viable_arguments hsound h).bind_pure _

theorem viable_variableRef :
    Viable (variableRef expression) (words Production.variableRef) bound := by
  rw [words_variableRef]
  apply Viable.within
  apply viable_reference.bind (@reads_reference 0).sound
  intro ref
  apply Viable.sees_bind _ (safe_pure _)
  apply (viable_mark .leftBracket).bind (@reads_mark 0 _).sound
  intro _
  apply h.bind hsound
  exact fun index => (viable_mark .rightBracket).bind_pure _

end

theorem goesOn_factor : GoesOn [] .factor (words Production.factor) := by
  have hcall (kind : Kind) (hkind : kind ∈ [Kind.name]) :
      ∃ back, kind :: back ∈ oneOf [.name] * Ebnf.arguments := exists_cons_mem_mul hkind
  have hgroup (kind : Kind) (hkind : kind ∈ [Kind.symbol .leftParen]) :
      ∃ back, kind :: back ∈ oneOf [.symbol .leftParen] *
        (words Production.expression * oneOf [.symbol .rightParen]) := exists_cons_mem_mul hkind
  have hnegation (kind : Kind) (hkind : kind ∈ [Kind.keyword .not]) :
      ∃ back, kind :: back ∈ oneOf [.keyword .not] * words Production.factor :=
    exists_cons_mem_mul hkind
  rw [words_factor, words_functionCall]
  intro kind hkind
  simp only [Expectation.kinds, factorKinds, List.mem_append, or_assoc, or_self_left] at hkind
  rcases hkind with hliteral | hname | hparen | hnot
  · exact ⟨[], .inl (.inl (.inl (.inl ⟨kind, hliteral, rfl⟩)))⟩
  · obtain ⟨back, hword⟩ := hcall kind hname
    exact ⟨back, .inl (.inl (.inr hword))⟩
  · obtain ⟨back, hword⟩ := hgroup kind hparen
    exact ⟨back, .inl (.inr hword)⟩
  · obtain ⟨back, hword⟩ := hnegation kind hnot
    exact ⟨back, .inr hword⟩

theorem viable_factorWithin (depth : Nat) :
    Viable (factorWithin depth) (words Production.factor) bound := by
  induction depth with
  | zero => exact viable_unexpected goesOn_factor
  | succ depth ih =>
      have hsound := (reads_factorWithin depth).sound
      have hexpression := viable_expressionOf hsound ih
      have hexpressionSound := sound_expressionOf hsound
      apply Viable.within
      apply still_currentLine.viable_bind
      intro line
      apply still_current.viable_bind
      intro token
      have hliteral : Viable constant (words Production.factor) bound := by
        apply viable_constant.mono
        rw [words_production, Production.rule, ← words_constant]
        exact fun _ hword => .left (.left (.left (.left hword)))
      rw [words_factor] at hliteral ⊢
      split
      · exact hliteral.bind_safe fun value => (still_ofConstant value).safe
      · exact hliteral.bind_safe fun value => (still_ofConstant value).safe
      · apply still_nextKind.viable_bind
        intro next
        split
        · exact (viable_functionCall hexpressionSound hexpression).mono
            fun _ hword => .inl (.inl (.inr hword))
        · apply Viable.mono _ fun _ hword => .inl (.inl (.inl (.inr hword)))
          exact (viable_variableRef hexpressionSound hexpression).bind_safe
            fun found => (still_ofVariable found).safe
      · apply Viable.mono _ fun _ hword => .inl (.inr hword)
        apply (viable_mark .leftParen).bind (@reads_mark 0 _).sound
        intro _
        apply hexpression.bind hexpressionSound
        exact fun inner => (viable_mark .rightParen).bind_pure _
      · apply Viable.mono _ fun _ hword => .inr hword
        apply (viable_word .not).bind (sound_word .not)
        exact fun _ => ih.bind_pure _
      · apply viable_unexpected
        rw [← words_factor]
        exact goesOn_factor

theorem viable_expression : Viable expression (words Production.expression) bound :=
  viable_of_depth fun depth =>
    viable_expressionOf (reads_factorWithin depth).sound (viable_factorWithin depth)

/-! ### Types -/

theorem viable_typeName : Viable typeName (oneOf [.name]) bound :=
  viable_reference.within .typeName

theorem viable_enumType : Viable enumType (words Production.enumType) bound := by
  have hliterals := (@Reads.separated _ _ _ 0 .comma _ reads_identifier trivial).sound
  rw [words_enumType]
  apply Viable.within
  apply still_currentLine.viable_bind
  intro line
  apply (viable_mark .leftParen).bind (@reads_mark 0 _).sound
  intro _
  apply (viable_identifier.separated (@reads_identifier 0).sound).bind hliterals
  exact fun literals => (viable_mark .rightParen).bind_pure _

theorem viable_rangeType : Viable rangeType (words Production.rangeType) bound := by
  rw [words_rangeType]
  apply Viable.within
  apply still_currentLine.viable_bind
  intro line
  apply viable_constant.bind (@reads_constant 0).sound
  intro low
  apply (viable_mark .range).bind (@reads_mark 0 _).sound
  exact fun _ => viable_constant.bind_pure _

theorem goesOn_type : GoesOn [] .type (words Production.type) := by
  have harray : ∃ back, .keyword .array :: back ∈ words Production.arrayType := by
    rw [words_arrayType]
    exact exists_cons_mem_mul List.mem_cons_self
  have henum : ∃ back, .symbol .leftParen :: back ∈ words Production.enumType := by
    rw [words_enumType]
    exact exists_cons_mem_mul List.mem_cons_self
  have hrange (kind : Kind) (hkind : kind ∈ constantKinds) :
      ∃ back, kind :: back ∈ words Production.rangeType := by
    rw [words_rangeType]
    exact exists_cons_mem_mul hkind
  rw [words_type]
  intro kind hkind
  simp only [Expectation.kinds, List.mem_cons, List.not_mem_nil, or_false] at hkind
  rcases hkind with rfl | rfl | rfl | rfl | rfl
  · exact ⟨[], .inl (.inl (.inl ⟨_, List.mem_cons_self, rfl⟩))⟩
  · obtain ⟨back, hword⟩ := harray
    exact ⟨back, .inl (.inl (.inr hword))⟩
  · obtain ⟨back, hword⟩ := henum
    exact ⟨back, .inl (.inr hword)⟩
  · obtain ⟨back, hword⟩ := hrange .number (by decide)
    exact ⟨back, .inr hword⟩
  · obtain ⟨back, hword⟩ := hrange .text (by decide)
    exact ⟨back, .inr hword⟩

theorem viable_typeWithin (depth : Nat) :
    Viable (typeWithin depth) (words Production.type) bound := by
  induction depth with
  | zero => exact viable_unexpected goesOn_type
  | succ depth ih =>
      have hsound := (reads_typeWithin depth).sound
      apply Viable.within
      apply still_current.viable_bind
      intro token
      have hrange : Viable rangeType (words Production.type) bound := by
        rw [words_type]
        exact viable_rangeType.mono fun _ => .inr
      split
      · rw [words_type, words_arrayType]
        apply Viable.mono _ fun _ hword => .inl (.inl (.inr hword))
        apply Viable.within
        apply still_currentLine.viable_bind
        intro line
        apply (viable_word .array).bind (sound_word .array)
        intro _
        apply (viable_mark .leftBracket).bind (@reads_mark 0 _).sound
        intro _
        apply ih.bind hsound
        intro index
        apply (viable_mark .rightBracket).bind (@reads_mark 0 _).sound
        intro _
        apply (viable_word .of).bind (sound_word .of)
        exact fun _ => ih.bind_pure _
      · rw [words_type]
        exact viable_enumType.mono fun _ hword => .inl (.inr hword)
      · apply still_nextKind.viable_bind
        intro next
        split
        · exact hrange
        · rw [words_type]
          apply Viable.mono _ fun _ hword => .inl (.inl (.inl hword))
          exact viable_typeName.bind_pure _
      · exact hrange
      · exact hrange
      · exact viable_unexpected goesOn_type

theorem viable_type : Viable type (words Production.type) bound :=
  viable_of_depth fun depth => viable_typeWithin depth

/-! ### Declarations -/

theorem viable_constDecl : Viable constDecl (words Production.constDecl) bound := by
  rw [words_constDecl]
  apply Viable.within
  apply viable_identifier.bind (@reads_identifier 0).sound
  intro ident
  apply (viable_mark .equal).bind (@reads_mark 0 _).sound
  intro _
  apply viable_constant.bind (@reads_constant 0).sound
  exact fun value => (viable_mark .semicolon).bind_pure _

/-- A name, a symbol, a type and a semicolon. -/
theorem viable_typed (symbol : Symbol) (production : Production) :
    Viable (within production do
        let ident ← identifier
        mark symbol
        let type ← type
        mark .semicolon
        return (ident, type))
      (oneOf [.name] * (oneOf [.symbol symbol] * (words Production.type *
        oneOf [.symbol .semicolon]))) bound := by
  apply Viable.within
  apply viable_identifier.bind (@reads_identifier 0).sound
  intro ident
  apply (viable_mark symbol).bind (@reads_mark 0 _).sound
  intro _
  apply viable_type.bind (@reads_type 0).sound
  exact fun type => (viable_mark .semicolon).bind_pure _

theorem viable_typeDecl : Viable typeDecl (words Production.typeDecl) bound := by
  rw [words_typeDecl]
  exact viable_typed .equal .typeDecl

theorem viable_varDecl : Viable varDecl (words Production.varDecl) bound := by
  rw [words_varDecl]
  exact viable_typed .colon .varDecl

theorem viable_paramDecl : Viable paramDecl (words Production.paramDecl) bound := by
  rw [words_paramDecl]
  apply Viable.within
  apply viable_identifier.bind (@reads_identifier 0).sound
  intro ident
  apply (viable_mark .colon).bind (@reads_mark 0 _).sound
  exact fun _ => viable_typeName.bind_pure _

theorem viable_paramList : Viable paramList (words Production.paramList) bound := by
  have hparams := (@Reads.separated _ _ _ 0 .semicolon _ reads_paramDecl trivial).sound
  rw [words_paramList]
  apply Viable.within
  apply (viable_mark .leftParen).bind (@reads_mark 0 _).sound
  intro _
  apply (viable_paramDecl.separated (@reads_paramDecl 0).sound).bind hparams
  exact fun params => (viable_mark .rightParen).bind_pure _

theorem viable_optionalParams :
    Viable optionalParams (words Production.paramList + 1) bound :=
  viable_paramList.sees_bind (safe_pure [])

/-! ### Statements -/

theorem viable_assignment : Viable assignment (words Production.assignment) bound := by
  have hsound := (reads_variableRef (@reads_expression 0)).sound
  rw [words_assignment]
  apply Viable.within
  apply (viable_variableRef (@reads_expression 0).sound viable_expression).bind hsound
  rintro ⟨target, index⟩
  apply (viable_mark .assign).bind (@reads_mark 0 _).sound
  exact fun _ => viable_expression.bind_pure _

theorem viable_procedureCall :
    Viable procedureCall (words Production.procedureCall) bound := by
  rw [words_procedureCall]
  apply Viable.within
  apply viable_reference.bind (@reads_reference 0).sound
  intro ref
  apply Viable.sees_bind _ (safe_pure _)
  exact (viable_arguments (@reads_expression 0).sound viable_expression).bind_pure _

section

variable {statement : Reader Statement}

theorem viable_whileOf (h : Viable statement (words Production.statement) bound) :
    Viable (whileOf statement) (words Production.whileDo) (bound + 1) := by
  rw [words_whileDo]
  apply Viable.within
  apply still_currentLine.viable_bind
  intro line
  apply (viable_word .while_).token_bind (sound_word .while_)
  intro _
  apply viable_expression.bind (@reads_expression 0).sound
  intro condition
  apply (viable_word .do_).bind (sound_word .do_)
  exact fun _ => h.bind_pure _

theorem sound_statementListOf (hsound : Sound statement (words Production.statement)) :
    Sound (statementListOf statement) (words Production.statementList) :=
  (reads_statementListOf ⟨hsound, Complete.zero _ _ _⟩).sound

variable (hsound : Sound statement (words Production.statement))
variable (h : Viable statement (words Production.statement) bound)

include hsound h

theorem viable_statementListOf :
    Viable (statementListOf statement) (words Production.statementList) bound := by
  rw [words_statementList]
  exact (h.separated hsound).within .statementList

theorem viable_compoundOf :
    Viable (compoundOf statement) (words Production.compound) (bound + 1) := by
  rw [words_compound]
  apply Viable.within
  apply still_currentLine.viable_bind
  intro line
  apply (viable_word .begin_).token_bind (sound_word .begin_)
  intro _
  apply (viable_statementListOf hsound h).bind (sound_statementListOf hsound)
  exact fun body => (viable_word .end_).bind_pure _

theorem viable_ifOf : Viable (ifOf statement) (words Production.ifThenElse) (bound + 1) := by
  rw [words_ifThenElse]
  apply Viable.within
  apply still_currentLine.viable_bind
  intro line
  apply (viable_word .if_).token_bind (sound_word .if_)
  intro _
  apply viable_expression.bind (@reads_expression 0).sound
  intro condition
  apply (viable_word .then_).bind (sound_word .then_)
  intro _
  apply h.bind hsound
  intro consequence
  apply Viable.sees_bind _ (safe_pure _)
  apply (viable_word .else_).bind (sound_word .else_)
  exact fun _ => h.bind_pure _

end

/-- No statement is read without a token left for its end, so the innermost reader does
not come to fail. -/
theorem viable_statementWithin (depth : Nat) :
    Viable (statementWithin depth) (words Production.statement) depth := by
  induction depth with
  | zero => exact fun _ _ _ _ _ hlength => absurd hlength (Nat.not_lt_zero _)
  | succ depth ih =>
      have hsound := (readsStatements_within depth).sound
      rw [words_statement]
      apply Viable.within
      apply still_current.viable_bind
      intro token
      split
      · apply still_nextKind.viable_bind
        intro next
        split
        · exact viable_assignment.mono fun _ hword => .inl (.inl (.inl (.inl (.inl hword))))
        · exact viable_procedureCall.mono fun _ hword => .inl (.inr hword)
      · exact (viable_compoundOf hsound ih).mono
          fun _ hword => .inl (.inl (.inl (.inl (.inr hword))))
      · exact (viable_ifOf hsound ih).mono fun _ hword => .inl (.inl (.inl (.inr hword)))
      · exact (viable_whileOf ih).mono fun _ hword => .inl (.inl (.inr hword))
      · exact still_currentLine.viable_bind fun _ => (safe_pure _).viable _

theorem viable_statementList :
    Viable statementList (words Production.statementList) bound :=
  viable_of_depth fun depth =>
    viable_statementListOf (readsStatements_within depth).sound (viable_statementWithin depth)

/-! ### Blocks -/

theorem viable_sectionOf {α : Type} {decl : Reader α} {words : Language Kind}
    (h : Viable decl words bound) (hsound : Sound decl words) [HasWord words]
    (production : Production) (keyword : Keyword) :
    Viable (sectionOf production keyword decl) (oneOf [.keyword keyword] * (words * words∗))
      bound := by
  apply Viable.within
  apply (viable_word keyword).bind (sound_word keyword)
  exact fun _ => h.many1 hsound

section

variable {block : Reader Block} (hsound : Sound block (words Production.block))
variable (h : Viable block (words Production.block) bound)

include hsound h

theorem viable_procedureOf :
    Viable (procedureOf block) (words Production.procedureDecl) bound := by
  rw [words_procedureDecl]
  apply Viable.within
  apply still_currentLine.viable_bind
  intro line
  apply (viable_word .procedure).bind (sound_word .procedure)
  intro _
  apply viable_takeName.bind (@reads_takeName 0).sound
  intro name
  apply viable_optionalParams.bind (@reads_optionalParams 0).sound
  intro params
  apply (viable_mark .semicolon).bind (@reads_mark 0 _).sound
  intro _
  apply h.bind hsound
  exact fun body => (viable_mark .semicolon).bind_pure _

theorem viable_functionOf :
    Viable (functionOf block) (words Production.functionDecl) bound := by
  rw [words_functionDecl]
  apply Viable.within
  apply still_currentLine.viable_bind
  intro line
  apply (viable_word .function).bind (sound_word .function)
  intro _
  apply viable_takeName.bind (@reads_takeName 0).sound
  intro name
  apply viable_optionalParams.bind (@reads_optionalParams 0).sound
  intro params
  apply (viable_mark .colon).bind (@reads_mark 0 _).sound
  intro _
  apply viable_typeName.bind (@reads_typeName 0).sound
  intro result
  apply (viable_mark .semicolon).bind (@reads_mark 0 _).sound
  intro _
  apply h.bind hsound
  exact fun body => (viable_mark .semicolon).bind_pure _

theorem viable_partOf : Viable (partOf block) declarationParts bound := by
  rw [declarationParts, words_constPart, words_typePart, words_varPart]
  apply still_current.viable_bind
  intro token
  split
  · apply Viable.mono _ fun _ hword => .inl (.inl (.inl (.inl hword)))
    exact (viable_sectionOf viable_constDecl (@reads_constDecl 0).sound .constPart
      .const).bind_pure _
  · apply Viable.mono _ fun _ hword => .inl (.inl (.inl (.inr hword)))
    exact (viable_sectionOf viable_typeDecl (@reads_typeDecl 0).sound .typePart .type).bind_pure _
  · apply Viable.mono _ fun _ hword => .inl (.inl (.inr hword))
    exact (viable_sectionOf viable_varDecl (@reads_varDecl 0).sound .varPart .var).bind_pure _
  · exact (viable_functionOf hsound h).mono fun _ hword => .inl (.inr hword)
  · exact (viable_procedureOf hsound h).mono fun _ hword => .inr hword

end

theorem goesOn_block : GoesOn [] (.token (.keyword .begin_)) (words Production.block) := by
  rw [words_block]
  intro kind hkind
  obtain ⟨back, hword⟩ : ∃ back, kind :: back ∈ oneOf [.keyword .begin_] *
      (words Production.statementList * oneOf [.keyword .end_]) := exists_cons_mem_mul hkind
  exact ⟨back, Language.append_mem_mul (Language.nil_mem_kstar declarationParts) hword⟩

theorem viable_blockWithin (depth : Nat) :
    Viable (blockWithin depth) (words Production.block) bound := by
  induction depth with
  | zero => exact viable_unexpected goesOn_block
  | succ depth ih =>
      have hpart := viable_partOf (reads_blockWithin depth).sound ih
      have hparts := reads_partOf (reads_blockWithin depth)
      rw [words_block]
      apply Viable.within
      apply still_currentLine.viable_bind
      intro line
      apply (viable_many (fun token _ => hpart token.kind) hparts.sound).bind
        (hparts.many tests_beginsPart starts_declarationParts (by decide)).sound
      intro parts
      apply (viable_word .begin_).bind (sound_word .begin_)
      intro _
      apply viable_statementList.bind (@reads_statementList 0).sound
      exact fun statements => (viable_word .end_).bind_pure _

theorem viable_block : Viable block (words Production.block) bound :=
  viable_of_depth fun depth => viable_blockWithin depth

/-! ### Programs -/

theorem viable_program :
    Viable program (words Production.program * oneOf [.endOfFile]) bound := by
  rw [words_program]
  simp only [mul_assoc]
  apply Viable.within
  apply still_currentLine.viable_bind
  intro line
  apply (viable_word .program).bind (sound_word .program)
  intro _
  apply viable_takeName.bind (@reads_takeName 0).sound
  intro name
  apply (still_entitle name).viable_bind
  intro _
  apply (viable_mark .semicolon).bind (@reads_mark 0 _).sound
  intro _
  apply viable_block.bind (@reads_block 0).sound
  intro body
  apply (viable_mark .dot).bind (@reads_mark 0 _).sound
  intro _
  apply still_current.viable_bind
  intro token
  split
  · exact (safe_pure _).viable _
  · exact viable_unexpected (goesOn_oneOf fun _ hkind => hkind)

/-! ### Places -/

/-- The token at a place.  Past the last one stands the end of the file, on the line of the
last one; the first line is that of no tokens. -/
def tokenAt (tokens : List Located) (place : Nat) : Located :=
  tokens[place]?.getD ⟨.endOfFile, (tokens.getLast?.map Located.line).getD 1⟩

theorem tokenAt_append_cons (front : List Located) (located : Located) (back : List Located) :
    tokenAt (front ++ located :: back) front.length = located := by
  unfold tokenAt
  rw [List.getElem?_append_right (Nat.le_refl _), Nat.sub_self]
  rfl

theorem ahead_start (tokens : List Located) (place : Nat) :
    (Cursor.start tokens).ahead place = (tokenAt tokens place).token := by
  change (tokens[place]?.map Located.token).getD .endOfFile = _
  unfold tokenAt
  cases tokens[place]? <;> rfl

theorem Cursor.line_advance (cursor : Cursor) :
    cursor.advance.line = (cursor.rest[1]?.map Located.line).getD cursor.line := by
  unfold advance
  match cursor.rest with
  | [] => rfl
  | [_] => rfl
  | _ :: _ :: _ => rfl

theorem line_iterate_start {tokens : List Located} {count : Nat} (hcount : count ≤ tokens.length) :
    (Cursor.advance^[count] (.start tokens)).line = (tokenAt tokens count).line := by
  induction count with
  | zero => cases tokens <;> rfl
  | succ count ih =>
      rw [Function.iterate_succ_apply', Cursor.line_advance, ih (Nat.le_of_succ_le hcount),
        Cursor.rest_iterate, List.getElem?_drop]
      change (tokens[count + 1]?.map Located.line).getD _ = _
      unfold tokenAt
      cases hnext : tokens[count + 1]? with
      | some located => rfl
      | none =>
          have hlength : tokens.length = count + 1 :=
            Nat.le_antisymm (List.getElem?_eq_none_iff.mp hnext) hcount
          have hlast : tokens.getLast? = some tokens[count] := by
            rw [List.getLast?_eq_getElem?, hlength, Nat.add_sub_cancel, List.getElem?_eq_getElem]
          rw [hlast, List.getElem?_eq_getElem hcount]
          rfl

/-- An error after a number of tokens tells of the token there. -/
theorem Reader.Stops.error_eq {α : Type} {tokens : List Located} {title? : Option String}
    {count : Nat} {error : SyntaxError} {final : Cursor}
    (h : Stops count { Cursor.start tokens with title? }
      (.error error final : EStateM.Result SyntaxError Cursor α)) :
    error.found = (tokenAt tokens count).token ∧ error.line = (tokenAt tokens count).line := by
  have hcount : count ≤ tokens.length := h.count_le
  cases h with
  | error reaches found line =>
      have hline := reaches.same.line
      rw [Cursor.iterate_advance_title] at hline
      constructor
      · rw [found, Cursor.current_eq_ahead, reaches.ahead_eq]
        exact ahead_start tokens count
      · rw [line, hline]
        exact line_iterate_start hcount

/-- An error comes after as many tokens as were taken. -/
theorem Reader.Stops.count_eq {α : Type} {cursor final : Cursor} {count : Nat}
    {error : SyntaxError} {front : List Located}
    (h : Stops count cursor (.error error final : EStateM.Result SyntaxError Cursor α))
    (hrest : cursor.rest = front ++ final.rest) : count = front.length := by
  cases h with
  | error reaches _ _ =>
      have hlength := reaches.length_eq
      rw [hrest, List.length_append] at hlength
      omega

/-- Tokens that are the same up to and including a place agree up to that place. -/
theorem agrees_of_take_eq {tokens tokens' : List Located} {place : Nat}
    (hplace : place ≤ tokens.length) (htake : tokens'.take place = tokens.take place)
    (htoken : tokenAt tokens' place = tokenAt tokens place) :
    Cursor.Agrees place (.start tokens) (.start tokens') where
  count_le := by
    have hlength := congrArg List.length htake
    rw [List.length_take, List.length_take, Nat.min_eq_left hplace] at hlength
    change place ≤ tokens'.length
    omega
  ahead_eq before hbefore := by
    rcases Nat.lt_or_eq_of_le hbefore with hlt | rfl
    · have hsame := congrArg (·[before]?) htake
      simp only [List.getElem?_take_of_lt hlt] at hsame
      unfold Cursor.ahead Cursor.start
      rw [hsame]
    · rw [ahead_start, ahead_start, htoken]

/-! ### Parses that fail -/

/-- A failing parse stops at a place.  What is before it goes on with what is expected,
and all tokens that are the same up to and including that place fail alike. -/
theorem exists_place_of_error {tokens : List Located} {error : SyntaxError}
    (h : (parse tokens).result = .error error) :
    ∃ place ≤ tokens.length, error.found = (tokenAt tokens place).token ∧
      error.line = (tokenAt tokens place).line ∧
      GoesOn (kinds (tokens.take place)) error.expected
        (words Production.program * oneOf [.endOfFile]) ∧
      ∀ tokens' : List Located, tokens'.take place = tokens.take place →
        tokenAt tokens' place = tokenAt tokens place → (parse tokens').result = .error error := by
  obtain ⟨final, hrun⟩ := parse_result_eq_error_iff.mp h
  obtain ⟨count, title?, hstops, -, hagree⟩ := exists_stops_program tokens
  rw [hrun] at hstops hagree
  have hcount : count ≤ tokens.length := hstops.count_le
  obtain ⟨hfound, hline⟩ := hstops.error_eq
  obtain ⟨front, hrest, hfront⟩ := viable_program _ (.start tokens) final error rfl
    (Nat.lt_succ_self _) hrun
  have htake : tokens.take count = front := by
    change tokens = front ++ final.rest at hrest
    rw [hstops.count_eq hrest, hrest, List.take_left]
  refine ⟨count, hcount, hfound, hline, htake ▸ hfront, fun tokens' hsame htoken => ?_⟩
  obtain ⟨hstops', halike⟩ := hagree tokens' (agrees_of_take_eq hcount hsame htoken)
  obtain ⟨error', final', hrun', expected⟩ := halike.exists_error
  rw [hrun'] at hstops'
  obtain ⟨hfound', hline'⟩ := hstops'.error_eq
  rw [htoken] at hfound' hline'
  have herror : error' = error := congr (congr (congrArg SyntaxError.mk expected.symm)
    (hfound'.trans hfound.symm)) (hline'.trans hline.symm)
  rw [parse_result_eq_error_iff, hrun', herror]
  exact ⟨final', rfl⟩

/-- The kinds begin a program with the end of the file after it. -/
def BeginsProgram (front : List Kind) : Prop :=
  ∃ sentence, Sentence sentence ∧ front <+: sentence ++ [.endOfFile]

theorem Reader.GoesOn.beginsProgram {front : List Kind} {expected : Expectation}
    (h : GoesOn front expected (words Production.program * oneOf [.endOfFile])) {kind : Kind}
    (hkind : kind ∈ expected.kinds) : BeginsProgram (front ++ [kind]) := by
  obtain ⟨back, hword⟩ := h kind hkind
  obtain ⟨sentence, hsentence, _, ⟨_, hend, rfl⟩, heq⟩ := Language.mem_mul.mp hword
  obtain rfl := List.mem_singleton.mp hend
  refine ⟨sentence, hsentence, back, ?_⟩
  rw [heq, List.append_assoc, List.singleton_append]

theorem BeginsProgram.of_append {front more : List Kind} (h : BeginsProgram (front ++ more)) :
    BeginsProgram front := by
  obtain ⟨sentence, hsentence, hprefix⟩ := h
  exact ⟨sentence, hsentence, (List.prefix_append front more).trans hprefix⟩

theorem Expectation.exists_mem_kinds (expected : Expectation) : ∃ kind, kind ∈ expected.kinds := by
  cases expected <;> exact ⟨_, List.mem_cons_self⟩

theorem surjective_kind : Function.Surjective Located.kind := by
  intro kind
  cases kind with
  | name => exact ⟨⟨.name "", 0⟩, rfl⟩
  | number => exact ⟨⟨.number 0, 0⟩, rfl⟩
  | text => exact ⟨⟨.text "", 0⟩, rfl⟩
  | keyword keyword => exact ⟨⟨.keyword keyword, 0⟩, rfl⟩
  | symbol symbol => exact ⟨⟨.symbol symbol, 0⟩, rfl⟩
  | endOfFile => exact ⟨⟨.endOfFile, 0⟩, rfl⟩

/-- Tokens that begin a program go on to tokens that parse. -/
theorem exists_parse_of_beginsProgram {front : List Located} (h : BeginsProgram (kinds front)) :
    ∃ back outline, (parse (front ++ back)).result = .ok outline := by
  obtain ⟨sentence, hsentence, more, hmore⟩ := h
  obtain ⟨back, rfl⟩ := List.map_surjective_iff.mpr surjective_kind more
  have hkinds : kinds (front ++ back) = sentence ++ [.endOfFile] := by
    rw [kinds, List.map_append]
    exact hmore
  obtain ⟨program, last, hsplit, rfl, hlast⟩ := List.map_eq_append_iff.mp hkinds
  obtain ⟨located, rfl, hend⟩ := List.map_eq_singleton_iff.mp hlast
  obtain ⟨outline, final, hrun, -⟩ := reads_program.complete (.start (front ++ back)) program
    [located] hsplit hsentence hend (Nat.lt_succ_self _)
  exact ⟨back, outline, parse_result_eq_ok_iff.mpr ⟨final, hrun⟩⟩

/-- **Syntax errors point at the first impossible token.**  A failing parse reports the
token at a place.  The tokens before it begin a program, those with it do not, and with
any token that is expected there they do.  So all tokens that are the same up to and
including that place fail with the same error. -/
theorem parse_first_error {tokens : List Located} {error : SyntaxError}
    (h : (parse tokens).result = .error error) :
    ∃ place ≤ tokens.length,
      error.diagnostic = .unexpectedToken error.expected.label
        (tokenAt tokens place).token.describe (tokenAt tokens place).line ∧
      BeginsProgram (kinds (tokens.take place)) ∧
      ¬BeginsProgram (kinds (tokens.take place) ++ [(tokenAt tokens place).kind]) ∧
      (∃ kind, kind ∈ error.expected.kinds) ∧
      (∀ kind ∈ error.expected.kinds, BeginsProgram (kinds (tokens.take place) ++ [kind])) ∧
      ∀ tokens' : List Located, tokens'.take place = tokens.take place →
        tokenAt tokens' place = tokenAt tokens place → (parse tokens').result = .error error := by
  obtain ⟨place, hplace, hfound, hline, hgoesOn, hsame⟩ := exists_place_of_error h
  obtain ⟨kind, hkind⟩ := error.expected.exists_mem_kinds
  refine ⟨place, hplace, ?_, (hgoesOn.beginsProgram hkind).of_append, ?_, ⟨kind, hkind⟩,
    fun kind hkind => hgoesOn.beginsProgram hkind, hsame⟩
  · unfold SyntaxError.diagnostic
    rw [hfound, hline]
  · intro hbegins
    have hkinds : kinds (tokens.take place ++ [tokenAt tokens place]) =
        kinds (tokens.take place) ++ [(tokenAt tokens place).kind] := List.map_append
    rw [← hkinds] at hbegins
    obtain ⟨back, outline, hparse⟩ := exists_parse_of_beginsProgram hbegins
    have hlength : (tokens.take place).length = place := List.length_take_of_le hplace
    have htoken := tokenAt_append_cons (tokens.take place) (tokenAt tokens place) back
    rw [hlength] at htoken
    rw [List.append_assoc, List.singleton_append] at hparse
    have hfails := hsame _ (List.take_left' hlength) htoken
    cases hparse.symm.trans hfails

/-- The tokens of a program without a semicolon after its name. -/
def withoutSemicolon : List Located :=
  [⟨.keyword .program, 1⟩, ⟨.name "p", 1⟩, ⟨.keyword .begin_, 2⟩, ⟨.keyword .end_, 3⟩,
    ⟨.symbol .dot, 3⟩, ⟨.endOfFile, 4⟩]

/-- Where a semicolon is missing, the token after it is reported. -/
theorem parse_first_error_semicolon :
    (parse withoutSemicolon).result =
      .error ⟨.token (.symbol .semicolon), .keyword .begin_, 2⟩ ∧
    ∃ place ≤ withoutSemicolon.length,
      SyntaxError.diagnostic ⟨.token (.symbol .semicolon), .keyword .begin_, 2⟩ =
        .unexpectedToken ";" (tokenAt withoutSemicolon place).token.describe
          (tokenAt withoutSemicolon place).line ∧
      BeginsProgram (kinds (withoutSemicolon.take place)) ∧
      ¬BeginsProgram (kinds (withoutSemicolon.take place) ++
        [(tokenAt withoutSemicolon place).kind]) ∧
      BeginsProgram (kinds (withoutSemicolon.take place) ++ [.symbol .semicolon]) := by
  have hparse : (parse withoutSemicolon).result =
      .error ⟨.token (.symbol .semicolon), .keyword .begin_, 2⟩ := rfl
  obtain ⟨place, hplace, hdiagnostic, hbegins, hnot, -, hexpected, -⟩ := parse_first_error hparse
  exact ⟨hparse, place, hplace, hdiagnostic, hbegins, hnot, hexpected _ List.mem_cons_self⟩

end Outline

end MiniPascal
