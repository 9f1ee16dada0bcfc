import MiniPascal.Proofs.Grammar.Following
import MiniPascal.Proofs.Grammar.FirstError

/-!
# Productions open at an error

The reader of each production follows the course of its rule.  So a parse that fails has
open just the productions on the path of a derivation from the program to the token that
is reported, and all others that it entered it has left.
-/

namespace MiniPascal

open Token (Kind)

namespace Ebnf

theorem words_multiplicative :
    (mark .star ||| word .div ||| word .mod ||| word .and).words = oneOf multiplicativeKinds := by
  simp only [words_or, words_mark, words_word, oneOf_add]
  rfl

theorem words_additive : (mark .plus ||| mark .minus ||| word .or).words = oneOf additiveKinds := by
  simp only [words_or, words_mark, words_word, oneOf_add]
  rfl

theorem words_sign : (mark .plus ||| mark .minus).words = oneOf signKinds := by
  simp only [words_or, words_mark, oneOf_add]
  rfl

theorem words_relation : (mark .equal ||| mark .notEqual ||| mark .less ||| mark .lessEqual |||
    mark .greater ||| mark .greaterEqual).words = oneOf relationKinds := by
  simp only [words_or, words_mark, oneOf_add]
  rfl

def argumentList : Ebnf :=
  mark .leftParen ++ separated (mark .comma) Production.expression ++ mark .rightParen

def part : Ebnf :=
  Production.constPart ||| Production.typePart ||| Production.varPart |||
    Production.functionDecl ||| Production.procedureDecl

end Ebnf

namespace Outline

open Reader Ebnf

variable {bound : Nat}

/-! ### Expressions -/

theorem follows_constant : Follows constant (course Production.constant) bound := by
  apply follows_within
  apply idle_currentLine.bind
  intro line
  apply Follows.current_bind
  intro token
  have htake {kind : Kind} (hkind : Production.constant.rule.Derives [kind]) (value : Constant) :
      FollowsAt kind (advance >>= fun _ => pure value) (.inside .constant) bound :=
    ((followsAt_advance hkind).bind_idle fun _ => idle_pure value).mono (course_rule_le_inside _)
  cases token with
  | number value => exact htake (.left (.left .number)) _
  | text value => exact htake (.left (.right .text)) _
  | name word => exact htake (.right .name) _
  | _ => exact followsAt_unexpected (Halts.whole rfl)

theorem follows_reference : Follows reference Ebnf.name.course bound :=
  idle_currentLine.bind fun _ => follows_takeName.bind_pure _

theorem follows_identifier : Follows identifier Ebnf.name.course bound :=
  idle_currentLine.bind fun _ => follows_takeName.bind_pure _

section

variable {factor : Reader Expr} (h : Follows factor (course Production.factor) bound)

include h

theorem follows_termOf : Follows (termOf factor) (course Production.term) bound := by
  apply Follows.within
  simp only [Production.rule, course_append]
  exact h.bind fun _ => (h.operands operators_multiplicative words_multiplicative).bind_pure _

theorem follows_simpleExprOf :
    Follows (simpleExprOf factor) (course Production.simpleExpr) bound := by
  have hterm := follows_termOf h
  apply Follows.within
  simp only [Production.rule, course_append, mul_assoc]
  apply idle_currentLine.bind
  intro line
  have hmore (first : Expr) :
      Follows (operands Token.additive? (termOf factor) >>= fun others => pure (first.join others))
        (Ebnf.many ((Ebnf.mark .plus ||| Ebnf.mark .minus ||| Ebnf.word .or) ++
          Production.term)).course bound :=
    (hterm.operands operators_additive words_additive).bind_pure _
  apply Follows.current_bind
  intro token
  cases hsign : token.sign? with
  | some sign =>
      have htake : FollowsAt token.kind advance
          (optional (Ebnf.mark .plus ||| Ebnf.mark .minus)).course bound :=
        (operators_sign.followsAt_advance words_sign hsign).mono course_le_or_left
      exact htake.bind fun _ => hterm.bind fun term => hmore (.signed sign term line)
  | none => exact (hterm.bind hmore).mono (le_course_mul (.right .empty) _) _

theorem follows_expressionOf :
    Follows (expressionOf factor) (course Production.expression) bound := by
  have hsimple := follows_simpleExprOf h
  apply Follows.within
  simp only [Production.rule, course_append]
  apply hsimple.bind
  intro left
  apply Follows.current_bind
  intro token
  cases hrelation : token.relation? with
  | some relation =>
      apply FollowsAt.mono _ course_le_or_left
      rw [course_append]
      exact (operators_relation.followsAt_advance words_relation hrelation).bind
        fun _ => hsimple.bind_pure _
  | none => exact (idle_pure left).followsAt (Derives.right .empty)

end

section

variable {expression : Reader Expr} (h : Follows expression (course Production.expression) bound)

include h

theorem follows_arguments : Follows (arguments expression) argumentList.course bound := by
  simp only [argumentList, course_append, mul_assoc]
  apply (follows_mark .leftParen).bind
  intro _
  apply h.separated.bind
  exact fun args => (follows_mark .rightParen).bind_pure _

theorem follows_functionCall :
    Follows (functionCall expression) (course Production.functionCall) (bound + 1) := by
  have hrule : Production.functionCall.rule.course = Ebnf.name.course * argumentList.course := by
    simp only [Production.rule, argumentList, course_append, mul_assoc]
  apply Follows.within
  rw [hrule]
  apply follows_reference.token_bind not_derives_name_nil
  exact fun ref => (follows_arguments h).bind_pure _

theorem follows_variableRef :
    Follows (variableRef expression) (course Production.variableRef) (bound + 1) := by
  apply Follows.within
  simp only [Production.rule, course_append]
  apply follows_reference.token_bind not_derives_name_nil
  intro ref
  apply Follows.sees_bind _ (idle_pure _)
  simp only [course_append, mul_assoc]
  apply (follows_mark .leftBracket).bind
  intro _
  apply h.bind
  exact fun index => (follows_mark .rightBracket).bind_pure _

end

theorem idle_ofConstant (constant : Constant) : Idle (match constant with
    | .literal value line => pure (Expr.literal value line)
    | .named ref => pure (Expr.name ref) : Reader Expr) := by
  cases constant <;> exact idle_pure _

theorem idle_ofVariable (found : NameRef × Option Expr) : Idle (match found with
    | (ref, some index) => pure (Expr.element ref index)
    | (ref, none) => pure (Expr.name ref) : Reader Expr) := by
  obtain ⟨ref, _ | index⟩ := found <;> exact idle_pure _

theorem follows_factorWithin (depth : Nat) :
    Follows (factorWithin depth) (course Production.factor) depth := by
  induction depth with
  | zero => exact follows_zero _ _
  | succ depth ih =>
      have hexpression := follows_expressionOf ih
      have hrule {reader : Reader Expr}
          (h : Follows reader Production.factor.rule.course (depth + 1)) :
          Follows reader (.inside .factor) (depth + 1) := h.mono (course_rule_le_inside _)
      apply follows_within
      apply idle_currentLine.bind
      intro line
      apply idle_current.bind
      intro token
      split
      · exact hrule (follows_constant.bind_idle idle_ofConstant).left.left.left.left
      · exact hrule (follows_constant.bind_idle idle_ofConstant).left.left.left.left
      · apply idle_nextKind.bind
        intro next
        split
        · exact hrule (follows_functionCall hexpression).right.left.left
        · exact hrule
            ((follows_variableRef hexpression).bind_idle idle_ofVariable).right.left.left.left
      · apply hrule
        apply Follows.left
        apply Follows.right
        simp only [course_append, mul_assoc]
        apply (follows_mark .leftParen).token_bind (not_derives_mark_nil .leftParen)
        intro _
        apply hexpression.bind
        exact fun inner => (follows_mark .rightParen).bind_pure _
      · apply hrule
        apply Follows.right
        rw [course_append]
        apply (follows_word .not).token_bind (not_derives_word_nil .not)
        exact fun _ => ih.bind_pure _
      · exact fun _ => followsAt_unexpected (Halts.whole rfl)

theorem follows_expression : Follows expression (course Production.expression) bound :=
  follows_of_depth fun depth => follows_expressionOf (follows_factorWithin depth)

/-! ### Types -/

theorem follows_typeName : Follows typeName (course Production.typeName) bound := by
  apply Follows.within
  exact follows_reference

theorem follows_enumType : Follows enumType (course Production.enumType) bound := by
  apply Follows.within
  simp only [Production.rule, course_append, mul_assoc]
  apply idle_currentLine.bind
  intro line
  apply (follows_mark .leftParen).bind
  intro _
  apply follows_identifier.separated.bind
  exact fun literals => (follows_mark .rightParen).bind_pure _

theorem follows_rangeType : Follows rangeType (course Production.rangeType) bound := by
  apply Follows.within
  simp only [Production.rule, course_append, mul_assoc]
  apply idle_currentLine.bind
  intro line
  apply follows_constant.bind
  intro low
  apply (follows_mark .range).bind
  exact fun _ => follows_constant.bind_pure _

theorem follows_typeWithin (depth : Nat) :
    Follows (typeWithin depth) (course Production.type) depth := by
  induction depth with
  | zero => exact follows_zero _ _
  | succ depth ih =>
      have hrule {reader : Reader (TypeExpr Ident)}
          (h : Follows reader Production.type.rule.course (depth + 1)) :
          Follows reader (.inside .type) (depth + 1) := h.mono (course_rule_le_inside _)
      apply follows_within
      apply idle_current.bind
      intro token
      split
      · apply hrule
        apply Follows.left
        apply Follows.left
        apply Follows.right
        apply Follows.within
        simp only [Production.rule, course_append, mul_assoc]
        apply idle_currentLine.bind
        intro line
        apply (follows_word .array).token_bind (not_derives_word_nil .array)
        intro _
        apply (follows_mark .leftBracket).bind
        intro _
        apply ih.bind
        intro index
        apply (follows_mark .rightBracket).bind
        intro _
        apply (follows_word .of).bind
        exact fun _ => ih.bind_pure _
      · exact hrule follows_enumType.right.left
      · apply idle_nextKind.bind
        intro next
        split
        · exact hrule follows_rangeType.right
        · exact hrule (follows_typeName.bind_pure _).left.left.left
      · exact hrule follows_rangeType.right
      · exact hrule follows_rangeType.right
      · exact fun _ => followsAt_unexpected (Halts.whole rfl)

theorem follows_type : Follows type (course Production.type) bound :=
  follows_of_depth follows_typeWithin

/-! ### Declarations -/

theorem follows_constDecl : Follows constDecl (course Production.constDecl) bound := by
  apply Follows.within
  simp only [Production.rule, course_append, mul_assoc]
  apply follows_identifier.bind
  intro ident
  apply (follows_mark .equal).bind
  intro _
  apply follows_constant.bind
  exact fun value => (follows_mark .semicolon).bind_pure _

/-- A name, a symbol, a type and a semicolon. -/
theorem follows_typed {production : Production} {symbol : Symbol}
    (h : production.rule =
      Ebnf.name ++ Ebnf.mark symbol ++ Production.type ++ Ebnf.mark .semicolon) :
    Follows (within production do
        let ident ← identifier
        mark symbol
        let type ← type
        mark .semicolon
        return (ident, type))
      (course production) bound := by
  apply Follows.within
  simp only [h, course_append, mul_assoc]
  apply follows_identifier.bind
  intro ident
  apply (follows_mark symbol).bind
  intro _
  apply follows_type.bind
  exact fun type => (follows_mark .semicolon).bind_pure _

theorem follows_typeDecl : Follows typeDecl (course Production.typeDecl) bound :=
  follows_typed rfl

theorem follows_varDecl : Follows varDecl (course Production.varDecl) bound :=
  follows_typed rfl

theorem follows_paramDecl : Follows paramDecl (course Production.paramDecl) bound := by
  apply Follows.within
  simp only [Production.rule, course_append, mul_assoc]
  apply follows_identifier.bind
  intro ident
  apply (follows_mark .colon).bind
  exact fun _ => follows_typeName.bind_pure _

theorem follows_paramList : Follows paramList (course Production.paramList) bound := by
  apply Follows.within
  simp only [Production.rule, course_append, mul_assoc]
  apply (follows_mark .leftParen).bind
  intro _
  apply follows_paramDecl.separated.bind
  exact fun params => (follows_mark .rightParen).bind_pure _

theorem follows_optionalParams :
    Follows optionalParams (optional Production.paramList).course bound :=
  follows_paramList.sees_bind (idle_pure [])

/-! ### Statements -/

theorem follows_target :
    Follows (variableRef expression) (course Production.variableRef) bound := by
  cases bound with
  | zero => exact follows_zero _ _
  | succ bound => exact follows_variableRef follows_expression

theorem follows_assignment : Follows assignment (course Production.assignment) bound := by
  apply Follows.within
  simp only [Production.rule, course_append, mul_assoc]
  apply follows_target.bind
  rintro ⟨target, index⟩
  apply (follows_mark .assign).bind
  exact fun _ => follows_expression.bind_pure _

theorem follows_procedureCall : Follows procedureCall (course Production.procedureCall) bound := by
  apply Follows.within
  simp only [Production.rule, course_append]
  apply follows_reference.bind
  intro ref
  apply Follows.sees_bind _ (idle_pure _)
  exact (follows_arguments follows_expression).bind_pure _

section

variable {statement : Reader Statement} (h : Follows statement (course Production.statement) bound)

include h

theorem follows_statementListOf :
    Follows (statementListOf statement) (course Production.statementList) bound :=
  h.separated.within

theorem follows_compoundOf :
    Follows (compoundOf statement) (course Production.compound) (bound + 1) := by
  apply Follows.within
  simp only [Production.rule, course_append, mul_assoc]
  apply idle_currentLine.bind
  intro line
  apply (follows_word .begin_).token_bind (not_derives_word_nil .begin_)
  intro _
  apply (follows_statementListOf h).bind
  exact fun body => (follows_word .end_).bind_pure _

theorem follows_ifOf : Follows (ifOf statement) (course Production.ifThenElse) (bound + 1) := by
  apply Follows.within
  simp only [Production.rule, course_append, mul_assoc]
  apply idle_currentLine.bind
  intro line
  apply (follows_word .if_).token_bind (not_derives_word_nil .if_)
  intro _
  apply follows_expression.bind
  intro condition
  apply (follows_word .then_).bind
  intro _
  apply h.bind
  intro consequence
  apply Follows.sees_bind _ (idle_pure _)
  rw [course_append]
  apply (follows_word .else_).bind
  exact fun _ => h.bind_pure _

theorem follows_whileOf : Follows (whileOf statement) (course Production.whileDo) (bound + 1) := by
  apply Follows.within
  simp only [Production.rule, course_append, mul_assoc]
  apply idle_currentLine.bind
  intro line
  apply (follows_word .while_).token_bind (not_derives_word_nil .while_)
  intro _
  apply follows_expression.bind
  intro condition
  apply (follows_word .do_).bind
  exact fun _ => h.bind_pure _

end

theorem follows_statementWithin (depth : Nat) :
    Follows (statementWithin depth) (course Production.statement) depth := by
  induction depth with
  | zero => exact follows_zero _ _
  | succ depth ih =>
      apply Follows.within
      apply idle_current.bind
      intro token
      split
      · apply idle_nextKind.bind
        intro next
        split
        · exact follows_assignment.left.left.left.left.left
        · exact follows_procedureCall.right.left
      · exact (follows_compoundOf ih).right.left.left.left.left
      · exact (follows_ifOf ih).right.left.left.left
      · exact (follows_whileOf ih).right.left.left
      · exact idle_currentLine.bind fun line _ => (idle_pure _).followsAt (Derives.right .empty)

theorem follows_statementList : Follows statementList (course Production.statementList) bound :=
  follows_of_depth fun depth => follows_statementListOf (follows_statementWithin depth)

/-! ### Blocks -/

/-- A section is a keyword and some declarations. -/
theorem follows_sectionOf {α : Type} {decl : Reader α} {production : Production}
    {keyword : Keyword} {rule : Ebnf}
    (h : production.rule = Ebnf.word keyword ++ rule ++ Ebnf.many rule)
    (hdecl : Follows decl rule.course bound) :
    Follows (sectionOf production keyword decl) (course production) bound := by
  apply Follows.within
  simp only [h, course_append, mul_assoc]
  apply (follows_word keyword).bind
  exact fun _ => hdecl.many1

section

variable {block : Reader Block} (h : Follows block (course Production.block) bound)

include h

theorem follows_procedureOf :
    Follows (procedureOf block) (course Production.procedureDecl) (bound + 1) := by
  apply Follows.within
  simp only [Production.rule, course_append, mul_assoc]
  apply idle_currentLine.bind
  intro line
  apply (follows_word .procedure).token_bind (not_derives_word_nil .procedure)
  intro _
  apply follows_takeName.bind
  intro name
  apply follows_optionalParams.bind
  intro params
  apply (follows_mark .semicolon).bind
  intro _
  apply h.bind
  exact fun body => (follows_mark .semicolon).bind_pure _

theorem follows_functionOf :
    Follows (functionOf block) (course Production.functionDecl) (bound + 1) := by
  apply Follows.within
  simp only [Production.rule, course_append, mul_assoc]
  apply idle_currentLine.bind
  intro line
  apply (follows_word .function).token_bind (not_derives_word_nil .function)
  intro _
  apply follows_takeName.bind
  intro name
  apply follows_optionalParams.bind
  intro params
  apply (follows_mark .colon).bind
  intro _
  apply follows_typeName.bind
  intro result
  apply (follows_mark .semicolon).bind
  intro _
  apply h.bind
  exact fun body => (follows_mark .semicolon).bind_pure _

theorem follows_partOf : Follows (partOf block) part.course (bound + 1) := by
  apply idle_current.bind
  intro token
  split
  · exact ((follows_sectionOf rfl follows_constDecl).bind_pure _).left.left.left.left
  · exact ((follows_sectionOf rfl follows_typeDecl).bind_pure _).right.left.left.left
  · exact ((follows_sectionOf rfl follows_varDecl).bind_pure _).right.left.left
  · exact (follows_functionOf h).right.left
  · exact (follows_procedureOf h).right

end

theorem follows_blockWithin (depth : Nat) :
    Follows (blockWithin depth) (course Production.block) depth := by
  induction depth with
  | zero => exact follows_zero _ _
  | succ depth ih =>
      apply Follows.within
      simp only [Production.rule, course_append, mul_assoc]
      apply idle_currentLine.bind
      intro line
      apply (follows_many fun token _ => follows_partOf ih token.kind).bind
      intro parts
      apply (follows_word .begin_).bind
      intro _
      apply follows_statementList.bind
      exact fun statements => (follows_word .end_).bind_pure _

theorem follows_block : Follows block (course Production.block) bound :=
  follows_of_depth follows_blockWithin

/-! ### Programs -/

theorem idle_entitle (name : String) :
    Idle (modify fun cursor => { cursor with title? := some name } : Reader PUnit) :=
  fun _ => ⟨⟨⟩, _, rfl, ⟨rfl, (List.append_nil _).symm⟩⟩

/-- What is read of a program once it is entered. -/
theorem exists_follows_of_program :
    ∃ body, program = within .program body ∧ Follows body (.inside .program) bound := by
  refine ⟨_, rfl, Follows.mono ?_ course_program_le_inside⟩
  simp only [Production.rule, course_append, mul_assoc]
  apply idle_currentLine.bind
  intro line
  apply (follows_word .program).bind
  intro _
  apply follows_takeName.bind
  intro name
  apply (idle_entitle name).bind
  intro _
  apply (follows_mark .semicolon).bind
  intro _
  apply follows_block.bind
  intro body
  apply (follows_mark .dot).bind
  intro _
  apply idle_current.bind
  intro token
  split
  · exact fun _ => (idle_pure _).followsAt rfl
  · exact fun _ => followsAt_unexpected ⟨rfl, rfl, rfl⟩

/-- A parse that succeeds enters and leaves the program, and all else in between. -/
theorem exists_trace_of_ok {tokens : List Located} {outline : Outline}
    (h : (parse tokens).result = .ok outline) :
    ∃ inner, WellNested inner ∧
      (parse tokens).trace = .enter .program :: inner ++ [.leave .program] := by
  obtain ⟨final, hrun⟩ := parse_result_eq_ok_iff.mp h
  obtain ⟨body, hprogram, hbody⟩ := @exists_follows_of_program (tokens.length + 1)
  have hkeeps := hbody _ ((Cursor.start tokens).record (.enter .program)) rfl
    (Nat.lt_succ_self _)
  have htrace : (parse tokens).trace = final.events.reverse := by
    rw [parse, hrun]
  rw [hprogram, run_within] at hrun
  split at hrun
  · next hbodyRun =>
      cases hrun
      rw [hbodyRun] at hkeeps
      cases hkeeps with
      | ok passes _ nested =>
          exact ⟨_, nested, htrace.trans passes.within.trace⟩
  · cases hrun

/-- A parse that fails leaves open the productions on a path to the token that it reports. -/
theorem exists_trace_of_error {tokens : List Located} {error : SyntaxError}
    (h : (parse tokens).result = .error error) :
    ∃ place ≤ tokens.length, ∃ path,
      error.found = (tokenAt tokens place).token ∧ error.line = (tokenAt tokens place).line ∧
      Halts Production.program (kinds (tokens.take place)) path error.expected ∧
      LeavesOpen path (parse tokens).trace := by
  obtain ⟨final, hrun⟩ := parse_result_eq_error_iff.mp h
  obtain ⟨body, hprogram, hbody⟩ := @exists_follows_of_program (tokens.length + 1)
  obtain ⟨count, title?, hstops, -, -⟩ := exists_stops_program tokens
  have hkeeps :
      KeepsTo (course Production.program) (.start tokens) (program.run (.start tokens)) := by
    rw [hprogram]
    exact follows_within hbody _ (.start tokens) rfl (Nat.lt_succ_self _)
  have htrace : (parse tokens).trace = final.events.reverse := by
    rw [parse, hrun]
  rw [hrun] at hstops hkeeps
  obtain ⟨hfound, hline⟩ := hstops.error_eq
  cases hkeeps with
  | @error _ _ taken events path passes halts opened =>
      have hrest : tokens = taken ++ final.rest := passes.rest
      have htake : tokens.take count = taken := by
        rw [hstops.count_eq hrest, hrest, List.take_left]
      refine ⟨count, hstops.count_le, path, hfound, hline, htake ▸ halts, ?_⟩
      rw [htrace, passes.trace]
      exact opened

end Outline

end MiniPascal
