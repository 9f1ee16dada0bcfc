import MiniPascal.Proofs.Grammar.Keeping
import MiniPascal.Proofs.Grammar.Programs

/-!
# Outlines keep all tokens and lines

The reader of each production keeps its tokens, so the outline of a program, flattened
again, is the list of tokens it was read from: nothing is lost and nothing is added.  The
nodes of the outline report the lines of their first tokens, except for factors in
parentheses, which report the line after the parenthesis.
-/

namespace MiniPascal

theorem Literal.token_ofText (value : String) : (Literal.ofText value).token = .text value := by
  unfold ofText
  split
  · next c hvalue =>
      have hsingle : String.singleton c = value := by
        rw [← String.toList_inj, hvalue, String.toList_singleton]
      rw [token, hsingle]
  · rfl

theorem BinaryOp.token_ne_endOfFile (op : BinaryOp) : op.token ≠ .endOfFile := by
  cases op <;> nofun

namespace Outline

open Reader

/-! ### Constants and names -/

theorem keeps_constant :
    Keeps constant Constant.spots fun line constant => constant.line = line := by
  intro line
  apply KeepsAfter.within
  apply keeps_currentLine_bind
  apply keeps_current_bind
  intro token
  have htake (value : Constant) (hfile : value.token ≠ .endOfFile) (hline : value.line = line) :
      KeepsAt (At value.token) line [] (advance >>= fun _ => pure value) Constant.spots
        fun constant => constant.line = line := by
    apply keepsAt_advance_bind hfile
    subst hline
    cases value with
    | literal value line => exact keeps_node .constant rfl rfl rfl
    | named ref => exact .node .reference rfl (keeps_node .constant rfl rfl rfl)
  cases token with
  | number value => exact htake (.literal (.number value) line) (by nofun) rfl
  | text value =>
      have htext := htake (.literal (.ofText value) line)
      rw [Constant.token, Literal.token_ofText] at htext
      exact htext (by nofun) rfl
  | name word => exact htake (.named (.unbound word line)) (by nofun) rfl
  | _ => exact (keeps_unexpected _).keepsAt _

/-- The one token of a constant is the current one. -/
theorem keepsAt_constant {token : Token} {line : Nat} :
    KeepsAt (At token) line [] constant Constant.spots
      fun constant => constant.line = line ∧ constant.token = token := by
  intro start cursor final constant hcurrent since hrun
  obtain ⟨sinceFinal, hline⟩ := keeps_constant line start cursor final constant since hrun
  refine ⟨sinceFinal, hline, ?_⟩
  obtain ⟨sinceCursor, -⟩ := keeps_constant cursor.line _ _ _ _ (.refl since.placed) hrun
  have htokens := sinceCursor.map_token_eq
  rw [Constant.map_token_spots] at htokens
  rw [At, Cursor.current] at hcurrent
  cases hrest : cursor.rest with
  | nil =>
      rw [hrest] at htokens
      cases htokens
  | cons first rest =>
      rw [hrest] at htokens hcurrent
      exact (List.cons_eq_cons.mp htokens).1.symm.trans hcurrent

theorem keeps_reference : Keeps reference NameRef.spots fun line ref => ref.line = line := by
  intro line
  apply keeps_currentLine_bind
  apply keeps_takeName.bind_first
  exact fun word _ => keeps_node .reference rfl rfl rfl

theorem keeps_identifier :
    Keeps identifier (fun ident => [.bare (.name ident.name)]) fun line ident =>
      ident.line = line := by
  intro line
  apply keeps_currentLine_bind
  apply keeps_takeName.bind_first
  exact fun word _ => keeps_pure rfl rfl

theorem keeps_literal : KeepsTokens identifier identSpots :=
  keeps_identifier.node .enumLiteral rfl

theorem keeps_typeName : KeepsTokens typeName NameRef.spots :=
  fun line => (keeps_reference.tokens line).within .typeName

/-! ### Expressions -/

/-- An expression that begins at the line where its reader does. -/
abbrev StartsAt (line : Nat) (expr : Expr) : Prop :=
  expr.startLine = line

/-- A factor that begins at the line where its reader does. -/
abbrev FactorAt (line : Nat) (expr : Expr) : Prop :=
  expr.startLine = line ∧ expr.isFactor = true

section

variable {expression factor : Reader Expr}

theorem keeps_termOf (h : Keeps factor Expr.spots FactorAt) :
    Keeps (termOf factor) (fun term => term.withTerm term.spots)
      fun line term => term.startLine = line ∧ term.isTerm = true := by
  intro line
  apply KeepsAfter.within
  apply h.bind_first
  intro first ⟨hline, hfactor⟩
  apply (Keeps.operands (fun _ _ hop => (Token.multiplicative?_eq_some_iff.mp hop).2)
    BinaryOp.token_ne_endOfFile h).bind
  intro _ others hothers
  have hops : ∀ operand ∈ others, operand.1.isAdditive = false := by
    intro operand hmem
    obtain ⟨token, htoken⟩ := hothers operand hmem
    exact (Token.multiplicative?_eq_some_iff.mp htoken).1
  have hterm : (Expr.join first others).isTerm = true :=
    Expr.isTerm_join_factors (Expr.isTerm_of_isFactor hfactor) hops
  have hstart : (Expr.join first others).startLine = line :=
    (Expr.startLine_join first others).trans hline
  refine keeps_node .term rfl ?_ ⟨hstart, hterm⟩
  rw [Expr.withTerm, hterm, if_pos rfl, hstart, Expr.spots_join_factors hops]

/-- Terms are joined to a first one, which may have a sign. -/
theorem keeps_terms {line : Nat} {first : Expr} {term : Reader Expr}
    {property : Nat → Expr → Prop}
    (h : Keeps term (fun term => term.withTerm term.spots) property)
    (hline : first.startLine = line) (hsum : first.isSum = true) :
    KeepsAfter line (first.withTerm first.spots)
      (operands Token.additive? term >>= fun others => pure (first.join others))
      (fun sum => sum.withSum sum.spots)
      fun sum => sum.startLine = line ∧ sum.isSum = true := by
  apply (Keeps.operands (fun _ _ hop => (Token.additive?_eq_some_iff.mp hop).2)
    BinaryOp.token_ne_endOfFile h).bind
  intro _ others hothers
  have hops : ∀ operand ∈ others, operand.1.isAdditive = true := by
    intro operand hmem
    obtain ⟨token, htoken⟩ := hothers operand hmem
    exact (Token.additive?_eq_some_iff.mp htoken).1
  have hjoined : (Expr.join first others).isSum = true := Expr.isSum_join hsum
  have hstart : (Expr.join first others).startLine = line :=
    (Expr.startLine_join first others).trans hline
  refine keeps_node .simpleExpr rfl ?_ ⟨hstart, hjoined⟩
  rw [Expr.withSum, hjoined, if_pos rfl, hstart, Expr.spots_join_terms hops]

theorem keeps_simpleExprOf (h : Keeps factor Expr.spots FactorAt) :
    Keeps (simpleExprOf factor) (fun sum => sum.withSum sum.spots)
      fun line sum => sum.startLine = line ∧ sum.isSum = true := by
  intro line
  apply KeepsAfter.within
  apply keeps_currentLine_bind
  have hterm := keeps_termOf h
  apply keeps_current_bind
  intro token
  cases hsign : token.sign? with
  | some sign =>
      obtain rfl := Token.sign?_eq_some_iff.mp hsign
      apply keepsAt_advance_bind (by nofun)
      apply hterm.bind
      intro _ term _
      exact @keeps_terms line (.signed sign term line) _ _ hterm rfl rfl
  | none =>
      apply KeepsAfter.keepsAt
      apply hterm.bind_first
      intro first ⟨hline, hfirst⟩
      exact keeps_terms hterm hline (Expr.isSum_of_isTerm hfirst)

theorem keeps_expressionOf (h : Keeps factor Expr.spots FactorAt) :
    Keeps (expressionOf factor) Expr.allSpots StartsAt := by
  intro line
  apply KeepsAfter.within
  have hsimple := keeps_simpleExprOf h
  apply hsimple.bind_first
  intro left ⟨hline, _⟩
  apply keeps_current_bind
  intro token
  cases hrelation : token.relation? with
  | some relation =>
      obtain rfl := Token.relation?_eq_some_iff.mp hrelation
      apply keepsAt_advance_bind (by nofun)
      apply hsimple.bind
      intro _ right _
      refine keeps_node .expression rfl ?_ hline
      rw [← hline, List.append_assoc]
      rfl
  | none =>
      apply KeepsAfter.keepsAt
      refine keeps_node .expression rfl ?_ hline
      rw [← hline]
      rfl

theorem keeps_arguments (h : Keeps expression Expr.allSpots StartsAt) :
    KeepsTokens (arguments expression) Expr.spotsOfArguments := by
  intro line
  apply (keeps_mark .leftParen).bind
  intro _ _ _
  apply h.separated_bind
  intro first others
  apply (keeps_mark .rightParen).bind
  intro _ _ _
  refine keeps_pure ?_ trivial
  rw [Expr.spotsOfArguments_cons]
  rfl

theorem keeps_functionCall (h : Keeps expression Expr.allSpots StartsAt) :
    Keeps (functionCall expression) Expr.spots FactorAt := by
  intro line
  apply KeepsAfter.within
  apply keeps_reference.bind_first
  intro ref hline
  apply (keeps_arguments h).bind
  intro _ args _
  refine keeps_node .factor rfl ?_ ⟨hline, rfl⟩
  rw [← hline]
  rfl

theorem keeps_variableRef (h : Keeps expression Expr.allSpots StartsAt) :
    Keeps (variableRef expression) (fun found => found.1.spots ++ Expr.spotsIn? found.2)
      fun line found => found.1.line = line := by
  intro line
  apply KeepsAfter.within
  apply keeps_reference.bind_first
  intro ref hline
  apply keeps_sees_bind
  · apply (keeps_mark .leftBracket).bind
    intro _ _ _
    apply h.bind
    intro _ index _
    apply (keeps_mark .rightBracket).bind
    intro _ _ _
    refine keeps_pure ?_ hline
    simp [Expr.spotsIn?]
  · exact keeps_pure (List.append_nil _).symm hline

/-- A factor in parentheses reports the line after the opening one. -/
theorem keeps_group (h : Keeps expression Expr.allSpots StartsAt) (line : Nat) :
    KeepsAfter line [] (do
        mark .leftParen
        let inner ← expression
        mark .rightParen
        return .group inner line) Expr.spots (FactorAt line) := by
  intro start cursor final result since hrun
  obtain ⟨_, opened, hopen, hrun⟩ := run_bind_eq_ok_iff.mp hrun
  obtain ⟨inner, read, hinner, hrun⟩ := run_bind_eq_ok_iff.mp hrun
  obtain ⟨_, closed, hclose, hrun⟩ := run_bind_eq_ok_iff.mp hrun
  cases hrun
  obtain ⟨sinceOpen, -⟩ := keeps_mark .leftParen line start cursor opened _ since hopen
  obtain ⟨sinceInner, hline⟩ := h opened.line _ _ _ _ (.refl sinceOpen.placed) hinner
  obtain ⟨sinceClose, -⟩ :=
    keeps_mark .rightParen read.line _ _ _ _ (.refl sinceInner.placed) hclose
  refine ⟨?_, rfl, rfl⟩
  have hgroup := sinceOpen.group (sinceInner.trans sinceClose)
    (List.append_ne_nil_of_right_ne_nil _ (List.cons_ne_nil _ _))
  rw [← hline] at hgroup
  exact hgroup

end

/-- A factor that is a number or a text. -/
theorem keeps_constantFactor {token : Token} (hname : ∀ word, token ≠ .name word) {line : Nat} :
    KeepsAt (At token) line [] (constant >>= fun
      | .literal value line => pure (Expr.literal value line)
      | .named ref => pure (Expr.name ref)) Expr.spots (FactorAt line) := by
  apply keepsAt_constant.bind_first
  rintro (⟨value, own⟩ | ref) ⟨hline, htoken⟩
  · obtain rfl : own = line := hline
    exact keeps_node .factor rfl rfl ⟨rfl, rfl⟩
  · exact absurd htoken.symm (hname _)

theorem keeps_factorWithin (depth : Nat) : Keeps (factorWithin depth) Expr.spots FactorAt := by
  induction depth with
  | zero => exact fun _ => keeps_unexpected _
  | succ depth ih =>
      have hexpression := keeps_expressionOf ih
      intro line
      apply KeepsAfter.within
      apply keeps_currentLine_bind
      apply keeps_current_bind
      intro token
      split
      · exact keeps_constantFactor (by nofun)
      · exact keeps_constantFactor (by nofun)
      · apply KeepsAfter.keepsAt
        apply keeps_nextKind_bind
        intro next
        split
        · exact keeps_functionCall hexpression line
        · apply (keeps_variableRef hexpression).bind_first
          rintro ⟨ref, _ | index⟩ hline
          · refine keeps_node .factor rfl ?_ ⟨hline, rfl⟩
            rw [← hline]
            rfl
          · refine keeps_node .factor rfl ?_ ⟨hline, rfl⟩
            rw [← hline]
            rfl
      · exact (keeps_group hexpression line).keepsAt _
      · apply KeepsAfter.keepsAt
        apply (keeps_word .not).bind
        intro _ _ _
        apply ih.bind
        intro _ inner _
        exact keeps_node .factor rfl rfl ⟨rfl, rfl⟩
      · exact (keeps_unexpected _).keepsAt _

theorem keeps_expression : Keeps expression Expr.allSpots StartsAt :=
  keeps_of_depth fun depth => keeps_expressionOf (keeps_factorWithin depth)

/-! ### Types -/

theorem keeps_enumType : KeepsTokens enumType (TypeExpr.spots identSpots) := by
  intro line
  apply KeepsAfter.within
  apply keeps_currentLine_bind
  apply (keeps_mark .leftParen).bind
  intro _ _ _
  apply keeps_literal.separated_bind
  intro first others
  apply (keeps_mark .rightParen).bind
  exact fun _ _ _ => keeps_node .enumType rfl rfl trivial

theorem keeps_rangeType : KeepsTokens rangeType (TypeExpr.spots identSpots) := by
  intro line
  apply KeepsAfter.within
  apply keeps_currentLine_bind
  apply keeps_constant.bind
  intro _ low _
  apply (keeps_mark .range).bind
  intro _ _ _
  apply keeps_constant.bind
  intro _ high _
  refine keeps_node .rangeType rfl ?_ trivial
  simp [TypeExpr.spots]

theorem keeps_typeWithin (depth : Nat) :
    KeepsTokens (typeWithin depth) (TypeExpr.spots identSpots) := by
  induction depth with
  | zero => exact fun _ => keeps_unexpected _
  | succ depth ih =>
      intro line
      apply KeepsAfter.within
      apply keeps_current_bind
      intro token
      apply KeepsAfter.keepsAt
      split
      · apply KeepsAfter.within
        apply keeps_currentLine_bind
        apply (keeps_word .array).bind
        intro _ _ _
        apply (keeps_mark .leftBracket).bind
        intro _ _ _
        apply ih.bind
        intro _ index _
        apply (keeps_mark .rightBracket).bind
        intro _ _ _
        apply (keeps_word .of).bind
        intro _ _ _
        apply ih.bind
        intro _ element _
        refine keeps_node .arrayType rfl ?_ trivial
        simp [TypeExpr.spots]
      · exact keeps_enumType line
      · apply keeps_nextKind_bind
        intro next
        split
        · exact keeps_rangeType line
        · apply keeps_typeName.bind
          exact fun _ ref _ => keeps_pure rfl trivial
      · exact keeps_rangeType line
      · exact keeps_rangeType line
      · exact keeps_unexpected _

theorem keeps_type : KeepsTokens type (TypeExpr.spots identSpots) :=
  keeps_of_depth keeps_typeWithin

/-! ### Statements -/

theorem keeps_assignment : KeepsTokens assignment Statement.spots := by
  intro line
  apply KeepsAfter.within
  apply (keeps_variableRef keeps_expression).bind_first
  rintro ⟨target, index⟩ hline
  apply (keeps_mark .assign).bind
  intro _ _ _
  apply keeps_expression.bind
  intro _ value _
  refine keeps_node .statement rfl ?_ trivial
  rw [Statement.spots, Statement.line, hline]
  simp

theorem keeps_procedureCall : KeepsTokens procedureCall Statement.spots := by
  intro line
  apply KeepsAfter.within
  apply keeps_reference.bind_first
  intro ref hline
  apply keeps_sees_bind
  · apply (keeps_arguments keeps_expression).bind
    intro _ args _
    refine keeps_node .statement rfl ?_ trivial
    rw [Statement.spots, Statement.line, hline]
  · refine keeps_node .statement rfl ?_ trivial
    rw [Statement.spots, Statement.line, hline, Expr.spotsOfArguments, List.append_nil]

section

variable {statement : Reader Statement}

theorem keeps_statementListOf (h : KeepsTokens statement Statement.spots) :
    KeepsTokens (statementListOf statement) Statement.spotsAll := by
  have hlist := @Keeps.separated _ _ _ Symbol.semicolon _ h
  intro line
  apply KeepsAfter.within
  rw [funext Statement.spotsAll_eq]
  exact hlist line

theorem keeps_compoundOf (h : KeepsTokens statement Statement.spots) :
    KeepsTokens (compoundOf statement) Statement.spots := by
  intro line
  apply KeepsAfter.within
  apply keeps_currentLine_bind
  apply (keeps_word .begin_).bind
  intro _ _ _
  apply (keeps_statementListOf h).bind
  intro _ body _
  apply (keeps_word .end_).bind
  exact fun _ _ _ => keeps_node .statement rfl rfl trivial

theorem keeps_ifOf (h : KeepsTokens statement Statement.spots) :
    KeepsTokens (ifOf statement) Statement.spots := by
  intro line
  apply KeepsAfter.within
  apply keeps_currentLine_bind
  apply (keeps_word .if_).bind
  intro _ _ _
  apply keeps_expression.bind
  intro _ condition _
  apply (keeps_word .then_).bind
  intro _ _ _
  apply h.bind
  intro _ consequence _
  apply keeps_sees_bind
  · apply (keeps_word .else_).bind
    intro _ _ _
    apply h.bind
    intro _ alternative _
    refine keeps_node .statement rfl ?_ trivial
    simp [Statement.spots, Statement.line]
  · refine keeps_node .statement rfl ?_ trivial
    simp [Statement.spots, Statement.line]

theorem keeps_whileOf (h : KeepsTokens statement Statement.spots) :
    KeepsTokens (whileOf statement) Statement.spots := by
  intro line
  apply KeepsAfter.within
  apply keeps_currentLine_bind
  apply (keeps_word .while_).bind
  intro _ _ _
  apply keeps_expression.bind
  intro _ condition _
  apply (keeps_word .do_).bind
  intro _ _ _
  apply h.bind
  intro _ body _
  refine keeps_node .statement rfl ?_ trivial
  simp [Statement.spots, Statement.line]

end

theorem keeps_statementWithin (depth : Nat) :
    KeepsTokens (statementWithin depth) Statement.spots := by
  induction depth with
  | zero => exact fun _ => keeps_unexpected _
  | succ depth ih =>
      intro line
      apply KeepsAfter.within
      apply keeps_current_bind
      intro token
      apply KeepsAfter.keepsAt
      split
      · apply keeps_nextKind_bind
        intro next
        split
        · exact keeps_assignment line
        · exact keeps_procedureCall line
      · exact keeps_compoundOf ih line
      · exact keeps_ifOf ih line
      · exact keeps_whileOf ih line
      · apply keeps_currentLine_bind
        exact keeps_pure rfl trivial

theorem keeps_statementList : KeepsTokens statementList Statement.spotsAll :=
  keeps_of_depth fun depth => keeps_statementListOf (keeps_statementWithin depth)

/-! ### Declarations -/

theorem keeps_constDecl : KeepsTokens constDecl constantSpots := by
  intro line
  apply KeepsAfter.within
  apply keeps_identifier.bind_first
  intro ident hline
  apply (keeps_mark .equal).bind
  intro _ _ _
  apply keeps_constant.bind
  intro _ value _
  apply (keeps_mark .semicolon).bind
  intro _ _ _
  refine keeps_node .declaration rfl ?_ trivial
  rw [← hline]
  rfl

/-- A name, a symbol, a type and a semicolon. -/
theorem keeps_typed (symbol : Symbol) (production : Production) :
    KeepsTokens (within production do
        let ident ← identifier
        mark symbol
        let type ← type
        mark .semicolon
        return (ident, type)) (typedSpots symbol) := by
  intro line
  apply KeepsAfter.within
  apply keeps_identifier.bind_first
  intro ident hline
  apply (keeps_mark symbol).bind
  intro _ _ _
  apply keeps_type.bind
  intro _ type _
  apply (keeps_mark .semicolon).bind
  intro _ _ _
  refine keeps_node .declaration rfl ?_ trivial
  rw [← hline]
  rfl

theorem keeps_paramDecl : KeepsTokens paramDecl paramSpots := by
  intro line
  apply KeepsAfter.within
  apply keeps_identifier.bind_first
  intro ident hline
  apply (keeps_mark .colon).bind
  intro _ _ _
  apply keeps_typeName.bind
  intro _ type _
  refine keeps_node .parameter rfl ?_ trivial
  rw [← hline]
  rfl

theorem keeps_paramList :
    KeepsTokens paramList fun params => parametersSpots (params.map paramSpots) := by
  intro line
  apply KeepsAfter.within
  apply (keeps_mark .leftParen).bind
  intro _ _ _
  apply keeps_paramDecl.separated_bind
  intro first others
  apply (keeps_mark .rightParen).bind
  exact fun _ _ _ => keeps_pure rfl trivial

theorem keeps_optionalParams :
    KeepsTokens optionalParams fun params => parametersSpots (params.map paramSpots) :=
  fun line => keeps_sees_bind (keeps_paramList line) (keeps_pure rfl trivial)

theorem keeps_sectionOf {α : Type} {decl : Reader α} {print : α → List Spot}
    (h : KeepsTokens decl print) (production : Production) (keyword : Keyword) :
    KeepsTokens (sectionOf production keyword decl)
      fun decls => .bare (.keyword keyword) :: decls.flatMap print := by
  intro line
  apply KeepsAfter.within
  apply (keeps_word keyword).bind
  intro _ _ _
  rw [← bind_pure (many1 _ _)]
  apply h.many1.bind
  exact fun _ decls _ => keeps_pure rfl trivial

section

variable {block : Reader Block}

theorem keeps_procedureOf (h : KeepsTokens block Block.spots) :
    KeepsTokens (procedureOf block) Part.spots := by
  intro line
  apply KeepsAfter.within
  apply keeps_currentLine_bind
  apply (keeps_word .procedure).bind
  intro _ _ _
  apply keeps_takeName.bind
  intro _ name _
  apply keeps_optionalParams.bind
  intro _ params _
  apply (keeps_mark .semicolon).bind
  intro _ _ _
  apply h.bind
  intro _ body _
  apply (keeps_mark .semicolon).bind
  intro _ _ _
  refine keeps_node .declaration rfl ?_ trivial
  simp [Part.spots, routineSpots]

theorem keeps_functionOf (h : KeepsTokens block Block.spots) :
    KeepsTokens (functionOf block) Part.spots := by
  intro line
  apply KeepsAfter.within
  apply keeps_currentLine_bind
  apply (keeps_word .function).bind
  intro _ _ _
  apply keeps_takeName.bind
  intro _ name _
  apply keeps_optionalParams.bind
  intro _ params _
  apply (keeps_mark .colon).bind
  intro _ _ _
  apply keeps_typeName.bind
  intro _ result _
  apply (keeps_mark .semicolon).bind
  intro _ _ _
  apply h.bind
  intro _ body _
  apply (keeps_mark .semicolon).bind
  intro _ _ _
  refine keeps_node .declaration rfl ?_ trivial
  simp [Part.spots, routineSpots]

theorem keeps_partOf (h : KeepsTokens block Block.spots) :
    KeepsTokens (partOf block) Part.spots := by
  intro line
  apply keeps_current_bind
  intro token
  apply KeepsAfter.keepsAt
  split
  · apply (keeps_sectionOf keeps_constDecl .constPart .const).bind
    exact fun _ decls _ => keeps_pure rfl trivial
  · apply (keeps_sectionOf (keeps_typed .equal .typeDecl) .typePart .type).bind
    exact fun _ decls _ => keeps_pure rfl trivial
  · apply (keeps_sectionOf (keeps_typed .colon .varDecl) .varPart .var).bind
    exact fun _ decls _ => keeps_pure rfl trivial
  · exact keeps_functionOf h line
  · exact keeps_procedureOf h line

end

/-! ### Programs -/

theorem keeps_blockWithin (depth : Nat) : KeepsTokens (blockWithin depth) Block.spots := by
  induction depth with
  | zero => exact fun _ => keeps_unexpected _
  | succ depth ih =>
      intro line
      apply KeepsAfter.within
      apply keeps_currentLine_bind
      apply (keeps_partOf ih).many.bind
      intro _ parts _
      apply (keeps_word .begin_).bind
      intro _ _ _
      apply keeps_statementList.bind
      intro _ statements _
      apply (keeps_word .end_).bind
      intro _ _ _
      refine keeps_node .block rfl ?_ trivial
      rw [Block.spots, blockSpots, partsSpots_eq]
      simp

theorem keeps_block : KeepsTokens block Block.spots :=
  keeps_of_depth keeps_blockWithin

theorem keeps_program : KeepsTokens program spots := by
  intro line
  apply KeepsAfter.within
  apply keeps_currentLine_bind
  apply (keeps_word .program).bind
  intro _ _ _
  apply keeps_takeName.bind
  intro _ name _
  refine keeps_modify_bind (fun _ => rfl) (fun _ => rfl) ?_
  apply (keeps_mark .semicolon).bind
  intro _ _ _
  apply keeps_block.bind
  intro _ body _
  apply (keeps_mark .dot).bind
  intro _ _ _
  apply keeps_current_bind
  intro token
  apply KeepsAfter.keepsAt
  split
  · exact keeps_node .program rfl (by simp [spots, programSpots]) trivial
  · exact keeps_unexpected _

/-- The tokens before the first end of the file are those of the outline, and its nodes
report their lines. -/
theorem lined_of_parse {located : List Located} {outline : Outline}
    (h : (parse located).result = .ok outline) : Lined (beforeEnd located) outline.spots := by
  obtain ⟨final, hrun⟩ := parse_result_eq_ok_iff.mp h
  obtain ⟨front, hrest, hfront⟩ := (@reads_program 0).sound _ _ _ _ rfl hrun
  have hsplit : located = front ++ final.rest := hrest
  have hplaced : ∀ first ∈ (Cursor.start located).rest.head?,
      (Cursor.start located).line = first.line := by
    cases located with
    | nil => exact nofun
    | cons first rest =>
        rintro _ ⟨⟩
        rfl
  obtain ⟨since, -⟩ := keeps_program _ _ _ _ _ (.refl hplaced) hrun
  obtain ⟨part, hpart, hlined, -⟩ := since.split
  have hfrontPart : part = front := List.append_cancel_right (hpart.symm.trans hsplit)
  rw [hsplit, beforeEnd_append (Ebnf.Derives.endOfFile_notMem hfront) (ends_program _ _ _ hrun),
    ← hfrontPart]
  exact hlined

/-- An outline has the tokens before the first end of the file, and no others. -/
theorem tokens_of_parse {located : List Located} {outline : Outline}
    (h : (parse located).result = .ok outline) :
    outline.tokens = (beforeEnd located).map Located.token := by
  rw [← outline.map_token_spots, (lined_of_parse h).map_token]

end Outline

end MiniPascal
