import MiniPascal.Proofs.Grammar.Locality
import MiniPascal.Proofs.Grammar.Programs
import MiniPascal.Proofs.Lines.Relined

/-!
# Every production looks one token ahead

The reader of each production echoes itself: on tokens that agree up to the one after
those it takes, it takes as many and gives the same up to lines, or fails expecting the
same.  Where two tokens are looked at, the first of them is a name and is taken.
-/

namespace MiniPascal.Outline

open Reader Ebnf

variable {bound bound' : Nat}

/-! ### Names and constants -/

theorem echoesAt_reference (name : String) :
    EchoesAt 1 (.name name) bound bound' NameRef.unlined reference reference :=
  quiet_currentLine.bind fun _ _ => (echoesAt_takeName name).bind fun _ _ hname =>
    echoes_pure (congrArg (NameRef.unbound · 0) hname)

theorem echoes_reference : Echoes bound bound' NameRef.unlined reference reference :=
  fun token => quiet_currentLine.bind fun _ _ => (echoes_takeName token).bind fun _ _ hname =>
    echoes_pure (congrArg (NameRef.unbound · 0) hname)

theorem echoes_identifier : Echoes bound bound' Ident.unlined identifier identifier :=
  fun token => quiet_currentLine.bind fun _ _ => (echoes_takeName token).bind fun _ _ hname =>
    echoes_pure (congrArg (Ident.mk · 0) hname)

/-- The current token is taken, and a value made of it. -/
theorem echoesAt_take {token : Token} (hfile : token ≠ .endOfFile) {value value' : Constant}
    (hvalue : value.unlined = value'.unlined) :
    EchoesAt 1 token bound bound' Constant.unlined (advance >>= fun _ => pure value)
      (advance >>= fun _ => pure value') :=
  (echoesAt_advance hfile).bind fun _ _ _ => echoes_pure hvalue

theorem echoesAt_constant_name (name : String) :
    EchoesAt 1 (.name name) bound bound' Constant.unlined constant constant := by
  apply EchoesAt.within
  refine quiet_currentLine.bind fun line line' => EchoesAt.current_bind ?_
  have htake : EchoesAt 1 (.name name) bound bound' Constant.unlined
      (advance >>= fun _ => pure (Constant.named (.unbound name line)))
      (advance >>= fun _ => pure (Constant.named (.unbound name line'))) :=
    echoesAt_take (by nofun) rfl
  exact htake

theorem echoes_constant : Echoes bound bound' Constant.unlined constant constant := by
  intro token
  apply EchoesAt.within
  refine quiet_currentLine.bind fun line line' => EchoesAt.current_bind ?_
  have htake {token : Token} (hfile : token ≠ .endOfFile) {value value' : Constant}
      (hvalue : value.unlined = value'.unlined) :
      EchoesAt 0 token bound bound' Constant.unlined (advance >>= fun _ => pure value)
        (advance >>= fun _ => pure value') :=
    (echoesAt_take hfile hvalue).mono (Nat.le_refl bound) (Nat.le_refl bound')
  cases token with
  | number value => exact htake (by nofun) (Eq.refl (Constant.literal (.number value) 0))
  | text value => exact htake (by nofun) (Eq.refl (Constant.literal (.ofText value) 0))
  | name word => exact htake (by nofun) (Eq.refl (Constant.named (.unbound word 0)))
  | keyword | symbol | endOfFile => exact echoes_unexpected .constant _

theorem echoesAt_typeName (name : String) :
    EchoesAt 1 (.name name) bound bound' NameRef.unlined typeName typeName :=
  (echoesAt_reference name).within .typeName

theorem echoes_typeName : Echoes bound bound' NameRef.unlined typeName typeName :=
  echoes_reference.within .typeName

/-! ### Expressions -/

section

variable {factor factor' : Reader Expr}

theorem echoes_termOf (h : Echoes bound bound' Expr.unlined factor factor')
    (hreads : Reads factor (words Production.factor) AfterFactor 0)
    (hreads' : Reads factor' (words Production.factor) AfterFactor 0) :
    Echoes bound bound' Expr.unlined (termOf factor) (termOf factor') := by
  apply Echoes.within
  refine h.bind fun first first' hfirst => ?_
  refine (h.operands hreads hreads' operators_multiplicative).bind fun others others' hothers => ?_
  apply echoes_pure
  simp only [Expr.unlined, Expr.relined_join] at hfirst hothers ⊢
  rw [hfirst, hothers]

theorem echoes_simpleExprOf (h : Echoes bound bound' Expr.unlined factor factor')
    (hreads : Reads factor (words Production.factor) AfterFactor 0)
    (hreads' : Reads factor' (words Production.factor) AfterFactor 0) :
    Echoes bound bound' Expr.unlined (simpleExprOf factor) (simpleExprOf factor') := by
  apply Echoes.within
  intro token
  refine quiet_currentLine.bind fun line line' => ?_
  have hterm := echoes_termOf h hreads hreads'
  have hmore (first first' : Expr) (hfirst : first.unlined = first'.unlined) :
      Echoes bound bound' Expr.unlined
        (operands Token.additive? (termOf factor) >>= fun others => pure (first.join others))
        (operands Token.additive? (termOf factor') >>= fun others =>
          pure (first'.join others)) := by
    refine (hterm.operands (reads_termOf hreads) (reads_termOf hreads') operators_additive).bind
      fun others others' hothers => ?_
    apply echoes_pure
    simp only [Expr.unlined, Expr.relined_join] at hfirst hothers ⊢
    rw [hfirst, hothers]
  refine Echoes.operator_or (fun sign => hterm.bind fun term term' hsame =>
    hmore (.signed sign term line) (.signed sign term' line')
      (congrArg (Expr.signed sign · 0) hsame))
    (hterm.bind hmore) operators_sign ?_ ?_ token
  · exact fun hsome => by rw [hsome]; exact ⟨rfl, rfl⟩
  · exact fun hnone => by rw [hnone]; exact ⟨rfl, rfl⟩

theorem echoes_expressionOf (h : Echoes bound bound' Expr.unlined factor factor')
    (hreads : Reads factor (words Production.factor) AfterFactor 0)
    (hreads' : Reads factor' (words Production.factor) AfterFactor 0) :
    Echoes bound bound' Expr.unlined (expressionOf factor) (expressionOf factor') := by
  apply Echoes.within
  have hsimple := echoes_simpleExprOf h hreads hreads'
  refine hsimple.bind fun left left' hleft => ?_
  have hright (relation : Relation) : Echoes bound bound' Expr.unlined
      (simpleExprOf factor >>= fun right => pure (.comparison relation left right))
      (simpleExprOf factor' >>= fun right => pure (.comparison relation left' right)) :=
    hsimple.bind fun right right' hright =>
      echoes_pure (congrArg₂ (Expr.comparison relation) hleft hright)
  refine Echoes.operator_or hright (echoes_pure hleft) operators_relation ?_ ?_
  · exact fun hsome => by rw [hsome]; exact ⟨rfl, rfl⟩
  · exact fun hnone => by rw [hnone]; exact ⟨rfl, rfl⟩

end

section

variable {expression expression' : Reader Expr}

theorem echoes_arguments (h : Echoes bound bound' Expr.unlined expression expression')
    {words words' : Language Token.Kind} (hsound : Sound expression words)
    (hsound' : Sound expression' words') :
    Echoes (bound + 1) (bound' + 1) (List.map Expr.unlined) (arguments expression)
      (arguments expression') := by
  refine (echoes_mark .leftParen).bind_of_productive (productive_mark .leftParen) fun _ _ _ => ?_
  refine (h.separated hsound hsound').bind fun args args' hargs => ?_
  exact (echoes_mark .rightParen).bind fun _ _ _ => echoes_pure hargs

theorem echoesAt_functionCall (h : Echoes bound bound' Expr.unlined expression expression')
    {words words' : Language Token.Kind} (hsound : Sound expression words)
    (hsound' : Sound expression' words') (name : String) :
    EchoesAt 1 (.name name) (bound + 1) (bound' + 1) Expr.unlined (functionCall expression)
      (functionCall expression') := by
  apply EchoesAt.within
  refine (echoesAt_reference name).bind fun ref ref' href => ?_
  refine (echoes_arguments h hsound hsound').bind fun args args' hargs => ?_
  apply echoes_pure
  simp only [Expr.unlined, Expr.relined, Expr.relinedAll_eq_map]
  exact congrArg₂ Expr.call href hargs

abbrev unlinedVariable : NameRef × Option Expr → NameRef × Option Expr :=
  Prod.map NameRef.unlined (Option.map Expr.unlined)

theorem echoesAt_variableRef (h : Echoes bound bound' Expr.unlined expression expression')
    (name : String) :
    EchoesAt 1 (.name name) (bound + 1) (bound' + 1) unlinedVariable (variableRef expression)
      (variableRef expression') := by
  apply EchoesAt.within
  refine (echoesAt_reference name).bind fun ref ref' href => ?_
  apply Echoes.sees_bind
  · refine (echoes_mark .leftBracket).bind_of_productive (productive_mark .leftBracket)
      fun _ _ _ => ?_
    refine h.bind fun index index' hindex => ?_
    refine (echoes_mark .rightBracket).bind fun _ _ _ => echoes_pure ?_
    exact congrArg₂ (fun ref index => (ref, some index)) href hindex
  · exact echoes_pure (congrArg (fun ref => (ref, none)) href)

end

/-! ### Factors -/

/-- What is made of a variable is the same for the same variable. -/
theorem echoes_ofVariable (found found' : NameRef × Option Expr) :
    unlinedVariable found = unlinedVariable found' → Echoes bound bound' Expr.unlined
      (match found with
        | (ref, some index) => pure (Expr.element ref index)
        | (ref, none) => pure (Expr.name ref))
      (match found' with
        | (ref, some index) => pure (Expr.element ref index)
        | (ref, none) => pure (Expr.name ref)) := by
  intro h
  obtain ⟨ref, index?⟩ := found
  obtain ⟨ref', index?'⟩ := found'
  obtain ⟨href, hindex⟩ := Prod.mk.inj h
  cases index? with
  | none =>
      cases index?' with
      | none => exact echoes_pure (congrArg Expr.name href)
      | some => cases hindex
  | some index =>
      cases index?' with
      | none => cases hindex
      | some index' => exact echoes_pure (congrArg₂ Expr.element href (Option.some.inj hindex))

/-- What is made of a constant is the same for the same constant. -/
theorem echoes_ofConstant (value value' : Constant) :
    value.unlined = value'.unlined → Echoes bound bound' Expr.unlined
      (match value with
        | .literal value line => pure (Expr.literal value line)
        | .named ref => pure (Expr.name ref))
      (match value' with
        | .literal value line => pure (Expr.literal value line)
        | .named ref => pure (Expr.name ref)) := by
  intro h
  cases value with
  | literal value line =>
      cases value' with
      | literal value' line' =>
          obtain ⟨rfl, -⟩ := Constant.literal.inj h
          exact echoes_pure rfl
      | named => cases h
  | named ref =>
      cases value' with
      | literal => cases h
      | named ref' => exact echoes_pure (congrArg Expr.name (Constant.named.inj h))

theorem reads_factor (depth : Nat) :
    Reads (factorWithin depth) (words Production.factor) AfterFactor 0 :=
  (reads_factorWithin depth).mono (fun _ => id) (Nat.zero_le depth)

theorem echoes_factorWithin_succ (depth depth' : Nat)
    (h : Echoes depth depth' Expr.unlined (factorWithin depth) (factorWithin depth')) :
    Echoes (depth + 1) (depth' + 1) Expr.unlined (factorWithin (depth + 1))
      (factorWithin (depth' + 1)) := by
  have hexpression := echoes_expressionOf h (reads_factor depth) (reads_factor depth')
  have hsound (depth : Nat) := (reads_expressionOf (reads_factor depth)).sound
  have hconstant := (@echoes_constant (depth + 1) (depth' + 1)).bind echoes_ofConstant
  intro token
  apply EchoesAt.within
  refine quiet_currentLine.bind fun line line' => EchoesAt.current_bind ?_
  have hgroup : Echoes (depth + 1) (depth' + 1) Expr.unlined
      (mark .leftParen >>= fun _ => expressionOf (factorWithin depth) >>= fun inner =>
        mark .rightParen >>= fun _ => pure (Expr.group inner line))
      (mark .leftParen >>= fun _ => expressionOf (factorWithin depth') >>= fun inner =>
        mark .rightParen >>= fun _ => pure (Expr.group inner line')) := by
    refine (echoes_mark .leftParen).bind_of_productive (productive_mark .leftParen) fun _ _ _ => ?_
    refine hexpression.bind fun inner inner' hinner => ?_
    exact (echoes_mark .rightParen).bind fun _ _ _ =>
      echoes_pure (congrArg (Expr.group · 0) hinner)
  have hnegation : Echoes (depth + 1) (depth' + 1) Expr.unlined
      (word .not >>= fun _ => factorWithin depth >>= fun inner => pure (Expr.negation inner line))
      (word .not >>= fun _ => factorWithin depth' >>= fun inner =>
        pure (Expr.negation inner line')) := by
    refine (echoes_word .not).bind_of_productive (productive_word .not) fun _ _ _ => ?_
    exact h.bind fun inner inner' hinner => echoes_pure (congrArg (Expr.negation · 0) hinner)
  split
  · exact hconstant _
  · exact hconstant _
  · next name =>
      apply EchoesAt.nextKind_bind
      intro kind
      split
      · exact echoesAt_functionCall hexpression (hsound depth) (hsound depth') name
      · exact (echoesAt_variableRef hexpression name).bind echoes_ofVariable
  · exact hgroup _
  · exact hnegation _
  · exact echoes_unexpected .factor _

theorem echoes_expression : Echoes bound bound' Expr.unlined expression expression :=
  echoes_of_depth fun depth depth' => echoes_expressionOf
    (echoes_by_depth echoes_factorWithin_succ depth depth') (reads_factor depth)
    (reads_factor depth')

/-! ### Types -/

theorem echoes_enumType : Echoes bound bound' TypeExpr.unlined enumType enumType := by
  intro token
  apply EchoesAt.within
  refine quiet_currentLine.bind fun line line' =>
    (echoes_mark .leftParen token).bind fun _ _ _ => ?_
  have hsound : Sound identifier (oneOf [.name]) := (@reads_identifier 0).sound
  refine (echoes_identifier.separated hsound hsound).bind fun literals literals' hliterals => ?_
  exact (echoes_mark .rightParen).bind fun _ _ _ =>
    echoes_pure (congrArg (TypeExpr.enumeration · 0) hliterals)

/-- A range, once its first constant is read. -/
theorem echoes_rangeType_rest {low low' : Constant} (hlow : low.unlined = low'.unlined)
    (line line' : Nat) :
    Echoes bound bound' TypeExpr.unlined
      (mark .range >>= fun _ => constant >>= fun high => pure (TypeExpr.range low high line))
      (mark .range >>= fun _ => constant >>= fun high => pure (TypeExpr.range low' high line')) :=
  (echoes_mark .range).bind fun _ _ _ => echoes_constant.bind fun _ _ hhigh =>
    echoes_pure (congrArg₂ (TypeExpr.range · · 0) hlow hhigh)

theorem echoes_rangeType : Echoes bound bound' TypeExpr.unlined rangeType rangeType := by
  intro token
  apply EchoesAt.within
  exact quiet_currentLine.bind fun line line' => (echoes_constant token).bind fun low low' hlow =>
    echoes_rangeType_rest hlow line line'

theorem echoesAt_rangeType_name (name : String) :
    EchoesAt 1 (.name name) bound bound' TypeExpr.unlined rangeType rangeType := by
  apply EchoesAt.within
  exact quiet_currentLine.bind fun line line' =>
    (echoesAt_constant_name name).bind fun low low' hlow => echoes_rangeType_rest hlow line line'

theorem echoes_typeWithin_succ (depth depth' : Nat)
    (h : Echoes depth depth' TypeExpr.unlined (typeWithin depth) (typeWithin depth')) :
    Echoes (depth + 1) (depth' + 1) TypeExpr.unlined (typeWithin (depth + 1))
      (typeWithin (depth' + 1)) := by
  intro token
  apply EchoesAt.within
  apply EchoesAt.current_bind
  split
  · apply EchoesAt.within
    refine quiet_currentLine.bind fun line line' => ?_
    refine ((echoes_word .array) _).bind_of_productive (productive_word .array) fun _ _ _ => ?_
    refine (echoes_mark .leftBracket).bind fun _ _ _ => ?_
    refine h.bind fun index index' hindex => ?_
    refine (echoes_mark .rightBracket).bind fun _ _ _ => (echoes_word .of).bind fun _ _ _ => ?_
    exact h.bind fun element element' helement =>
      echoes_pure (congrArg₂ (TypeExpr.array · · 0) hindex helement)
  · exact echoes_enumType _
  · next name =>
      apply EchoesAt.nextKind_bind
      intro kind
      split
      · exact echoesAt_rangeType_name name
      · exact (echoesAt_typeName name).bind fun _ _ href =>
          echoes_pure (congrArg TypeExpr.named href)
  · exact echoes_rangeType _
  · exact echoes_rangeType _
  · exact echoes_unexpected .type _

theorem echoes_type : Echoes bound bound' TypeExpr.unlined type type :=
  echoes_of_depth (echoes_by_depth echoes_typeWithin_succ)

/-! ### Statements -/

theorem echoesAt_assignment (name : String) :
    EchoesAt 1 (.name name) (bound + 1) (bound' + 1) Statement.unlined assignment assignment := by
  apply EchoesAt.within
  refine (echoesAt_variableRef echoes_expression name).bind
    fun (target, index) (target', index') h => ?_
  obtain ⟨htarget, hindex⟩ := Prod.mk.inj h
  refine (echoes_mark .assign).bind fun _ _ _ =>
    echoes_expression.bind fun value value' hvalue => ?_
  apply echoes_pure
  change Statement.assign target.unlined (index.map Expr.unlined) value.unlined = _
  rw [htarget, hindex, hvalue]
  rfl

theorem echoesAt_procedureCall (name : String) :
    EchoesAt 1 (.name name) (bound + 1) (bound' + 1) Statement.unlined procedureCall
      procedureCall := by
  apply EchoesAt.within
  refine (echoesAt_reference name).bind fun ref ref' href => ?_
  have hsound : Sound expression (words Production.expression) := (@reads_expression 0).sound
  apply Echoes.sees_bind
  · refine (echoes_arguments echoes_expression hsound hsound).bind fun args args' hargs => ?_
    apply echoes_pure
    simp only [Statement.unlined, Statement.relined, Expr.relinedAll_eq_map]
    exact congrArg₂ Statement.call href hargs
  · exact echoes_pure (congrArg (Statement.call · []) href)

section

variable {statement statement' : Reader Statement}

theorem echoes_statementListOf {words words' : Language Token.Kind}
    (h : Echoes bound bound' Statement.unlined statement statement')
    (hsound : Sound statement words) (hsound' : Sound statement' words') :
    Echoes bound bound' (List.map Statement.unlined) (statementListOf statement)
      (statementListOf statement') :=
  (h.separated hsound hsound').within .statementList

theorem echoes_compoundOf {words words' : Language Token.Kind}
    (h : Echoes bound bound' Statement.unlined statement statement')
    (hsound : Sound statement words) (hsound' : Sound statement' words') :
    Echoes (bound + 1) (bound' + 1) Statement.unlined (compoundOf statement)
      (compoundOf statement') := by
  intro token
  apply EchoesAt.within
  refine quiet_currentLine.bind fun line line' => ?_
  refine (echoes_word .begin_ token).bind_of_productive (productive_word .begin_) fun _ _ _ => ?_
  refine (echoes_statementListOf h hsound hsound').bind fun body body' hbody => ?_
  refine (echoes_word .end_).bind fun _ _ _ => echoes_pure ?_
  simp only [Statement.unlined, Statement.relined, Statement.relinedAll_eq_map]
  exact congrArg (Statement.compound · 0) hbody

theorem echoes_ifOf (h : Echoes bound bound' Statement.unlined statement statement') :
    Echoes (bound + 1) (bound' + 1) Statement.unlined (ifOf statement) (ifOf statement') := by
  intro token
  apply EchoesAt.within
  refine quiet_currentLine.bind fun line line' => ?_
  refine (echoes_word .if_ token).bind_of_productive (productive_word .if_) fun _ _ _ => ?_
  refine echoes_expression.bind fun condition condition' hcondition => ?_
  refine (echoes_word .then_).bind fun _ _ _ => ?_
  refine h.bind fun consequence consequence' hconsequence => ?_
  apply Echoes.sees_bind
  · refine (echoes_word .else_).bind fun _ _ _ => h.bind fun other other' hother => echoes_pure ?_
    change Statement.ifElse condition.unlined consequence.unlined other.unlined 0 = _
    rw [hcondition, hconsequence, hother]
    rfl
  · exact echoes_pure (congrArg₂ (Statement.ifThen · · 0) hcondition hconsequence)

theorem echoes_whileOf (h : Echoes bound bound' Statement.unlined statement statement') :
    Echoes (bound + 1) (bound' + 1) Statement.unlined (whileOf statement) (whileOf statement') := by
  intro token
  apply EchoesAt.within
  refine quiet_currentLine.bind fun line line' => ?_
  refine (echoes_word .while_ token).bind_of_productive (productive_word .while_) fun _ _ _ => ?_
  refine echoes_expression.bind fun condition condition' hcondition => ?_
  refine (echoes_word .do_).bind fun _ _ _ => h.bind fun body body' hbody => ?_
  exact echoes_pure (congrArg₂ (Statement.whileDo · · 0) hcondition hbody)

end

theorem echoes_statementWithin_succ (depth depth' : Nat)
    (h : Echoes depth depth' Statement.unlined (statementWithin depth) (statementWithin depth')) :
    Echoes (depth + 1) (depth' + 1) Statement.unlined (statementWithin (depth + 1))
      (statementWithin (depth' + 1)) := by
  have hempty (line line' : Nat) : Echoes (depth + 1) (depth' + 1) Statement.unlined
      (pure (.empty line)) (pure (.empty line')) := echoes_pure rfl
  intro token
  apply EchoesAt.within
  apply EchoesAt.current_bind
  split
  · next name =>
      apply EchoesAt.nextKind_bind
      intro kind
      split
      · exact echoesAt_assignment name
      · exact echoesAt_procedureCall name
  · exact echoes_compoundOf h (readsStatements_within depth).sound
      (readsStatements_within depth').sound _
  · exact echoes_ifOf h _
  · exact echoes_whileOf h _
  · exact quiet_currentLine.bind fun line line' => hempty line line' _

theorem echoes_statementList :
    Echoes bound bound' (List.map Statement.unlined) statementList statementList :=
  echoes_of_depth fun depth depth' => echoes_statementListOf
    (echoes_by_depth echoes_statementWithin_succ depth depth') (readsStatements_within depth).sound
    (readsStatements_within depth').sound

/-! ### Declarations -/

theorem echoes_constDecl :
    Echoes bound bound' (Prod.map Ident.unlined Constant.unlined) constDecl constDecl := by
  apply Echoes.within
  refine echoes_identifier.bind fun ident ident' hident => ?_
  refine (echoes_mark .equal).bind fun _ _ _ => echoes_constant.bind fun value value' hvalue => ?_
  exact (echoes_mark .semicolon).bind fun _ _ _ => echoes_pure (congrArg₂ Prod.mk hident hvalue)

/-- A name, a symbol, a type and a semicolon. -/
theorem echoes_typed (symbol : Symbol) (production : Production) :
    Echoes bound bound' (Prod.map Ident.unlined TypeExpr.unlined)
      (within production do
        let ident ← identifier
        mark symbol
        let type ← type
        mark .semicolon
        return (ident, type))
      (within production do
        let ident ← identifier
        mark symbol
        let type ← type
        mark .semicolon
        return (ident, type)) := by
  apply Echoes.within
  refine echoes_identifier.bind fun ident ident' hident => ?_
  refine (echoes_mark symbol).bind fun _ _ _ => echoes_type.bind fun type type' htype => ?_
  exact (echoes_mark .semicolon).bind fun _ _ _ => echoes_pure (congrArg₂ Prod.mk hident htype)

theorem echoes_paramDecl :
    Echoes bound bound' (Prod.map Ident.unlined NameRef.unlined) paramDecl paramDecl := by
  apply Echoes.within
  refine echoes_identifier.bind fun ident ident' hident => ?_
  exact (echoes_mark .colon).bind fun _ _ _ => echoes_typeName.bind fun _ _ href =>
    echoes_pure (congrArg₂ Prod.mk hident href)

theorem echoes_optionalParams :
    Echoes bound bound' (List.map (Prod.map Ident.unlined NameRef.unlined)) optionalParams
      optionalParams := by
  apply Echoes.sees_bind
  · apply Echoes.within
    refine (echoes_mark .leftParen).bind fun _ _ _ => ?_
    have hsound : Sound paramDecl (words Production.paramDecl) := (@reads_paramDecl 0).sound
    refine (echoes_paramDecl.separated hsound hsound).bind fun params params' hparams => ?_
    exact (echoes_mark .rightParen).bind fun _ _ _ => echoes_pure hparams
  · exact echoes_pure rfl

theorem echoes_sectionOf {α β : Type} {view : α → β} {decl : Reader α}
    {words : Language Token.Kind} (h : Echoes bound bound' view decl decl)
    (hsound : Sound decl words) (hstarts : Starts [.name] words) (production : Production)
    (keyword : Keyword) :
    Echoes bound bound' (List.map view) (sectionOf production keyword decl)
      (sectionOf production keyword decl) := by
  apply Echoes.within
  have hproductive := hsound.productive hstarts
  exact (echoes_word keyword).bind fun _ _ _ => h.many1 hproductive hproductive rfl

section

variable {block block' : Reader Block}

theorem echoes_procedureOf (h : Echoes bound bound' Block.unlined block block') :
    Echoes (bound + 1) (bound' + 1) Part.unlined (procedureOf block) (procedureOf block') := by
  intro token
  apply EchoesAt.within
  refine quiet_currentLine.bind fun line line' => ?_
  refine (echoes_word .procedure token).bind_of_productive (productive_word .procedure)
    fun _ _ _ => ?_
  refine echoes_takeName.bind fun name name' hname => ?_
  refine echoes_optionalParams.bind fun params params' hparams => ?_
  refine (echoes_mark .semicolon).bind fun _ _ _ => h.bind fun body body' hbody => ?_
  refine (echoes_mark .semicolon).bind fun _ _ _ => echoes_pure ?_
  obtain rfl : name = name' := hname
  exact congrArg₂ (fun params => Part.routine { name, line := 0, params, result := none }) hparams
    hbody

theorem echoes_functionOf (h : Echoes bound bound' Block.unlined block block') :
    Echoes (bound + 1) (bound' + 1) Part.unlined (functionOf block) (functionOf block') := by
  intro token
  apply EchoesAt.within
  refine quiet_currentLine.bind fun line line' => ?_
  refine (echoes_word .function token).bind_of_productive (productive_word .function)
    fun _ _ _ => ?_
  refine echoes_takeName.bind fun name name' hname => ?_
  refine echoes_optionalParams.bind fun params params' hparams => ?_
  refine (echoes_mark .colon).bind fun _ _ _ =>
    echoes_typeName.bind fun result result' hresult => ?_
  refine (echoes_mark .semicolon).bind fun _ _ _ => h.bind fun body body' hbody => ?_
  refine (echoes_mark .semicolon).bind fun _ _ _ => echoes_pure ?_
  obtain rfl : name = name' := hname
  have hheading : Heading.relined (fun _ => 0) { name, line, params, result := some result } =
      Heading.relined (fun _ => 0)
        { name, line := line', params := params', result := some result' } :=
    congrArg₂ (fun params result => Heading.mk name 0 params (some result)) hparams hresult
  exact congrArg₂ Part.routine hheading hbody

theorem echoes_partOf (h : Echoes bound bound' Block.unlined block block') :
    Echoes (bound + 1) (bound' + 1) Part.unlined (partOf block) (partOf block') := by
  have hconsts : Echoes (bound + 1) (bound' + 1) Part.unlined
      (sectionOf .constPart .const constDecl >>= fun decls => pure (.constants decls))
      (sectionOf .constPart .const constDecl >>= fun decls => pure (.constants decls)) :=
    (echoes_sectionOf echoes_constDecl (@reads_constDecl 0).sound starts_constDecl .constPart
      .const).bind fun _ _ hdecls => echoes_pure (congrArg Part.constants hdecls)
  have htypes : Echoes (bound + 1) (bound' + 1) Part.unlined
      (sectionOf .typePart .type typeDecl >>= fun decls => pure (.types decls))
      (sectionOf .typePart .type typeDecl >>= fun decls => pure (.types decls)) :=
    (echoes_sectionOf (echoes_typed .equal .typeDecl) (@reads_typeDecl 0).sound starts_typeDecl
      .typePart .type).bind fun _ _ hdecls => echoes_pure (congrArg Part.types hdecls)
  have hvars : Echoes (bound + 1) (bound' + 1) Part.unlined
      (sectionOf .varPart .var varDecl >>= fun decls => pure (.vars decls))
      (sectionOf .varPart .var varDecl >>= fun decls => pure (.vars decls)) :=
    (echoes_sectionOf (echoes_typed .colon .varDecl) (@reads_varDecl 0).sound starts_varDecl
      .varPart .var).bind fun _ _ hdecls => echoes_pure (congrArg Part.vars hdecls)
  apply Echoes.current_bind
  intro token
  split
  · exact hconsts _
  · exact htypes _
  · exact hvars _
  · exact echoes_functionOf h _
  · exact echoes_procedureOf h _

end

/-! ### Blocks -/

theorem echoes_blockWithin_succ (depth depth' : Nat)
    (h : Echoes depth depth' Block.unlined (blockWithin depth) (blockWithin depth')) :
    Echoes (depth + 1) (depth' + 1) Block.unlined (blockWithin (depth + 1))
      (blockWithin (depth' + 1)) := by
  have hproductive (depth : Nat) : Productive (partOf (blockWithin depth)) :=
    (reads_partOf (reads_blockWithin depth)).sound.productive starts_declarationParts
  intro token
  apply EchoesAt.within
  refine quiet_currentLine.bind fun line line' => ?_
  refine ((echoes_partOf h).many (hproductive depth) (hproductive depth') rfl token).bind
    fun parts parts' hparts => ?_
  refine (echoes_word .begin_).bind fun _ _ _ => ?_
  refine echoes_statementList.bind fun statements statements' hstatements => ?_
  refine (echoes_word .end_).bind fun _ _ _ => echoes_pure ?_
  simp only [Block.unlined, Block.relined, Part.relinedAll_eq_map, Statement.relinedAll_eq_map]
  exact congrArg₂ (Block.mk 0) hparts hstatements

theorem echoes_block : Echoes bound bound' Block.unlined block block :=
  echoes_of_depth (echoes_by_depth echoes_blockWithin_succ)

/-! ### Programs -/

/-- What a program begins with: its line and its name. -/
def programHeading : Reader (Nat × String) := do
  modify fun cursor => { cursor with events := .enter .program :: cursor.events }
  let line ← currentLine
  word .program
  return (line, ← takeName)

/-- The name of a program is the title from then on. -/
def entitle (name : String) : Reader PUnit :=
  modify fun cursor => { cursor with title? := some name }

def programEnd (outline : Outline) : Reader Outline := do
  if (← current).kind = .endOfFile then
    return outline
  else
    unexpected (.token .endOfFile)

/-- What follows the name of a program. -/
def programRest (heading : Nat × String) : Reader Outline := do
  mark .semicolon
  let body ← block
  mark .dot
  let outline ← programEnd { name := heading.2, line := heading.1, body }
  modify fun cursor => { cursor with events := .leave .program :: cursor.events }
  return outline

theorem program_eq : program = programHeading >>= fun heading =>
    entitle heading.2 >>= fun _ => programRest heading := by
  simp only [program, Reader.within, programHeading, entitle, programRest, programEnd, bind_assoc,
    pure_bind]

theorem echoes_programHeading :
    Echoes bound bound' (Prod.map (fun _ => 0) id) programHeading programHeading := by
  intro token
  refine (quiet_record (.enter .program)).bind fun _ _ => ?_
  refine quiet_currentLine.bind fun line line' => ?_
  refine (echoes_word .program token).bind fun _ _ _ =>
    echoes_takeName.bind fun name name' hname => ?_
  exact echoes_pure (congrArg (Prod.mk 0) hname)

theorem echoes_programEnd {outline outline' : Outline} (h : outline.unlined = outline'.unlined) :
    Echoes bound bound' unlined (programEnd outline) (programEnd outline') := by
  apply Echoes.current_bind
  intro token
  split
  · exact echoes_pure h token
  · exact echoes_unexpected _ token

theorem echoes_programRest {heading heading' : Nat × String}
    (h : Prod.map (fun _ => 0) id heading = Prod.map (fun _ => 0) id heading') :
    Echoes bound bound' unlined (programRest heading) (programRest heading') := by
  obtain ⟨line, name⟩ := heading
  obtain ⟨line', name'⟩ := heading'
  obtain ⟨-, hname⟩ := Prod.mk.inj h
  obtain rfl : name = name' := hname
  refine (echoes_mark .semicolon).bind fun _ _ _ => echoes_block.bind fun body body' hbody => ?_
  refine (echoes_mark .dot).bind fun _ _ _ => ?_
  have houtline : unlined { name, line, body } = unlined { name, line := line', body := body' } :=
    congrArg (Outline.mk name 0) hbody
  refine (echoes_programEnd houtline).bind fun outline outline' h => ?_
  exact fun token => (quiet_record (.leave .program)).bind fun _ _ => echoes_pure h token

/-- A program has the name that it was entitled with. -/
theorem name_of_programRest {heading : Nat × String} {cursor final : Cursor} {outline : Outline}
    (h : (programRest heading).run cursor = .ok outline final) : outline.name = heading.2 := by
  obtain ⟨_, _, -, h⟩ := run_bind_eq_ok_iff.mp h
  obtain ⟨body, _, -, h⟩ := run_bind_eq_ok_iff.mp h
  obtain ⟨_, _, -, h⟩ := run_bind_eq_ok_iff.mp h
  obtain ⟨found, middle, hend, h⟩ := run_bind_eq_ok_iff.mp h
  cases h
  unfold programEnd at hend
  rw [run_current_bind] at hend
  split at hend
  · cases hend
    rfl
  · cases hend

/-! ### Whole parses -/

theorem Cursor.iterate_advance_title (cursor : Cursor) (title? : Option String) (count : Nat) :
    Cursor.advance^[count] { cursor with title? } =
      { Cursor.advance^[count] cursor with title? } := by
  induction count generalizing cursor with
  | zero => rfl
  | succ count ih =>
      have hadvance : Cursor.advance { cursor with title? } = { cursor.advance with title? } := by
        unfold Cursor.advance
        simp only
        split <;> rfl
      rw [Function.iterate_succ_apply, Function.iterate_succ_apply, hadvance, ih]

/-- A title does not change the way. -/
theorem Cursor.Reaches.entitled {count : Nat} {cursor final : Cursor}
    (h : Cursor.Reaches count cursor final) (title? : Option String) :
    Cursor.Reaches count { cursor with title? } { final with title? } where
  count_le := h.count_le
  same := by
    rw [Cursor.iterate_advance_title]
    exact ⟨h.same.rest, h.same.line, rfl⟩

/-- A program is read by its heading, and by what follows under its title. -/
theorem run_program (cursor : Cursor) :
    program.run cursor = match programHeading.run cursor with
      | .ok heading middle => (programRest heading).run { middle with title? := some heading.2 }
      | .error error final => .error error final := by
  rw [program_eq]
  change EStateM.bind programHeading _ cursor = _
  unfold EStateM.bind EStateM.run
  cases programHeading cursor <;> rfl

/-- What follows a heading is read alike under a heading that is the same up to lines. -/
theorem exists_stops_programRest (heading : Nat × String) (cursor : Cursor) :
    ∃ count,
      Stops count { cursor with title? := some heading.2 }
        ((programRest heading).run { cursor with title? := some heading.2 }) ∧
      ∀ (heading' : Nat × String) (cursor' : Cursor),
        Prod.map (fun _ => 0) id heading = Prod.map (fun _ => 0) id heading' →
        Cursor.Agrees count cursor cursor' →
          Stops count { cursor' with title? := some heading'.2 }
            ((programRest heading').run { cursor' with title? := some heading'.2 }) ∧
          Alike unlined ((programRest heading).run { cursor with title? := some heading.2 })
            ((programRest heading').run { cursor' with title? := some heading'.2 }) := by
  have hechoes (heading' : Nat × String)
      (same : Prod.map (fun _ => 0) id heading = Prod.map (fun _ => 0) id heading') :=
    Echoes.unbounded (fun bound bound' => @echoes_programRest bound bound' heading heading' same)
      { cursor with title? := some heading.2 }
  obtain ⟨count, hstops, -⟩ := hechoes heading rfl
  refine ⟨count, hstops, fun heading' cursor' same hagrees => ?_⟩
  obtain ⟨again, hstopsAgain, hagree⟩ := hechoes heading' same
  obtain rfl := hstops.unique hstopsAgain
  exact hagree { cursor' with title? := some heading'.2 } ⟨hagrees.count_le, hagrees.ahead_eq⟩

/-- Two parses of tokens that agree up to the one after those that the first one takes
take as many and end alike, with the same title. -/
theorem exists_stops_program (tokens : List Located) :
    ∃ count title?,
      Stops count { Cursor.start tokens with title? } (program.run (.start tokens)) ∧
      (∀ outline final, program.run (.start tokens) = .ok outline final →
        title? = some outline.name) ∧
      ∀ tokens', Cursor.Agrees count (.start tokens) (.start tokens') →
        Stops count { Cursor.start tokens' with title? } (program.run (.start tokens')) ∧
          Alike unlined (program.run (.start tokens)) (program.run (.start tokens')) := by
  obtain ⟨count, hstops, hagree⟩ := Echoes.unbounded (fun bound bound' =>
    @echoes_programHeading bound bound') (.start tokens)
  simp only [run_program]
  revert hstops hagree
  cases programHeading.run (.start tokens) with
  | error error final =>
      intro hstops hagree
      refine ⟨count, none, hstops.of_error, nofun, fun tokens' hagrees => ?_⟩
      obtain ⟨hstops', halike⟩ := hagree _ hagrees
      obtain ⟨error', final', herror, expected⟩ := halike.exists_error
      rw [herror] at hstops' ⊢
      exact ⟨hstops'.of_error, .error expected⟩
  | ok heading final =>
      intro hstops hagree
      obtain ⟨count', hrest, hagreeRest⟩ := exists_stops_programRest heading final
      refine ⟨count + count', some heading.2, hrest.trans (hstops.reaches.entitled _), ?_, ?_⟩
      · intro outline last hrun
        rw [name_of_programRest hrun]
      · intro tokens' hagrees
        obtain ⟨hstops', halike⟩ := hagree _ (hagrees.mono (Nat.le_add_right _ _))
        obtain ⟨heading', final', hheading, same⟩ := halike.exists_ok
        rw [hheading] at hstops' ⊢
        have hname : heading.2 = heading'.2 := (Prod.mk.inj same).2
        obtain ⟨hlast, hends⟩ := hagreeRest heading' final' same
          (hagrees.drop hstops.reaches hstops'.reaches)
        refine ⟨?_, hends⟩
        rw [hname]
        exact hlast.trans (hstops'.reaches.entitled _)

theorem Cursor.title?_iterate (cursor : Cursor) (count : Nat) :
    (Cursor.advance^[count] cursor).title? = cursor.title? := by
  induction count generalizing cursor with
  | zero => rfl
  | succ count ih => rw [Function.iterate_succ_apply, ih, title?_advance]

/-- A parse that succeeds ends with the name of its program. -/
theorem title?_of_parse {tokens : List Located} {outline : Outline}
    (h : (parse tokens).result = .ok outline) : (parse tokens).title? = some outline.name := by
  obtain ⟨final, hrun⟩ := parse_result_eq_ok_iff.mp h
  obtain ⟨count, title?, hstops, htitle, -⟩ := exists_stops_program tokens
  have hname := htitle outline final hrun
  rw [hrun] at hstops
  unfold parse
  rw [hrun]
  change final.title? = _
  rw [hstops.reaches.same.title?, Cursor.title?_iterate, hname]

end MiniPascal.Outline
