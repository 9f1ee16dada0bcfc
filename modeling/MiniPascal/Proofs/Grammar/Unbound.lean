import MiniPascal.Proofs.Grammar.Dangling
import MiniPascal.Proofs.Tree.Erasure

/-!
# Outlines bind no names

A reader makes the uses of names that it reads, and makes them unbound.  Binding is left to
the check, so a piece of an outline is what is left of it without its bindings.
-/

namespace MiniPascal

/-! ### Pieces without bindings -/

/-- Joining operands without bindings binds nothing. -/
theorem Expr.erased_join {first : Expr} {others : List (BinaryOp × Expr)}
    (hfirst : first.erased = first) (hothers : ∀ operand ∈ others, operand.2.erased = operand.2) :
    (Expr.join first others).erased = Expr.join first others := by
  induction others generalizing first with
  | nil => exact hfirst
  | cons operand others ih =>
      obtain ⟨hoperand, hothers⟩ := List.forall_mem_cons.mp hothers
      exact ih (congrArg₂ (Expr.binary operand.1) hfirst hoperand) hothers

theorem Expr.erasedAll_eq_self {exprs : List Expr} (h : ∀ expr ∈ exprs, expr.erased = expr) :
    Expr.erasedAll exprs = exprs := by
  rw [Expr.erasedAll_eq_map, List.map_congr_left h, List.map_id']

theorem Statement.erasedAll_eq_self {statements : List Statement}
    (h : ∀ statement ∈ statements, statement.erased = statement) :
    Statement.erasedAll statements = statements := by
  induction statements with
  | nil => rfl
  | cons statement others ih =>
      obtain ⟨hfirst, hothers⟩ := List.forall_mem_cons.mp h
      exact congrArg₂ List.cons hfirst (ih hothers)

namespace Outline

mutual

/-- No name in the block is bound, nor in the blocks inside it. -/
def Block.Unbound : Block → Prop
  | .mk _ parts statements =>
    PartsUnbound parts ∧ Statement.erasedAll statements = statements

def PartsUnbound : List Part → Prop
  | [] => True
  | first :: others => first.Unbound ∧ PartsUnbound others

def Part.Unbound : Part → Prop
  | .constants decls => ∀ decl ∈ decls, decl.2.erased = decl.2
  | .types decls => ∀ decl ∈ decls, decl.2.erased = decl.2
  | .vars decls => ∀ decl ∈ decls, decl.2.erased = decl.2
  | .routine heading body =>
    (∀ param ∈ heading.params, param.2.erased = param.2) ∧
      heading.result.map NameRef.erased = heading.result ∧ body.Unbound

end

theorem partsUnbound_iff {parts : List Part} :
    PartsUnbound parts ↔ ∀ part ∈ parts, part.Unbound := by
  induction parts with
  | nil => exact iff_of_true trivial fun _ h => absurd h List.not_mem_nil
  | cons first others ih => rw [PartsUnbound, ih, List.forall_mem_cons]

mutual

/-- So none is bound in the statements of any block inside it. -/
theorem Block.Unbound.bodies {block : Block} (h : block.Unbound) :
    ∀ statements ∈ block.bodies, Statement.erasedAll statements = statements := by
  cases block with
  | mk line parts statements =>
      rw [Block.bodies, List.forall_mem_cons]
      exact ⟨h.2, partsBodies_unbound h.1⟩

theorem partsBodies_unbound {parts : List Part} (h : PartsUnbound parts) :
    ∀ statements ∈ partsBodies parts, Statement.erasedAll statements = statements := by
  cases parts with
  | nil => exact fun _ hmem => absurd hmem List.not_mem_nil
  | cons part others =>
      rw [partsBodies, List.forall_mem_append]
      exact ⟨h.1.bodies, partsBodies_unbound h.2⟩

theorem Part.Unbound.bodies {part : Part} (h : part.Unbound) :
    ∀ statements ∈ part.bodies, Statement.erasedAll statements = statements := by
  cases part with
  | constants | types | vars => exact fun _ hmem => absurd hmem List.not_mem_nil
  | routine heading body => exact h.2.2.bodies

end

/-! ### What readers give -/

namespace Reader

variable {α β : Type} {reader : Reader α} {property : α → Prop}

/-- Whatever is read, and whatever follows it, what the reader gives has a property. -/
def Makes (reader : Reader α) (property : α → Prop) : Prop :=
  ∀ kind, GivesAt kind reader fun value _ => property value

theorem Makes.bind {first : Reader β} {next : β → Reader α} {between : β → Prop}
    (h : Makes first between) (hnext : ∀ value, between value → Makes (next value) property) :
    Makes (first >>= next) property :=
  fun kind => (h kind).bind fun value kind hvalue => hnext value hvalue kind

/-- What is read before does not matter. -/
theorem makes_bind {first : Reader β} {next : β → Reader α}
    (hnext : ∀ value, Makes (next value) property) : Makes (first >>= next) property :=
  fun _ => givesAt_bind fun value kind => hnext value kind

theorem makes_pure {value : α} (h : property value) : Makes (pure value) property :=
  fun _ => givesAt_pure h

theorem makes_unexpected (expected : Expectation) : Makes (unexpected expected) property :=
  fun _ => givesAt_unexpected expected

theorem Makes.within (h : Makes reader property) (production : Production) :
    Makes (within production reader) property :=
  fun _ => GivesAt.within h production

theorem makes_of_depth {reader : Nat → Reader α} (h : ∀ depth, Makes (reader depth) property) :
    Makes (do reader ((← get).rest.length + 1)) property :=
  fun kind => givesAt_of_depth fun depth => h depth kind

theorem Makes.many {begins : Token → Bool} {item : Reader α} (h : Makes item property) :
    Makes (many begins item) fun values => ∀ value ∈ values, property value :=
  fun _ => givesAt_many h

theorem Makes.many1 {begins : Token → Bool} {item : Reader α} (h : Makes item property) :
    Makes (many1 begins item) fun values => ∀ value ∈ values, property value := by
  apply h.bind
  intro first hfirst
  apply h.many.bind
  exact fun others hothers => makes_pure (List.forall_mem_cons.mpr ⟨hfirst, hothers⟩)

theorem Makes.separated {symbol : Symbol} {item : Reader α} (h : Makes item property) :
    Makes (separated symbol item) fun values => ∀ value ∈ values, property value :=
  fun _ => givesAt_separated h

theorem Makes.operands {operator? : Token → Option β} {item : Reader α}
    (h : Makes item property) :
    Makes (operands operator? item) fun values => ∀ value ∈ values, property value.2 := by
  suffices hbounded : ∀ rounds, Makes (operandsAtMost operator? item rounds)
      fun values => ∀ value ∈ values, property value.2 from
    fun kind cursor final values hkind hrun =>
      hbounded cursor.rest.length kind cursor final values hkind hrun
  intro rounds
  induction rounds with
  | zero => exact makes_pure fun _ hvalue => absurd hvalue List.not_mem_nil
  | succ rounds ih =>
      apply makes_bind
      intro token
      split
      · apply makes_bind
        intro _
        apply h.bind
        intro first hfirst
        apply ih.bind
        exact fun others hothers => makes_pure (List.forall_mem_cons.mpr ⟨hfirst, hothers⟩)
      · exact makes_pure fun _ hvalue => absurd hvalue List.not_mem_nil

end Reader

open Reader

/-! ### Names and constants -/

theorem makes_constant : Makes constant fun value => value.erased = value := by
  apply Makes.within
  apply makes_bind
  intro line
  apply makes_bind
  intro token
  have htake : ∀ value : Constant, value.erased = value →
      Makes (advance >>= fun _ => pure value) fun value => value.erased = value :=
    fun value hvalue => makes_bind fun _ => makes_pure hvalue
  cases token with
  | number value => exact htake _ rfl
  | text value => exact htake _ rfl
  | name word => exact htake _ rfl
  | _ => exact makes_unexpected _

theorem makes_reference : Makes reference fun ref => ref.erased = ref :=
  makes_bind fun _ => makes_bind fun _ => makes_pure rfl

theorem makes_typeName : Makes typeName fun ref => ref.erased = ref :=
  makes_reference.within .typeName

/-! ### Expressions -/

section

variable {expression factor : Reader Expr}

theorem makes_termOf (h : Makes factor fun expr => expr.erased = expr) :
    Makes (termOf factor) fun expr => expr.erased = expr := by
  apply Makes.within
  apply h.bind
  intro first hfirst
  apply h.operands.bind
  exact fun others hothers => makes_pure (Expr.erased_join hfirst hothers)

theorem makes_simpleExprOf (h : Makes factor fun expr => expr.erased = expr) :
    Makes (simpleExprOf factor) fun expr => expr.erased = expr := by
  apply Makes.within
  apply makes_bind
  intro line
  have hterm := makes_termOf h
  have hmore (first : Expr) (hfirst : first.erased = first) :
      Makes (operands Token.additive? (termOf factor) >>= fun others =>
        pure (first.join others)) fun expr => expr.erased = expr := by
    apply hterm.operands.bind
    exact fun others hothers => makes_pure (Expr.erased_join hfirst hothers)
  apply makes_bind
  intro token
  cases token.sign? with
  | some sign =>
      apply makes_bind
      intro _
      apply hterm.bind
      exact fun term hterm => hmore _ (congrArg (Expr.signed sign · line) hterm)
  | none => exact hterm.bind hmore

theorem makes_expressionOf (h : Makes factor fun expr => expr.erased = expr) :
    Makes (expressionOf factor) fun expr => expr.erased = expr := by
  apply Makes.within
  have hsimple := makes_simpleExprOf h
  apply hsimple.bind
  intro left hleft
  apply makes_bind
  intro token
  cases token.relation? with
  | some relation =>
      apply makes_bind
      intro _
      apply hsimple.bind
      exact fun right hright => makes_pure (congrArg₂ (Expr.comparison relation) hleft hright)
  | none => exact makes_pure hleft

theorem makes_arguments (h : Makes expression fun expr => expr.erased = expr) :
    Makes (arguments expression) fun args => Expr.erasedAll args = args := by
  apply makes_bind
  intro _
  apply h.separated.bind
  intro args hargs
  apply makes_bind
  exact fun _ => makes_pure (Expr.erasedAll_eq_self hargs)

theorem makes_functionCall (h : Makes expression fun expr => expr.erased = expr) :
    Makes (functionCall expression) fun expr => expr.erased = expr := by
  apply Makes.within
  apply makes_reference.bind
  intro ref href
  apply (makes_arguments h).bind
  exact fun args hargs => makes_pure (congrArg₂ Expr.call href hargs)

/-- A variable's name is unbound, and so is its index if it has one. -/
theorem makes_variableRef (h : Makes expression fun expr => expr.erased = expr) :
    Makes (variableRef expression) fun found =>
      found.1.erased = found.1 ∧ ∀ index ∈ found.2, index.erased = index := by
  apply Makes.within
  apply makes_reference.bind
  intro ref href
  apply makes_bind
  intro seen
  split
  · apply makes_bind
    intro _
    apply h.bind
    intro index hindex
    apply makes_bind
    exact fun _ => makes_pure ⟨href, fun _ hmem => Option.mem_some.mp hmem ▸ hindex⟩
  · exact makes_pure ⟨href, nofun⟩

end

theorem makes_constantFactor :
    Makes (constant >>= fun
      | .literal value line => pure (Expr.literal value line)
      | .named ref => pure (Expr.name ref)) fun expr => expr.erased = expr := by
  apply makes_constant.bind
  intro value hvalue
  cases value with
  | literal => exact makes_pure rfl
  | named ref => exact makes_pure (congrArg Expr.name (Constant.named.inj hvalue))

theorem makes_factorWithin (depth : Nat) :
    Makes (factorWithin depth) fun expr => expr.erased = expr := by
  induction depth with
  | zero => exact makes_unexpected _
  | succ depth ih =>
      have hexpression := makes_expressionOf ih
      apply Makes.within
      apply makes_bind
      intro line
      apply makes_bind
      intro token
      split
      · exact makes_constantFactor
      · exact makes_constantFactor
      · apply makes_bind
        intro next
        split
        · exact makes_functionCall hexpression
        · apply (makes_variableRef hexpression).bind
          rintro ⟨ref, _ | index⟩ ⟨href, hindex⟩
          · exact makes_pure (congrArg Expr.name href)
          · exact makes_pure (congrArg₂ Expr.element href (hindex index rfl))
      · apply makes_bind
        intro _
        apply hexpression.bind
        intro inner hinner
        apply makes_bind
        exact fun _ => makes_pure (congrArg (Expr.group · line) hinner)
      · apply makes_bind
        intro _
        apply ih.bind
        exact fun operand hoperand => makes_pure (congrArg (Expr.negation · line) hoperand)
      · exact makes_unexpected _

theorem makes_expression : Makes expression fun expr => expr.erased = expr :=
  makes_of_depth fun depth => makes_expressionOf (makes_factorWithin depth)

/-! ### Types -/

theorem makes_rangeType : Makes rangeType fun type => type.erased = type := by
  apply Makes.within
  apply makes_bind
  intro line
  apply makes_constant.bind
  intro low hlow
  apply makes_bind
  intro _
  apply makes_constant.bind
  exact fun high hhigh => makes_pure (congrArg₂ (TypeExpr.range · · line) hlow hhigh)

theorem makes_enumType : Makes enumType fun type => type.erased = type := by
  apply Makes.within
  apply makes_bind
  intro line
  apply makes_bind
  intro _
  apply makes_bind
  intro literals
  apply makes_bind
  exact fun _ => makes_pure rfl

theorem makes_typeWithin (depth : Nat) :
    Makes (typeWithin depth) fun type => type.erased = type := by
  induction depth with
  | zero => exact makes_unexpected _
  | succ depth ih =>
      apply Makes.within
      apply makes_bind
      intro token
      split
      · apply Makes.within
        apply makes_bind
        intro line
        apply makes_bind
        intro _
        apply makes_bind
        intro _
        apply ih.bind
        intro index hindex
        apply makes_bind
        intro _
        apply makes_bind
        intro _
        apply ih.bind
        exact fun element helement =>
          makes_pure (congrArg₂ (TypeExpr.array · · line) hindex helement)
      · exact makes_enumType
      · apply makes_bind
        intro next
        split
        · exact makes_rangeType
        · exact makes_typeName.bind fun ref href => makes_pure (congrArg TypeExpr.named href)
      · exact makes_rangeType
      · exact makes_rangeType
      · exact makes_unexpected _

theorem makes_type : Makes type fun type => type.erased = type :=
  makes_of_depth makes_typeWithin

/-! ### Statements -/

theorem makes_assignment : Makes assignment fun statement => statement.erased = statement := by
  apply Makes.within
  apply (makes_variableRef makes_expression).bind
  rintro ⟨target, index⟩ ⟨htarget, hindex⟩
  apply makes_bind
  intro _
  apply makes_expression.bind
  intro value hvalue
  cases index with
  | none => exact makes_pure (congrArg₂ (Statement.assign · none) htarget hvalue)
  | some index =>
      apply makes_pure
      calc
        (Statement.assign target (some index) value).erased
          = .assign target.erased (some index.erased) value.erased := rfl
        _ = .assign target (some index) value := by rw [htarget, hindex index rfl, hvalue]

theorem makes_procedureCall :
    Makes procedureCall fun statement => statement.erased = statement := by
  apply Makes.within
  apply makes_reference.bind
  intro ref href
  apply makes_bind
  intro seen
  split
  · apply (makes_arguments makes_expression).bind
    exact fun args hargs => makes_pure (congrArg₂ Statement.call href hargs)
  · exact makes_pure (congrArg (Statement.call · []) href)

section

variable {statement : Reader Statement}

theorem makes_statementListOf (h : Makes statement fun value => value.erased = value) :
    Makes (statementListOf statement)
      fun statements => Statement.erasedAll statements = statements := by
  apply Makes.within
  rw [← bind_pure (separated Symbol.semicolon statement)]
  apply h.separated.bind
  exact fun statements hstatements => makes_pure (Statement.erasedAll_eq_self hstatements)

theorem makes_compoundOf (h : Makes statement fun value => value.erased = value) :
    Makes (compoundOf statement) fun value => value.erased = value := by
  apply Makes.within
  apply makes_bind
  intro line
  apply makes_bind
  intro _
  apply (makes_statementListOf h).bind
  intro body hbody
  apply makes_bind
  exact fun _ => makes_pure (congrArg (Statement.compound · line) hbody)

theorem makes_ifOf (h : Makes statement fun value => value.erased = value) :
    Makes (ifOf statement) fun value => value.erased = value := by
  apply Makes.within
  apply makes_bind
  intro line
  apply makes_bind
  intro _
  apply makes_expression.bind
  intro condition hcondition
  apply makes_bind
  intro _
  apply h.bind
  intro consequence hconsequence
  apply makes_bind
  intro seen
  split
  · apply makes_bind
    intro _
    apply h.bind
    intro alternative halternative
    apply makes_pure
    calc
      (Statement.ifElse condition consequence alternative line).erased
        = .ifElse condition.erased consequence.erased alternative.erased line := rfl
      _ = .ifElse condition consequence alternative line := by
        rw [hcondition, hconsequence, halternative]
  · exact makes_pure (congrArg₂ (Statement.ifThen · · line) hcondition hconsequence)

theorem makes_whileOf (h : Makes statement fun value => value.erased = value) :
    Makes (whileOf statement) fun value => value.erased = value := by
  apply Makes.within
  apply makes_bind
  intro line
  apply makes_bind
  intro _
  apply makes_expression.bind
  intro condition hcondition
  apply makes_bind
  intro _
  apply h.bind
  exact fun body hbody => makes_pure (congrArg₂ (Statement.whileDo · · line) hcondition hbody)

end

theorem makes_statementWithin (depth : Nat) :
    Makes (statementWithin depth) fun statement => statement.erased = statement := by
  induction depth with
  | zero => exact makes_unexpected _
  | succ depth ih =>
      apply Makes.within
      apply makes_bind
      intro token
      split
      · apply makes_bind
        intro next
        split
        · exact makes_assignment
        · exact makes_procedureCall
      · exact makes_compoundOf ih
      · exact makes_ifOf ih
      · exact makes_whileOf ih
      · exact makes_bind fun line => makes_pure rfl

theorem makes_statementList :
    Makes statementList fun statements => Statement.erasedAll statements = statements :=
  makes_of_depth fun depth => makes_statementListOf (makes_statementWithin depth)

/-! ### Declarations -/

theorem makes_constDecl : Makes constDecl fun decl => decl.2.erased = decl.2 := by
  apply Makes.within
  apply makes_bind
  intro ident
  apply makes_bind
  intro _
  apply makes_constant.bind
  intro value hvalue
  exact makes_bind fun _ => makes_pure hvalue

/-- A name, a symbol, a type and a semicolon. -/
theorem makes_typed (symbol : Symbol) (production : Production) :
    Makes (within production do
        let ident ← identifier
        mark symbol
        let type ← type
        mark .semicolon
        return (ident, type)) fun decl => decl.2.erased = decl.2 := by
  apply Makes.within
  apply makes_bind
  intro ident
  apply makes_bind
  intro _
  apply makes_type.bind
  intro type htype
  exact makes_bind fun _ => makes_pure htype

theorem makes_sectionOf {α : Type} {decl : Reader α} {property : α → Prop}
    (h : Makes decl property) (production : Production) (keyword : Keyword) :
    Makes (sectionOf production keyword decl) fun decls => ∀ decl ∈ decls, property decl :=
  (makes_bind fun _ => h.many1).within production

theorem makes_optionalParams :
    Makes optionalParams fun params => ∀ param ∈ params, param.2.erased = param.2 := by
  have hparam : Makes paramDecl fun param => param.2.erased = param.2 := by
    apply Makes.within
    apply makes_bind
    intro ident
    apply makes_bind
    intro _
    exact makes_typeName.bind fun type htype => makes_pure htype
  have hparams : Makes paramList fun params => ∀ param ∈ params, param.2.erased = param.2 := by
    apply Makes.within
    apply makes_bind
    intro _
    apply hparam.separated.bind
    intro params hparams
    exact makes_bind fun _ => makes_pure hparams
  apply makes_bind
  intro seen
  split
  · exact hparams
  · exact makes_pure fun _ hmem => absurd hmem List.not_mem_nil

section

variable {block : Reader Block}

theorem makes_procedureOf (h : Makes block Block.Unbound) :
    Makes (procedureOf block) Part.Unbound := by
  apply Makes.within
  apply makes_bind
  intro line
  apply makes_bind
  intro _
  apply makes_bind
  intro name
  apply makes_optionalParams.bind
  intro params hparams
  apply makes_bind
  intro _
  apply h.bind
  intro body hbody
  apply makes_bind
  exact fun _ => makes_pure ⟨hparams, rfl, hbody⟩

theorem makes_functionOf (h : Makes block Block.Unbound) :
    Makes (functionOf block) Part.Unbound := by
  apply Makes.within
  apply makes_bind
  intro line
  apply makes_bind
  intro _
  apply makes_bind
  intro name
  apply makes_optionalParams.bind
  intro params hparams
  apply makes_bind
  intro _
  apply makes_typeName.bind
  intro result hresult
  apply makes_bind
  intro _
  apply h.bind
  intro body hbody
  apply makes_bind
  exact fun _ => makes_pure ⟨hparams, congrArg some hresult, hbody⟩

theorem makes_partOf (h : Makes block Block.Unbound) : Makes (partOf block) Part.Unbound := by
  apply makes_bind
  intro token
  split
  · exact (makes_sectionOf makes_constDecl .constPart .const).bind
      fun decls hdecls => makes_pure hdecls
  · exact (makes_sectionOf (makes_typed .equal .typeDecl) .typePart .type).bind
      fun decls hdecls => makes_pure hdecls
  · exact (makes_sectionOf (makes_typed .colon .varDecl) .varPart .var).bind
      fun decls hdecls => makes_pure hdecls
  · exact makes_functionOf h
  · exact makes_procedureOf h

end

/-! ### Programs -/

theorem makes_blockWithin (depth : Nat) : Makes (blockWithin depth) Block.Unbound := by
  induction depth with
  | zero => exact makes_unexpected _
  | succ depth ih =>
      apply Makes.within
      apply makes_bind
      intro line
      apply (makes_partOf ih).many.bind
      intro parts hparts
      apply makes_bind
      intro _
      apply makes_statementList.bind
      intro statements hstatements
      apply makes_bind
      exact fun _ => makes_pure ⟨partsUnbound_iff.mpr hparts, hstatements⟩

theorem makes_program : Makes program fun outline => outline.body.Unbound := by
  apply Makes.within
  apply makes_bind
  intro line
  apply makes_bind
  intro _
  apply makes_bind
  intro name
  apply makes_bind
  intro _
  apply makes_bind
  intro _
  apply (makes_of_depth makes_blockWithin).bind
  intro body hbody
  apply makes_bind
  intro _
  apply makes_bind
  intro token
  split
  · exact makes_pure hbody
  · exact makes_unexpected _

/-- **Parsing binds nothing.** -/
theorem unbound_of_parse {tokens : List Located} {outline : Outline}
    (h : (parse tokens).result = .ok outline) : outline.body.Unbound := by
  obtain ⟨final, hrun⟩ := parse_result_eq_ok_iff.mp h
  exact makes_program _ _ _ _ rfl hrun

end Outline

end MiniPascal
