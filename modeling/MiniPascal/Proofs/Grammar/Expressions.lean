import MiniPascal.Proofs.Grammar.Loops

/-!
# Reading expressions

The reader of each production of expressions reads the words of its rule.  What can
follow is what the rule could not go on with.
-/

namespace MiniPascal

open Token (Kind)
open scoped Computability

/-! ### Words of expressions -/

def constantKinds : List Kind :=
  [.number, .text, .name]

def signKinds : List Kind :=
  [.symbol .plus, .symbol .minus]

def multiplicativeKinds : List Kind :=
  [.symbol .star, .keyword .div, .keyword .mod, .keyword .and]

def additiveKinds : List Kind :=
  [.symbol .plus, .symbol .minus, .keyword .or]

def relationKinds : List Kind :=
  [.symbol .equal, .symbol .notEqual, .symbol .less, .symbol .lessEqual, .symbol .greater,
    .symbol .greaterEqual]

namespace Ebnf

theorem words_constant : words Production.constant = oneOf constantKinds := by
  rw [words_production, Production.rule, words_or, words_or, words_number, words_text, words_name,
    oneOf_add, oneOf_add]
  rfl

theorem words_term : words Production.term =
    words Production.factor * (oneOf multiplicativeKinds * words Production.factor)∗ := by
  rw [words_production, Production.rule, words_append, words_many, words_append]
  simp only [words_or, words_mark, words_word, oneOf_add]
  rfl

theorem words_simpleExpr : words Production.simpleExpr =
    oneOf signKinds * (words Production.term * (oneOf additiveKinds * words Production.term)∗) +
      words Production.term * (oneOf additiveKinds * words Production.term)∗ := by
  rw [words_production, Production.rule, words_append, words_append, words_many, words_append,
    words_optional, mul_assoc, add_mul, one_mul]
  simp only [words_or, words_mark, words_word, oneOf_add]
  rfl

theorem words_expression : words Production.expression =
    words Production.simpleExpr *
      (oneOf relationKinds * words Production.simpleExpr + 1) := by
  rw [words_production, Production.rule, words_append, words_optional, words_append]
  simp only [words_or, words_mark, oneOf_add]
  rfl

def arguments : Language Kind :=
  oneOf [.symbol .leftParen] *
    (words Production.expression * (oneOf [.symbol .comma] * words Production.expression)∗ *
      oneOf [.symbol .rightParen])

theorem words_functionCall : words Production.functionCall = oneOf [.name] * arguments := by
  rw [words_production, Production.rule, words_append, words_append, words_append, words_separated,
    words_name, words_mark, words_mark, words_mark, mul_assoc, mul_assoc]
  rfl

theorem words_variableRef : words Production.variableRef =
    oneOf [.name] * (oneOf [.symbol .leftBracket] *
      (words Production.expression * oneOf [.symbol .rightBracket]) + 1) := by
  rw [words_production, Production.rule, words_append, words_optional, words_append, words_append,
    words_name, words_mark, words_mark, mul_assoc]

/-- A name by itself is a variable without an index, so constants need not say it again. -/
theorem words_factor : words Production.factor =
    oneOf [.number, .text] + words Production.variableRef + words Production.functionCall +
      oneOf [.symbol .leftParen] * (words Production.expression * oneOf [.symbol .rightParen]) +
      oneOf [.keyword .not] * words Production.factor := by
  have hname : oneOf [.name] ≤ words Production.variableRef := by
    rw [words_variableRef, mul_add, mul_one]
    exact le_add_self
  have hconstant : oneOf constantKinds + words Production.variableRef =
      oneOf [.number, .text] + words Production.variableRef := by
    rw [show constantKinds = [.number, .text] ++ [.name] from rfl, ← oneOf_add, add_assoc,
      add_eq_right_iff_le.mpr hname]
  apply (words_production .factor).trans
  rw [Production.rule, words_or, words_or, words_or, words_or, words_append, words_append,
    words_append, words_mark, words_mark, words_word, words_constant, mul_assoc, hconstant]

/-! ### What begins a factor -/

def factorKinds : List Kind :=
  [.number, .text] ++ [.name] ++ [.name] ++ [.symbol .leftParen] ++ [.keyword .not]

theorem starts_factor : Starts factorKinds (words Production.factor) := by
  rw [words_factor, words_variableRef, words_functionCall]
  exact ((((starts_oneOf _).add ((starts_oneOf _).mul _)).add ((starts_oneOf _).mul _)).add
    ((starts_oneOf _).mul _)).add ((starts_oneOf _).mul _)

theorem starts_term : Starts factorKinds (words Production.term) := by
  rw [words_term]
  exact starts_factor.mul _

end Ebnf

/-! ### Operators -/

namespace Outline

open Reader Ebnf

theorem operators_sign : Operators Token.sign? signKinds where
  isSome_iff token := by
    unfold Token.sign?
    split <;> simp_all [signKinds, Token.kind_eq_symbol_iff]
  endOfFile_notMem := by decide

theorem operators_multiplicative : Operators Token.multiplicative? multiplicativeKinds where
  isSome_iff token := by
    unfold Token.multiplicative?
    split <;> simp_all [multiplicativeKinds, Token.kind_eq_symbol_iff, Token.kind_eq_keyword_iff]
  endOfFile_notMem := by decide

theorem operators_additive : Operators Token.additive? additiveKinds where
  isSome_iff token := by
    unfold Token.additive?
    split <;> simp_all [additiveKinds, Token.kind_eq_symbol_iff, Token.kind_eq_keyword_iff]
  endOfFile_notMem := by decide

theorem operators_relation : Operators Token.relation? relationKinds where
  isSome_iff token := by
    unfold Token.relation?
    split <;> simp_all [relationKinds, Token.kind_eq_symbol_iff]
  endOfFile_notMem := by decide

/-! ### What follows an expression -/

/-- What can follow a factor: a name would go on with an argument list or an index. -/
def AfterFactor (kind : Kind) : Prop :=
  kind ∉ [.symbol .leftParen, .symbol .leftBracket]
  deriving Decidable

def AfterTerm (kind : Kind) : Prop :=
  AfterFactor kind ∧ kind ∉ multiplicativeKinds
  deriving Decidable

def AfterSimpleExpr (kind : Kind) : Prop :=
  AfterTerm kind ∧ kind ∉ additiveKinds
  deriving Decidable

def AfterExpression (kind : Kind) : Prop :=
  AfterSimpleExpr kind ∧ kind ∉ relationKinds
  deriving Decidable

/-! ### Readers of expressions -/

variable {bound : Nat}

theorem reads_constant : Reads constant (oneOf constantKinds) Anything bound := by
  apply Reads.within
  apply still_currentLine.reads_bind
  intro line
  constructor
  · apply Sound.current_bind
    intro token
    have htake (kind : Kind) (hkind : kind ∈ constantKinds) (value : Constant) :
        SoundAt kind (advance >>= fun _ => pure value) (oneOf constantKinds) :=
      (soundAt_advance hkind (by decide)).bind_still fun _ => still_pure value
    cases token with
    | number value => exact htake .number (by decide) _
    | text value => exact htake .text (by decide) _
    | name word => exact htake .name (by decide) _
    | _ => exact sound_unexpected _ _ _
  · apply Complete.current_bind_starts (starts_oneOf constantKinds)
    intro token htoken
    have htake (value : Constant) :
        Complete (advance >>= fun _ => pure value) (oneOf constantKinds) Anything bound :=
      (complete_advance constantKinds).bind_still fun _ => still_pure value
    cases token with
    | number value => exact htake _
    | text value => exact htake _
    | name word => exact htake _
    | _ => simp [Token.kind, constantKinds] at htoken

theorem reads_reference : Reads reference (oneOf [.name]) Anything bound :=
  still_currentLine.reads_bind fun _ => reads_takeName.bind_still fun _ => still_pure _

theorem reads_identifier : Reads identifier (oneOf [.name]) Anything bound :=
  still_currentLine.reads_bind fun _ => reads_takeName.bind_still fun _ => still_pure _

section

variable {factor : Reader Expr}

theorem reads_termOf (h : Reads factor (words Production.factor) AfterFactor bound) :
    Reads (termOf factor) (words Production.term) AfterTerm bound := by
  rw [words_term]
  apply Reads.within
  have hitem : ∀ kind ∈ multiplicativeKinds, AfterFactor kind := by decide
  apply h.bind fun _ =>
    (h.operands operators_multiplicative hitem).bind_still fun _ => still_pure _
  exact ((starts_oneOf multiplicativeKinds).mul _).leads_kstar hitem fun _ => And.left

theorem reads_simpleExprOf (h : Reads factor (words Production.factor) AfterFactor bound) :
    Reads (simpleExprOf factor) (words Production.simpleExpr) AfterSimpleExpr bound := by
  rw [words_simpleExpr]
  apply Reads.within
  apply still_currentLine.reads_bind
  intro line
  have hitem : ∀ kind ∈ additiveKinds, AfterTerm kind := by decide
  have hterm := reads_termOf h
  have hmore (first : Expr) :
      Reads (operands Token.additive? (termOf factor) >>= fun others => pure (first.join others))
        (oneOf additiveKinds * words Production.term)∗ AfterSimpleExpr bound :=
    (hterm.operands operators_additive hitem).bind_still fun _ => still_pure _
  have hleads : Leads AfterTerm (oneOf additiveKinds * words Production.term)∗ AfterSimpleExpr :=
    ((starts_oneOf additiveKinds).mul _).leads_kstar hitem fun _ => And.left
  have hsigned (sign : Sign) := hterm.bind (fun term => hmore (.signed sign term line)) hleads
  have hplain := hterm.bind hmore hleads
  exact Reads.operator_or hsigned hplain operators_sign ((starts_term.mul _).leads (by decide))
    (fun hsome => by rw [hsome]; rfl) (fun hnone => by rw [hnone])

theorem reads_expressionOf (h : Reads factor (words Production.factor) AfterFactor bound) :
    Reads (expressionOf factor) (words Production.expression) AfterExpression bound := by
  rw [words_expression]
  apply Reads.within
  have hitem : ∀ kind ∈ relationKinds, AfterSimpleExpr kind := by decide
  have hsimple := reads_simpleExprOf h
  apply hsimple.bind
  · intro left
    have hright : Reads (simpleExprOf factor) (words Production.simpleExpr) AfterExpression bound :=
      hsimple.mono (fun _ => And.left) (Nat.le_refl bound)
    have hnone : Reads (pure left) 1 AfterExpression bound :=
      (still_pure left).reads.of_anything _
    exact Reads.operator_or (fun relation => hright.bind_still fun right =>
      still_pure (.comparison relation left right)) hnone operators_relation
      (leads_one fun _ => And.right) (fun hsome => by rw [hsome]) (fun hnone => by rw [hnone])
  · exact (((starts_oneOf relationKinds).mul _).leads hitem).add (leads_one fun _ => And.left)

end

section

variable {expression : Reader Expr}

theorem reads_arguments
    (h : Reads expression (words Production.expression) AfterExpression bound) :
    Reads (arguments expression) Ebnf.arguments Anything (bound + 1) := by
  apply (reads_mark .leftParen).token_bind
  intro _
  apply (h.separated (by decide)).bind
  · intro args
    exact (reads_mark .rightParen).bind_still fun _ => still_pure args
  · exact (starts_oneOf _).leads (by decide)

theorem reads_functionCall
    (h : Reads expression (words Production.expression) AfterExpression bound) :
    Reads (functionCall expression) (words Production.functionCall) Anything (bound + 1) := by
  rw [words_functionCall]
  apply Reads.within
  apply reads_reference.bind _ fun _ _ _ _ => trivial
  exact fun ref => (reads_arguments h).bind_still fun _ => still_pure _

theorem reads_variableRef
    (h : Reads expression (words Production.expression) AfterExpression bound) :
    Reads (variableRef expression) (words Production.variableRef) AfterFactor
      (bound + 1) := by
  rw [words_variableRef]
  apply Reads.within
  apply reads_reference.bind _ fun _ _ _ _ => trivial
  intro ref
  have hindex : Reads (mark .leftBracket >>= fun _ => expression >>= fun index =>
        mark .rightBracket >>= fun _ => pure (ref, some index))
      (oneOf [.symbol .leftBracket] *
        (words Production.expression * oneOf [.symbol .rightBracket])) Anything (bound + 1) := by
    apply (reads_mark .leftBracket).token_bind
    intro _
    apply h.bind _ ((starts_oneOf _).leads (by decide))
    exact fun index => (reads_mark .rightBracket).bind_still fun _ => still_pure _
  apply (hindex.sees_bind ((starts_oneOf _).mul _) (still_pure _)).mono _ (Nat.le_refl _)
  intro kind hkind
  exact ⟨trivial, fun heq => absurd (heq ▸ hkind) (by decide)⟩

end

/-! ### Factors -/

/-- What is made of a constant in a factor. -/
theorem still_ofConstant (constant : Constant) : Still (match constant with
    | .literal value line => pure (Expr.literal value line)
    | .named ref => pure (Expr.name ref) : Reader Expr) := by
  cases constant <;> exact still_pure _

/-- What is made of a variable in a factor. -/
theorem still_ofVariable (found : NameRef × Option Expr) : Still (match found with
    | (ref, some index) => pure (Expr.element ref index)
    | (ref, none) => pure (Expr.name ref) : Reader Expr) := by
  obtain ⟨ref, _ | index⟩ := found <;> exact still_pure _

theorem reads_group {expression : Reader Expr} {line : Nat}
    (h : Reads expression (words Production.expression) AfterExpression bound) :
    Reads (mark .leftParen >>= fun _ => expression >>= fun inner =>
        mark .rightParen >>= fun _ => pure (Expr.group inner line))
      (oneOf [.symbol .leftParen] * (words Production.expression * oneOf [.symbol .rightParen]))
      Anything (bound + 1) := by
  apply (reads_mark .leftParen).token_bind
  intro _
  apply h.bind _ ((starts_oneOf _).leads (by decide))
  exact fun inner => (reads_mark .rightParen).bind_still fun _ => still_pure _

theorem reads_negation {factor : Reader Expr} {line : Nat}
    (h : Reads factor (words Production.factor) AfterFactor bound) :
    Reads (word .not >>= fun _ => factor >>= fun inner => pure (Expr.negation inner line))
      (oneOf [.keyword .not] * words Production.factor) AfterFactor (bound + 1) :=
  (reads_word .not).token_bind fun _ => h.bind_still fun _ => still_pure _

theorem sound_factorWithin_succ {depth : Nat}
    (h : Reads (factorWithin depth) (words Production.factor) AfterFactor depth) :
    Sound (factorWithin (depth + 1)) (words Production.factor) := by
  have hexpression := reads_expressionOf h
  apply Sound.within
  apply still_currentLine.sound_bind
  intro line
  apply Sound.current_bind
  intro token
  have hliteral : Sound constant (words Production.factor) := by
    apply (@reads_constant 0).sound.mono
    rw [words_production, Production.rule, ← words_constant]
    exact fun _ hword => .left (.left (.left (.left hword)))
  rw [words_factor] at hliteral ⊢
  split
  · exact (hliteral .number).bind_still still_ofConstant
  · exact (hliteral .text).bind_still still_ofConstant
  · apply Sound.nextKind_bind
    intro next
    split
    · exact (reads_functionCall hexpression).sound.mono 
        fun _ hword => .inl (.inl (.inr hword))
    · exact ((reads_variableRef hexpression).bind_still still_ofVariable).sound.mono
        fun _ hword => .inl (.inl (.inl (.inr hword)))
  · exact (reads_group hexpression).sound.mono (fun _ hword => .inl (.inr hword)) _
  · exact (reads_negation h).sound.mono (fun _ hword => .inr hword) _
  · exact sound_unexpected _ _ _

theorem complete_factorWithin_succ {depth : Nat}
    (h : Reads (factorWithin depth) (words Production.factor) AfterFactor depth) :
    Complete (factorWithin (depth + 1)) (words Production.factor) AfterFactor (depth + 1) := by
  have hexpression := reads_expressionOf h
  rw [words_factor]
  apply Complete.within
  apply still_currentLine.complete_bind
  intro line
  refine (((Complete.add ?literal ?element).add ?call).add ?group).add ?negation
  case literal =>
    apply Complete.current_bind_starts (starts_oneOf _)
    intro token htoken
    have hliteral : Complete constant (oneOf [.number, .text]) AfterFactor (depth + 1) := by
      apply (reads_constant.complete.of_anything _).mono_words
      rintro _ ⟨kind, hkind, rfl⟩
      exact ⟨kind, List.mem_append_left [Kind.name] hkind, rfl⟩
    cases token with
    | number value => exact hliteral.bind_still still_ofConstant
    | text value => exact hliteral.bind_still still_ofConstant
    | _ => simp [Token.kind] at htoken
  case element =>
    have hvariable := ((reads_variableRef hexpression).bind_still still_ofVariable).complete
    rw [words_variableRef] at hvariable ⊢
    apply Complete.name_bind
    intro name
    have hnext : Leads (· ≠ .symbol .leftParen) (oneOf [.symbol .leftBracket] *
        (words Production.expression * oneOf [.symbol .rightBracket]) + 1) AfterFactor := by
      apply Leads.add
      · exact ((starts_oneOf _).mul _).leads (by decide)
      · exact leads_one fun kind hkind heq => absurd (heq ▸ hkind) (by decide)
    apply Complete.nextKind_bind hnext
    intro next hne
    rw [if_neg hne]
    exact hvariable
  case call =>
    have hcall := (reads_functionCall hexpression).complete.of_anything AfterFactor
    rw [words_functionCall] at hcall ⊢
    apply Complete.name_bind
    intro name
    have hnext : Leads (· = .symbol .leftParen) Ebnf.arguments AfterFactor :=
      ((starts_oneOf _).mul _).leads (by decide)
    apply Complete.nextKind_bind hnext
    intro next heq
    rw [if_pos heq]
    exact hcall
  case group =>
    apply Complete.symbol_bind
    exact (reads_group hexpression).complete.of_anything _
  case negation =>
    apply Complete.keyword_bind
    exact (reads_negation h).complete

theorem reads_factorWithin (depth : Nat) :
    Reads (factorWithin depth) (words Production.factor) AfterFactor depth := by
  induction depth with
  | zero => exact ⟨sound_unexpected _ _, Complete.zero _ _ _⟩
  | succ depth ih => exact ⟨sound_factorWithin_succ ih, complete_factorWithin_succ ih⟩

theorem reads_expression :
    Reads expression (words Production.expression) AfterExpression bound :=
  reads_of_depth fun depth => reads_expressionOf (reads_factorWithin depth)

end Outline

end MiniPascal
