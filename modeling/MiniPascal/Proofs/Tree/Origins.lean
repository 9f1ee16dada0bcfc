import MiniPascal.Proofs.Tree.Numbering
import MiniPascal.Proofs.Tree.Tokens

/-!
# Where the numbers of a tree come from

A numbered program says nothing that its text did not say: the literals of its constants
and statements are tokens of the text, and the code of an enumeration literal counts the
literals before it, each of which is a token.
-/

namespace MiniPascal

/-- Pieces that are separated are no more than the marks between them and one. -/
theorem length_le_separatedTokens (mark : Symbol) (pieces : List (List Token)) :
    pieces.length ≤ (separatedTokens mark pieces).length + 1 := by
  have hmarks : ∀ others : List (List Token),
      others.length ≤ (others.flatMap (.symbol mark :: ·)).length := by
    intro others
    induction others with
    | nil => exact Nat.le_refl 0
    | cons piece others ih =>
        rw [List.flatMap_cons, List.length_append, List.length_cons, List.length_cons]
        omega
  cases pieces with
  | nil => exact Nat.zero_le _
  | cons piece others =>
      have hothers := hmarks others
      rw [separatedTokens, List.length_append, List.length_cons]
      omega

/-- The tokens of a routine hold those of its body. -/
theorem body_infix_routineTokens (name : String) (params : List (List Token))
    (result : Option NameRef) (body : List Token) :
    body <:+: routineTokens name params result body := by
  cases result with
  | none =>
      exact ⟨.keyword .procedure :: .name name :: (parametersTokens params ++ [.symbol .semicolon]),
        [.symbol .semicolon], by simp [routineTokens]⟩
  | some type =>
      exact ⟨.keyword .function :: .name name :: (parametersTokens params ++
          [.symbol .colon, .name type.name, .symbol .semicolon]),
        [.symbol .semicolon], by simp [routineTokens]⟩

/-- What a declaration says in numbers comes from the tokens. -/
def DeclKind.ComesFrom (tokens : List Token) : DeclKind → Prop
  | .constant (.literal value _) => value.token ∈ tokens
  | .enumLiteral code => 0 ≤ code ∧ code < tokens.length
  | _ => True

/-- What has been numbered so far comes from the tokens. -/
structure Arena.ComesFrom (tokens : List Token) (arena : Arena) : Prop where
  statements : ∀ block ∈ arena.blocks, (Statement.tokensAll block.statements).Sublist tokens
  kind : ∀ decl ∈ arena.decls, decl.kind.ComesFrom tokens

namespace Arena.ComesFrom

variable {tokens : List Token} {arena : Arena}

theorem initial (tokens : List Token) : Arena.initial.ComesFrom tokens where
  statements block hblock := by
    obtain rfl := List.mem_singleton.mp (Array.mem_toList_iff.mpr hblock)
    exact List.nil_sublist tokens
  kind decl hdecl := absurd hdecl (Array.not_mem_empty decl)

theorem addDecl (h : arena.ComesFrom tokens) {decl : Decl} (hkind : decl.kind.ComesFrom tokens) :
    (Arena.addDecl decl arena).2.ComesFrom tokens where
  statements := h.statements
  kind other hother := by
    rcases Array.mem_push.mp hother with hold | rfl
    · exact h.kind other hold
    · exact hkind

theorem addBlock (h : arena.ComesFrom tokens) (enclosing : BlockId) (line : Nat) :
    (Arena.addBlock (.bare (some enclosing) line) arena).2.ComesFrom tokens where
  statements block hblock := by
    rcases Array.mem_push.mp hblock with hold | rfl
    · exact h.statements block hold
    · exact List.nil_sublist tokens
  kind := h.kind

/-- A block is filled in with its parts and statements. -/
theorem fill (h : arena.ComesFrom tokens) {statements : List Statement}
    (hstatements : (Statement.tokensAll statements).Sublist tokens) (id : BlockId)
    (parts : List DeclPart) :
    ComesFrom tokens { arena with blocks := arena.blocks.modify id fun block =>
      { block with parts, statements } } where
  statements block hblock := by
    obtain ⟨index, hindex⟩ := Array.mem_iff_getElem?.mp hblock
    rw [Array.getElem?_modify] at hindex
    split at hindex
    · obtain ⟨old, -, rfl⟩ := Option.map_eq_some_iff.mp hindex
      exact hstatements
    · exact h.statements block (Array.mem_of_getElem? hindex)
  kind := h.kind

end Arena.ComesFrom

namespace Outline

variable {tokens : List Token}

/-! ### Declarations -/

theorem numberLiterals_comesFrom (code : Nat) (idents : List Ident) {before : Arena}
    (h : before.ComesFrom tokens) (hcodes : code + idents.length ≤ tokens.length) :
    (numberLiterals code idents before).2.ComesFrom tokens := by
  induction idents generalizing code before with
  | nil => exact h
  | cons ident others ih =>
      rw [List.length_cons] at hcodes
      apply ih (code + 1) (h.addDecl _) (by omega)
      exact ⟨Int.natCast_nonneg code, Int.ofNat_lt.mpr (by omega)⟩

theorem numberType_comesFrom (type : TypeExpr Ident) {before : Arena} (h : before.ComesFrom tokens)
    (htokens : (type.tokens Ident.name).Sublist tokens) :
    (numberType type before).2.ComesFrom tokens := by
  induction type generalizing before with
  | named | range | builtin => exact h
  | array index element line ihIndex ihElement =>
      have hinside := List.sublist_of_cons_sublist (List.sublist_of_cons_sublist htokens)
      have hafter := (List.sublist_append_right _ _).trans hinside
      exact ihElement (ihIndex h ((List.sublist_append_left _ _).trans hinside))
        (List.sublist_of_cons_sublist (List.sublist_of_cons_sublist hafter))
  | enumeration idents line =>
      have hpieces := length_le_separatedTokens .comma
        (idents.map fun ident => [Token.name ident.name])
      have hwithin := htokens.length_le
      rw [TypeExpr.tokens, List.length_cons, List.length_append] at hwithin
      rw [List.length_map] at hpieces
      exact numberLiterals_comesFrom 0 idents h (by omega)

theorem numberAll_comesFrom {α : Type} (kind : α → DeclKind) (decls : List (Ident × α))
    {before : Arena} (h : before.ComesFrom tokens)
    (hkind : ∀ decl ∈ decls, (kind decl.2).ComesFrom tokens) :
    (numberAll kind decls before).2.ComesFrom tokens := by
  induction decls generalizing before with
  | nil => exact h
  | cons decl others ih =>
      obtain ⟨hfirst, hothers⟩ := List.forall_mem_cons.mp hkind
      exact ih (h.addDecl hfirst) hothers

theorem numberTyped_comesFrom {mark : Symbol} (kind : TypeExpr DeclId → DeclKind)
    (hkind : ∀ type, (kind type).ComesFrom tokens) (decls : List (Ident × TypeExpr Ident))
    {before : Arena} (h : before.ComesFrom tokens)
    (htokens : (decls.flatMap (typedTokens mark)).Sublist tokens) :
    (numberTyped kind decls before).2.ComesFrom tokens := by
  induction decls generalizing before with
  | nil => exact h
  | cons decl others ih =>
      obtain ⟨ident, type⟩ := decl
      rw [List.flatMap_cons] at htokens
      have hfirst := (List.sublist_append_left _ _).trans htokens
      have hcontent := List.sublist_of_cons_sublist (List.sublist_of_cons_sublist hfirst)
      have htype := numberType_comesFrom type h ((List.sublist_append_left _ _).trans hcontent)
      exact ih (htype.addDecl (hkind _)) ((List.sublist_append_right _ _).trans htokens)

/-! ### Blocks -/

mutual

theorem numberBlock_comesFrom (enclosing : BlockId) (outline : Block) {before : Arena}
    (h : before.ComesFrom tokens) (htokens : outline.tokens.Sublist tokens) :
    (numberBlock enclosing outline before).2.ComesFrom tokens := by
  cases outline with
  | mk line parts statements =>
      have hparts := numberParts_comesFrom before.blocks.size parts (h.addBlock enclosing line)
        ((List.sublist_append_left _ _).trans htokens)
      have hbody := (List.sublist_append_right _ _).trans htokens
      have hstatements := (List.sublist_append_left _ _).trans
        (List.sublist_of_cons_sublist hbody)
      exact hparts.fill hstatements _ _

theorem numberParts_comesFrom (block : BlockId) (parts : List Part) {before : Arena}
    (h : before.ComesFrom tokens) (htokens : (partsTokens parts).Sublist tokens) :
    (numberParts block parts before).2.ComesFrom tokens := by
  cases parts with
  | nil => exact h
  | cons part others =>
      have hpart := numberPart_comesFrom block part h ((List.sublist_append_left _ _).trans htokens)
      exact numberParts_comesFrom block others hpart ((List.sublist_append_right _ _).trans htokens)

theorem numberPart_comesFrom (block : BlockId) (part : Part) {before : Arena}
    (h : before.ComesFrom tokens) (htokens : part.tokens.Sublist tokens) :
    (numberPart block part before).2.ComesFrom tokens := by
  cases part with
  | constants decls =>
      apply numberAll_comesFrom .constant decls h
      intro decl hdecl
      cases hvalue : decl.2 with
      | named ref => trivial
      | literal value line =>
          have hmem : value.token ∈ constantTokens decl := by
            rw [constantTokens, hvalue]
            exact List.mem_cons_of_mem _ (List.mem_cons_of_mem _ List.mem_cons_self)
          exact htokens.subset (List.mem_cons_of_mem _ (List.mem_flatMap.mpr ⟨decl, hdecl, hmem⟩))
  | types decls =>
      exact numberTyped_comesFrom .type (fun _ => trivial) decls h
        (List.sublist_of_cons_sublist htokens)
  | vars decls =>
      exact numberTyped_comesFrom .variableOf (fun _ => trivial) decls h
        (List.sublist_of_cons_sublist htokens)
  | routine heading body =>
      have hparams := numberAll_comesFrom .parameter heading.params h fun _ _ => trivial
      have hinside := (body_infix_routineTokens heading.name (heading.params.map paramTokens)
        heading.result body.tokens).sublist
      exact (numberBlock_comesFrom block body hparams (hinside.trans htokens)).addDecl trivial

end

/-- **The numbers of a tree come from its text.** -/
theorem ofOutline_comesFrom (outline : Outline) :
    Arena.ComesFrom outline.tokens
      ⟨(Tree.ofOutline outline).blocks, (Tree.ofOutline outline).decls⟩ := by
  have hbody : outline.body.tokens <:+: outline.tokens :=
    ⟨[.keyword .program, .name outline.name, .symbol .semicolon], [.symbol .dot], rfl⟩
  exact numberBlock_comesFrom libraryBlock outline.body (.initial _) hbody.sublist

end Outline

/-! ### Annotated trees -/

mutual

theorem Expr.tokens_erased (expr : Expr) : expr.erased.tokens = expr.tokens := by
  cases expr with
  | literal | name => rfl
  | element ref index =>
      change (Expr.element ref.erased index.erased).tokens = _
      rw [tokens, tokens, index.tokens_erased]
      rfl
  | call ref args =>
      change (Expr.call ref.erased (Expr.erasedAll args)).tokens = _
      rw [tokens, tokens, Expr.tokensOfArguments_erased args]
      rfl
  | group inner line =>
      change (Expr.group inner.erased line).tokens = _
      rw [tokens, tokens, inner.tokens_erased]
  | negation operand line =>
      change (Expr.negation operand.erased line).tokens = _
      rw [tokens, tokens, operand.tokens_erased]
  | signed sign operand line =>
      change (Expr.signed sign operand.erased line).tokens = _
      rw [tokens, tokens, operand.tokens_erased]
  | binary op left right =>
      change (Expr.binary op left.erased right.erased).tokens = _
      rw [tokens, tokens, left.tokens_erased, right.tokens_erased]
  | comparison relation left right =>
      change (Expr.comparison relation left.erased right.erased).tokens = _
      rw [tokens, tokens, left.tokens_erased, right.tokens_erased]

theorem Expr.tokensOfArguments_erased (args : List Expr) :
    Expr.tokensOfArguments (Expr.erasedAll args) = Expr.tokensOfArguments args := by
  cases args with
  | nil => rfl
  | cons first others =>
      change Expr.tokensOfArguments (first.erased :: Expr.erasedAll others) = _
      rw [tokensOfArguments, tokensOfArguments, first.tokens_erased, Expr.tokensAfter_erased others]

theorem Expr.tokensAfter_erased (exprs : List Expr) :
    Expr.tokensAfter (Expr.erasedAll exprs) = Expr.tokensAfter exprs := by
  cases exprs with
  | nil => rfl
  | cons first others =>
      change Expr.tokensAfter (first.erased :: Expr.erasedAll others) = _
      rw [tokensAfter, tokensAfter, first.tokens_erased, Expr.tokensAfter_erased others]

end

mutual

theorem Statement.tokens_erased (statement : Statement) :
    statement.erased.tokens = statement.tokens := by
  cases statement with
  | assign target index value =>
      cases index with
      | none =>
          change (Statement.assign target.erased none value.erased).tokens = _
          rw [tokens, tokens, value.tokens_erased]
          rfl
      | some index =>
          change (Statement.assign target.erased (some index.erased) value.erased).tokens = _
          rw [tokens, tokens, value.tokens_erased, Expr.tokensIn?, Expr.tokensIn?,
            index.tokens_erased]
          rfl
  | compound body line =>
      change (Statement.compound (Statement.erasedAll body) line).tokens = _
      rw [tokens, tokens, Statement.tokensAll_erased body]
  | ifThen condition consequence line =>
      change (Statement.ifThen condition.erased consequence.erased line).tokens = _
      rw [tokens, tokens, condition.tokens_erased, consequence.tokens_erased]
  | ifElse condition consequence alternative line =>
      change
        (Statement.ifElse condition.erased consequence.erased alternative.erased line).tokens = _
      rw [tokens, tokens, condition.tokens_erased, consequence.tokens_erased,
        alternative.tokens_erased]
  | whileDo condition body line =>
      change (Statement.whileDo condition.erased body.erased line).tokens = _
      rw [tokens, tokens, condition.tokens_erased, body.tokens_erased]
  | call ref args =>
      change (Statement.call ref.erased (Expr.erasedAll args)).tokens = _
      rw [tokens, tokens, Expr.tokensOfArguments_erased args]
      rfl
  | empty line => rfl

theorem Statement.tokensAll_erased (statements : List Statement) :
    Statement.tokensAll (Statement.erasedAll statements) = Statement.tokensAll statements := by
  cases statements with
  | nil => rfl
  | cons first others =>
      change Statement.tokensAll (first.erased :: Statement.erasedAll others) = _
      rw [tokensAll, tokensAll, first.tokens_erased, Statement.tokensAfter_erased others]

theorem Statement.tokensAfter_erased (statements : List Statement) :
    Statement.tokensAfter (Statement.erasedAll statements) = Statement.tokensAfter statements := by
  cases statements with
  | nil => rfl
  | cons first others =>
      change Statement.tokensAfter (first.erased :: Statement.erasedAll others) = _
      rw [tokensAfter, tokensAfter, first.tokens_erased, Statement.tokensAfter_erased others]

end

theorem DeclKind.comesFrom_erased {tokens : List Token} {kind : DeclKind} :
    kind.erased.ComesFrom tokens ↔ kind.ComesFrom tokens := by
  cases kind with
  | constant value => cases value <;> exact Iff.rfl
  | type | variableOf | parameter | enumLiteral | routine => exact Iff.rfl

end MiniPascal
