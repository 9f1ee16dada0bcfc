import MiniPascal.Proofs.Grammar.Expressions

/-!
# Reading types and declarations

A type that is a name is told from a range by the token after the name, so a type is not
followed by the symbol of ranges.  Everything else in a declaration ends with a token of
its own.
-/

namespace MiniPascal

open Token (Kind)
open scoped Computability

namespace Ebnf

theorem words_typeName : words Production.typeName = oneOf [.name] := by
  rw [words_production, Production.rule, words_name]

theorem words_arrayType : words Production.arrayType =
    oneOf [.keyword .array] * (oneOf [.symbol .leftBracket] * (words Production.type *
      (oneOf [.symbol .rightBracket] * (oneOf [.keyword .of] * words Production.type)))) := by
  rw [words_production, Production.rule, words_append, words_append, words_append, words_append,
    words_append, words_word, words_word, words_mark, words_mark, mul_assoc, mul_assoc, mul_assoc,
    mul_assoc]

theorem words_enumType : words Production.enumType =
    oneOf [.symbol .leftParen] * (oneOf [.name] * (oneOf [.symbol .comma] * oneOf [.name])∗ *
      oneOf [.symbol .rightParen]) := by
  rw [words_production, Production.rule, words_append, words_append, words_separated, words_name,
    words_mark, words_mark, words_mark, mul_assoc]

theorem words_rangeType : words Production.rangeType =
    oneOf constantKinds * (oneOf [.symbol .range] * oneOf constantKinds) := by
  rw [words_production, Production.rule, words_append, words_append, words_mark, words_constant,
    mul_assoc]

theorem words_type : words Production.type =
    oneOf [.name] + words Production.arrayType + words Production.enumType +
      words Production.rangeType := by
  rw [words_production, Production.rule, words_or, words_or, words_or, words_typeName]

theorem words_constDecl : words Production.constDecl =
    oneOf [.name] * (oneOf [.symbol .equal] * (oneOf constantKinds *
      oneOf [.symbol .semicolon])) := by
  rw [words_production, Production.rule, words_append, words_append, words_append, words_name,
    words_mark, words_mark, words_constant, mul_assoc, mul_assoc]

theorem starts_constDecl : Starts [.name] (words Production.constDecl) := by
  rw [words_constDecl]
  exact (starts_oneOf _).mul _

theorem words_typeDecl : words Production.typeDecl =
    oneOf [.name] * (oneOf [.symbol .equal] * (words Production.type *
      oneOf [.symbol .semicolon])) := by
  rw [words_production, Production.rule, words_append, words_append, words_append, words_name,
    words_mark, words_mark, mul_assoc, mul_assoc]

theorem starts_typeDecl : Starts [.name] (words Production.typeDecl) := by
  rw [words_typeDecl]
  exact (starts_oneOf _).mul _

theorem words_varDecl : words Production.varDecl =
    oneOf [.name] * (oneOf [.symbol .colon] * (words Production.type *
      oneOf [.symbol .semicolon])) := by
  rw [words_production, Production.rule, words_append, words_append, words_append, words_name,
    words_mark, words_mark, mul_assoc, mul_assoc]

theorem starts_varDecl : Starts [.name] (words Production.varDecl) := by
  rw [words_varDecl]
  exact (starts_oneOf _).mul _

theorem words_paramDecl : words Production.paramDecl =
    oneOf [.name] * (oneOf [.symbol .colon] * oneOf [.name]) := by
  rw [words_production, Production.rule, words_append, words_append, words_name, words_mark,
    words_typeName, mul_assoc]

theorem words_paramList : words Production.paramList =
    oneOf [.symbol .leftParen] * (words Production.paramDecl *
      (oneOf [.symbol .semicolon] * words Production.paramDecl)∗ *
        oneOf [.symbol .rightParen]) := by
  rw [words_production, Production.rule, words_append, words_append, words_separated, words_mark,
    words_mark, words_mark, mul_assoc]

end Ebnf

namespace Outline

open Reader Ebnf

variable {bound : Nat}

/-! ### Types -/

def AfterType (kind : Kind) : Prop :=
  kind ≠ .symbol .range
  deriving Decidable

theorem reads_typeName : Reads typeName (oneOf [.name]) Anything bound :=
  reads_reference.within .typeName

theorem reads_enumType : Reads enumType (words Production.enumType) Anything bound := by
  rw [words_enumType]
  apply Reads.within
  apply still_currentLine.reads_bind
  intro line
  apply (reads_mark .leftParen).bind _ fun _ _ _ _ => trivial
  intro _
  apply (reads_identifier.separated trivial).bind
  · intro literals
    exact (reads_mark .rightParen).bind_still fun _ => still_pure _
  · exact (starts_oneOf _).leads (by simp [Anything])

theorem reads_rangeType : Reads rangeType (words Production.rangeType) Anything bound := by
  rw [words_rangeType]
  apply Reads.within
  apply still_currentLine.reads_bind
  intro line
  apply reads_constant.bind _ fun _ _ _ _ => trivial
  intro low
  apply (reads_mark .range).bind _ fun _ _ _ _ => trivial
  exact fun _ => reads_constant.bind_still fun _ => still_pure _

theorem reads_arrayType {type : Reader (TypeExpr Ident)}
    (h : Reads type (words Production.type) AfterType bound) :
    Reads (within .arrayType do
        let line ← currentLine
        word .array
        mark .leftBracket
        let index ← type
        mark .rightBracket
        word .of
        return TypeExpr.array index (← type) line)
      (words Production.arrayType) AfterType (bound + 1) := by
  rw [words_arrayType]
  apply Reads.within
  apply still_currentLine.reads_bind
  intro line
  apply (reads_word .array).token_bind
  intro _
  apply (reads_mark .leftBracket).bind _ fun _ _ _ _ => trivial
  intro _
  apply h.bind _ (((starts_oneOf _).mul _).leads (by decide))
  intro index
  apply (reads_mark .rightBracket).bind _ fun _ _ _ _ => trivial
  intro _
  apply (reads_word .of).bind _ fun _ _ _ _ => trivial
  exact fun _ => h.bind_still fun _ => still_pure _

theorem reads_typeWithin_succ {depth : Nat}
    (h : Reads (typeWithin depth) (words Production.type) AfterType depth) :
    Reads (typeWithin (depth + 1)) (words Production.type) AfterType (depth + 1) := by
  have harray := reads_arrayType h
  have hname : Reads (typeName >>= fun ref => pure (TypeExpr.named ref : TypeExpr Ident))
      (oneOf [.name]) AfterType (depth + 1) :=
      (reads_typeName.bind_still fun _ => still_pure _).of_anything AfterType
  rw [words_type]
  apply Reads.within
  constructor
  · apply Sound.current_bind
    intro token
    split
    · exact harray.sound.mono (fun _ hword => .inl (.inl (.inr hword))) _
    · exact (@reads_enumType 0).sound.mono (fun _ hword => .inl (.inr hword)) _
    · apply Sound.nextKind_bind
      intro next
      split
      · exact (@reads_rangeType 0).sound.mono fun _ hword => .inr hword
      · exact hname.sound.mono fun _ hword => .inl (.inl (.inl hword))
    · exact (@reads_rangeType 0).sound.mono (fun _ hword => .inr hword) _
    · exact (@reads_rangeType 0).sound.mono (fun _ hword => .inr hword) _
    · exact sound_unexpected _ _ _
  · refine ((Complete.add ?name ?array).add ?enumeration).add ?range
    case name =>
      rw [← mul_one (oneOf [.name])] at hname ⊢
      have hnext : Leads (· ≠ .symbol .range) 1 AfterType := leads_one fun _ => id
      apply Complete.name_bind
      intro name
      apply Complete.nextKind_bind hnext
      intro next hne
      rw [if_neg hne]
      exact hname.complete
    case array =>
      rw [words_arrayType] at harray ⊢
      exact Complete.keyword_bind harray.complete
    case enumeration =>
      have henum := (@reads_enumType (depth + 1)).complete.of_anything AfterType
      rw [words_enumType] at henum ⊢
      exact Complete.symbol_bind henum
    case range =>
      have hrange : Complete rangeType (words Production.rangeType) AfterType (depth + 1) :=
        reads_rangeType.complete.of_anything _
      rw [words_rangeType] at hrange ⊢
      apply Complete.current_bind_starts ((starts_oneOf _).mul _)
      intro token htoken
      cases token with
      | number | text => exact hrange
      | name =>
          have hnext : Leads (· = .symbol .range) (oneOf [.symbol .range] * oneOf constantKinds)
              AfterType := ((starts_oneOf _).mul _).leads (by decide)
          apply Complete.nextKind_bind hnext
          intro next heq
          rw [if_pos heq]
          exact hrange
      | _ => simp [Token.kind, constantKinds] at htoken

theorem reads_typeWithin (depth : Nat) :
    Reads (typeWithin depth) (words Production.type) AfterType depth := by
  induction depth with
  | zero => exact ⟨sound_unexpected _ _, Complete.zero _ _ _⟩
  | succ depth ih => exact reads_typeWithin_succ ih

theorem reads_type : Reads type (words Production.type) AfterType bound :=
  reads_of_depth reads_typeWithin

/-! ### Declarations -/

theorem reads_constDecl : Reads constDecl (words Production.constDecl) Anything bound := by
  rw [words_constDecl]
  apply Reads.within
  apply reads_identifier.bind _ fun _ _ _ _ => trivial
  intro ident
  apply (reads_mark .equal).bind _ fun _ _ _ _ => trivial
  intro _
  apply reads_constant.bind _ fun _ _ _ _ => trivial
  exact fun value => (reads_mark .semicolon).bind_still fun _ => still_pure _

/-- A name, a symbol, a type and a semicolon. -/
theorem reads_typed (symbol : Symbol) (production : Production) :
    Reads (within production do
        let ident ← identifier
        mark symbol
        let type ← type
        mark .semicolon
        return (ident, type))
      (oneOf [.name] * (oneOf [.symbol symbol] * (words Production.type *
        oneOf [.symbol .semicolon]))) Anything bound := by
  apply Reads.within
  apply reads_identifier.bind _ fun _ _ _ _ => trivial
  intro ident
  apply (reads_mark symbol).bind _ fun _ _ _ _ => trivial
  intro _
  apply reads_type.bind _ ((starts_oneOf _).leads (by decide))
  exact fun type => (reads_mark .semicolon).bind_still fun _ => still_pure _

theorem reads_typeDecl : Reads typeDecl (words Production.typeDecl) Anything bound := by
  rw [words_typeDecl]
  exact reads_typed .equal .typeDecl

theorem reads_varDecl : Reads varDecl (words Production.varDecl) Anything bound := by
  rw [words_varDecl]
  exact reads_typed .colon .varDecl

theorem reads_paramDecl : Reads paramDecl (words Production.paramDecl) Anything bound := by
  rw [words_paramDecl]
  apply Reads.within
  apply reads_identifier.bind _ fun _ _ _ _ => trivial
  intro ident
  apply (reads_mark .colon).bind _ fun _ _ _ _ => trivial
  exact fun _ => reads_typeName.bind_still fun _ => still_pure _

theorem reads_paramList : Reads paramList (words Production.paramList) Anything bound := by
  rw [words_paramList]
  apply Reads.within
  apply (reads_mark .leftParen).bind _ fun _ _ _ _ => trivial
  intro _
  apply (reads_paramDecl.separated trivial).bind
  · exact fun params => (reads_mark .rightParen).bind_still fun _ => still_pure _
  · exact (starts_oneOf _).leads (by simp [Anything])

theorem reads_optionalParams :
    Reads optionalParams (words Production.paramList + 1) (· ≠ .symbol .leftParen) bound := by
  have hstarts : Starts [.symbol .leftParen] (words Production.paramList) := by
    rw [words_paramList]
    exact (starts_oneOf _).mul _
  exact (reads_paramList.sees_bind hstarts (still_pure [])).mono (fun _ hne => ⟨trivial, hne⟩)
    (Nat.le_refl bound)

end Outline

end MiniPascal
