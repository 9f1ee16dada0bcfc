import MiniPascal.Token

/-!
# Operators

The operators of expressions, by the level of the grammar they belong to, and
the tokens that spell them.  Reading a token as an operator and spelling the
operator are inverse to each other.
-/

namespace MiniPascal

inductive Relation
  | equal | notEqual | less | lessEqual | greater | greaterEqual
  deriving DecidableEq, Repr

namespace Relation

/-- The suffix of the instruction that stores this condition. -/
def condition : Relation → String
  | equal => "e"
  | notEqual => "ne"
  | less => "l"
  | lessEqual => "le"
  | greater => "g"
  | greaterEqual => "ge"

def symbol : Relation → Symbol
  | equal => .equal
  | notEqual => .notEqual
  | less => .less
  | lessEqual => .lessEqual
  | greater => .greater
  | greaterEqual => .greaterEqual

end Relation

/-- A sign in front of the first term of an expression. -/
inductive Sign
  | plus | minus
  deriving DecidableEq, Repr

def Sign.symbol : Sign → Symbol
  | plus => .plus
  | minus => .minus

inductive BinaryOp
  | add | subtract | or | multiply | divide | modulo | and
  deriving DecidableEq, Repr

namespace BinaryOp

/-- Whether the operation joins terms; the others join factors and bind tighter. -/
def isAdditive : BinaryOp → Bool
  | add | subtract | or => true
  | multiply | divide | modulo | and => false

def token : BinaryOp → Token
  | add => .symbol .plus
  | subtract => .symbol .minus
  | or => .keyword .or
  | multiply => .symbol .star
  | divide => .keyword .div
  | modulo => .keyword .mod
  | and => .keyword .and

end BinaryOp

namespace Token

def relation? : Token → Option Relation
  | symbol .equal => some .equal
  | symbol .notEqual => some .notEqual
  | symbol .less => some .less
  | symbol .lessEqual => some .lessEqual
  | symbol .greater => some .greater
  | symbol .greaterEqual => some .greaterEqual
  | _ => none

def sign? : Token → Option Sign
  | symbol .plus => some .plus
  | symbol .minus => some .minus
  | _ => none

def additive? : Token → Option BinaryOp
  | symbol .plus => some .add
  | symbol .minus => some .subtract
  | keyword .or => some .or
  | _ => none

def multiplicative? : Token → Option BinaryOp
  | symbol .star => some .multiply
  | keyword .div => some .divide
  | keyword .mod => some .modulo
  | keyword .and => some .and
  | _ => none

theorem relation?_eq_some_iff {token : Token} {relation : Relation} :
    token.relation? = some relation ↔ token = .symbol relation.symbol := by
  constructor
  · intro h
    unfold relation? at h
    split at h <;> simp_all [Relation.symbol] <;> subst h <;> rfl
  · rintro rfl
    cases relation <;> rfl

theorem sign?_eq_some_iff {token : Token} {sign : Sign} :
    token.sign? = some sign ↔ token = .symbol sign.symbol := by
  constructor
  · intro h
    unfold sign? at h
    split at h <;> simp_all [Sign.symbol] <;> subst h <;> rfl
  · rintro rfl
    cases sign <;> rfl

theorem additive?_eq_some_iff {token : Token} {op : BinaryOp} :
    token.additive? = some op ↔ op.isAdditive = true ∧ token = op.token := by
  constructor
  · intro h
    unfold additive? at h
    split at h <;> simp_all <;> subst h <;> exact ⟨rfl, rfl⟩
  · rintro ⟨level, rfl⟩
    cases op <;> simp_all [BinaryOp.isAdditive] <;> rfl

theorem multiplicative?_eq_some_iff {token : Token} {op : BinaryOp} :
    token.multiplicative? = some op ↔ op.isAdditive = false ∧ token = op.token := by
  constructor
  · intro h
    unfold multiplicative? at h
    split at h <;> simp_all <;> subst h <;> exact ⟨rfl, rfl⟩
  · rintro ⟨level, rfl⟩
    cases op <;> simp_all [BinaryOp.isAdditive] <;> rfl

end Token

end MiniPascal
