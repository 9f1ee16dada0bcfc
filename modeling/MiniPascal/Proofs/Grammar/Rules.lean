import MiniPascal.Token
import MiniPascal.Trace
import Mathlib.Computability.Language
import Mathlib.Order.CompletePartialOrder

/-!
# The grammar of programs

The rules of the grammar, over kinds of tokens.  A rule derives lists of kinds, and a
program is a sentence if the rule for programs derives its kinds.  The words of a rule
form a language, made from those of its parts.
-/

namespace MiniPascal

/-- The right side of a rule. -/
inductive Ebnf
  | name
  | number
  | text
  | word (keyword : Keyword)
  | mark (symbol : Symbol)
  | production (production : Production)
  | empty
  | sequence (first second : Ebnf)
  | choice (left right : Ebnf)
  /-- Any number of items. -/
  | many (item : Ebnf)
  deriving DecidableEq, Repr

namespace Ebnf

instance : Append Ebnf := ⟨sequence⟩

instance : OrOp Ebnf := ⟨choice⟩

instance : Coe Production Ebnf := ⟨production⟩

def optional (item : Ebnf) : Ebnf :=
  item ||| empty

def separated (separator item : Ebnf) : Ebnf :=
  item ++ many (separator ++ item)

end Ebnf

open Ebnf in
def Production.rule : Production → Ebnf
  | program => word .program ++ name ++ mark .semicolon ++ block ++ mark .dot
  | block => many (constPart ||| typePart ||| varPart ||| functionDecl ||| procedureDecl) ++
      word .begin_ ++ statementList ++ word .end_
  | constPart => word .const ++ constDecl ++ many constDecl
  | constDecl => name ++ mark .equal ++ constant ++ mark .semicolon
  | typePart => word .type ++ typeDecl ++ many typeDecl
  | typeDecl => name ++ mark .equal ++ type ++ mark .semicolon
  | varPart => word .var ++ varDecl ++ many varDecl
  | varDecl => name ++ mark .colon ++ type ++ mark .semicolon
  | procedureDecl => word .procedure ++ name ++ optional paramList ++ mark .semicolon ++ block ++
      mark .semicolon
  | functionDecl => word .function ++ name ++ optional paramList ++ mark .colon ++ typeName ++
      mark .semicolon ++ block ++ mark .semicolon
  | paramList => mark .leftParen ++ separated (mark .semicolon) paramDecl ++ mark .rightParen
  | paramDecl => name ++ mark .colon ++ typeName
  | type => typeName ||| arrayType ||| enumType ||| rangeType
  | typeName => name
  | arrayType => word .array ++ mark .leftBracket ++ type ++ mark .rightBracket ++ word .of ++ type
  | enumType => mark .leftParen ++ separated (mark .comma) name ++ mark .rightParen
  | rangeType => constant ++ mark .range ++ constant
  | constant => number ||| text ||| name
  | statementList => separated (mark .semicolon) statement
  | statement => assignment ||| compound ||| ifThenElse ||| whileDo ||| procedureCall ||| empty
  | assignment => variableRef ++ mark .assign ++ expression
  | compound => word .begin_ ++ statementList ++ word .end_
  | ifThenElse => word .if_ ++ expression ++ word .then_ ++ statement ++
      optional (word .else_ ++ statement)
  | whileDo => word .while_ ++ expression ++ word .do_ ++ statement
  | procedureCall => name ++ optional (mark .leftParen ++ separated (mark .comma) expression ++
      mark .rightParen)
  | expression => simpleExpr ++ optional ((mark .equal ||| mark .notEqual ||| mark .less |||
      mark .lessEqual ||| mark .greater ||| mark .greaterEqual) ++ simpleExpr)
  | simpleExpr => optional (mark .plus ||| mark .minus) ++ term ++
      many ((mark .plus ||| mark .minus ||| word .or) ++ term)
  | term => factor ++ many ((mark .star ||| word .div ||| word .mod ||| word .and) ++ factor)
  | factor => constant ||| variableRef ||| functionCall |||
      mark .leftParen ++ expression ++ mark .rightParen ||| word .not ++ factor
  | variableRef => name ++ optional (mark .leftBracket ++ expression ++ mark .rightBracket)
  | functionCall => name ++ mark .leftParen ++ separated (mark .comma) expression ++
      mark .rightParen

namespace Ebnf

/-- The right side of a rule derives a list of kinds. -/
inductive Derives : Ebnf → List Token.Kind → Prop
  | name : Derives name [.name]
  | number : Derives number [.number]
  | text : Derives text [.text]
  | word (keyword : Keyword) : Derives (word keyword) [.keyword keyword]
  | mark (symbol : Symbol) : Derives (mark symbol) [.symbol symbol]
  | production {production : Production} {kinds : List Token.Kind}
      (h : Derives production.rule kinds) : Derives production kinds
  | empty : Derives empty []
  | sequence {first second : Ebnf} {kinds kinds' : List Token.Kind} (h : Derives first kinds)
      (h' : Derives second kinds') : Derives (first ++ second) (kinds ++ kinds')
  | left {left right : Ebnf} {kinds : List Token.Kind} (h : Derives left kinds) :
      Derives (left ||| right) kinds
  | right {left right : Ebnf} {kinds : List Token.Kind} (h : Derives right kinds) :
      Derives (left ||| right) kinds
  | none {item : Ebnf} : Derives (many item) []
  | another {item : Ebnf} {kinds kinds' : List Token.Kind} (h : Derives item kinds)
      (h' : Derives (many item) kinds') : Derives (many item) (kinds ++ kinds')

def words (rule : Ebnf) : Language Token.Kind :=
  { kinds | rule.Derives kinds }

end Ebnf

/-- The kinds of tokens form a program. -/
def Sentence (kinds : List Token.Kind) : Prop :=
  Ebnf.Derives Production.program kinds

/-! ### Languages of rules -/

/-- The words of a single token of one of some kinds. -/
def oneOf (kinds : List Token.Kind) : Language Token.Kind :=
  { word | ∃ kind ∈ kinds, word = [kind] }

theorem oneOf_add (kinds kinds' : List Token.Kind) :
    oneOf kinds + oneOf kinds' = oneOf (kinds ++ kinds') := by
  apply Language.ext
  intro word
  rw [Language.mem_add]
  constructor
  · rintro (⟨kind, hkind, rfl⟩ | ⟨kind, hkind, rfl⟩)
    · exact ⟨kind, List.mem_append_left kinds' hkind, rfl⟩
    · exact ⟨kind, List.mem_append_right kinds hkind, rfl⟩
  · rintro ⟨kind, hkind, rfl⟩
    rcases List.mem_append.mp hkind with hkind | hkind
    · exact .inl ⟨kind, hkind, rfl⟩
    · exact .inr ⟨kind, hkind, rfl⟩

theorem mem_oneOf_mul_iff {kind : Token.Kind} {words : Language Token.Kind}
    {word : List Token.Kind} :
    word ∈ oneOf [kind] * words ↔ ∃ rest ∈ words, word = kind :: rest := by
  rw [Language.mem_mul]
  constructor
  · rintro ⟨_, ⟨_, hkind, rfl⟩, rest, hrest, rfl⟩
    rw [List.mem_singleton.mp hkind]
    exact ⟨rest, hrest, rfl⟩
  · rintro ⟨rest, hrest, rfl⟩
    exact ⟨[kind], ⟨kind, List.mem_singleton_self kind, rfl⟩, rest, hrest, rfl⟩

namespace Ebnf

open scoped Computability

variable {first second item : Ebnf}

private theorem words_terminal {rule : Ebnf} {kind : Token.Kind}
    (h : ∀ kinds, rule.Derives kinds ↔ kinds = [kind]) : rule.words = oneOf [kind] := by
  apply Language.ext
  intro word
  constructor
  · intro hword
    exact ⟨kind, List.mem_singleton_self kind, (h word).mp hword⟩
  · rintro ⟨_, hmem, rfl⟩
    rw [List.mem_singleton.mp hmem]
    exact (h [kind]).mpr rfl

theorem words_name : words name = oneOf [.name] :=
  words_terminal fun _ => ⟨fun h => by cases h; rfl, fun h => h ▸ .name⟩

theorem words_number : words number = oneOf [.number] :=
  words_terminal fun _ => ⟨fun h => by cases h; rfl, fun h => h ▸ .number⟩

theorem words_text : words text = oneOf [.text] :=
  words_terminal fun _ => ⟨fun h => by cases h; rfl, fun h => h ▸ .text⟩

theorem words_word (keyword : Keyword) : words (word keyword) = oneOf [.keyword keyword] :=
  words_terminal fun _ => ⟨fun h => by cases h; rfl, fun h => h ▸ .word keyword⟩

theorem words_mark (symbol : Symbol) : words (mark symbol) = oneOf [.symbol symbol] :=
  words_terminal fun _ => ⟨fun h => by cases h; rfl, fun h => h ▸ .mark symbol⟩

theorem words_production (rule : Production) : words rule = words rule.rule := by
  apply Language.ext
  intro kinds
  constructor
  · rintro ⟨⟩
    assumption
  · exact .production

theorem words_empty : words empty = 1 := by
  apply Language.ext
  intro kinds
  constructor
  · rintro ⟨⟩
    rfl
  · rintro rfl
    exact .empty

theorem words_append : (first ++ second).words = first.words * second.words := by
  apply Language.ext
  intro kinds
  rw [Language.mem_mul]
  constructor
  · rintro ⟨⟩
    exact ⟨_, ‹_›, _, ‹_›, rfl⟩
  · rintro ⟨front, hfront, back, hback, rfl⟩
    exact .sequence hfront hback

theorem words_or : (first ||| second).words = first.words + second.words := by
  apply Language.ext
  intro kinds
  rw [Language.mem_add]
  constructor
  · intro h
    cases h with
    | left h => exact .inl h
    | right h => exact .inr h
  · rintro (h | h)
    · exact .left h
    · exact .right h

theorem words_optional : (optional item).words = item.words + 1 := by
  rw [optional, words_or, words_empty]

theorem words_many : (many item).words = item.words∗ := by
  apply Language.ext
  intro kinds
  constructor
  · intro h
    generalize hrule : many item = rule at h
    induction h with
    | none => exact Language.nil_mem_kstar _
    | another h _ _ ih =>
        cases hrule
        rw [← Language.one_add_self_mul_kstar_eq_kstar, Language.mem_add]
        exact .inr (Language.append_mem_mul h (ih rfl))
    | _ => cases hrule
  · rintro ⟨pieces, rfl, hpieces⟩
    induction pieces with
    | nil => exact .none
    | cons piece pieces ih =>
        rw [List.forall_mem_cons] at hpieces
        exact .another hpieces.1 (ih hpieces.2)

theorem words_separated :
    (separated first item).words = item.words * (first.words * item.words)∗ := by
  rw [separated, words_append, words_many, words_append]

/-- No rule derives the end of the file. -/
theorem Derives.endOfFile_notMem {rule : Ebnf} {kinds : List Token.Kind}
    (h : rule.Derives kinds) : Token.Kind.endOfFile ∉ kinds := by
  induction h with
  | name | number | text | word | mark => exact fun hmem => by cases List.mem_singleton.mp hmem
  | production _ ih => exact ih
  | empty | none => exact List.not_mem_nil
  | sequence _ _ ih ih' | another _ _ ih ih' =>
      exact fun hmem => (List.mem_append.mp hmem).elim ih ih'
  | left _ ih | right _ ih => exact ih

end Ebnf

end MiniPascal
