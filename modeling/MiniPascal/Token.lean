/-!
# Tokens

The lexical units of the language: names, numbers and text strings, which carry
a value, and the keywords and symbols, which are their own spelling.  The
grammar looks only at the *kind* of a token, so kinds are a type of their own.
-/

namespace MiniPascal

/-- The reserved words. -/
inductive Keyword
  | and | array | begin_ | const | div | do_ | else_ | end_ | function | if_
  | mod | not | of | or | procedure | program | then_ | type | var | while_
  deriving DecidableEq, Repr

namespace Keyword

def spelling : Keyword → String
  | and => "and"
  | array => "array"
  | begin_ => "begin"
  | const => "const"
  | div => "div"
  | do_ => "do"
  | else_ => "else"
  | end_ => "end"
  | function => "function"
  | if_ => "if"
  | mod => "mod"
  | not => "not"
  | of => "of"
  | or => "or"
  | procedure => "procedure"
  | program => "program"
  | then_ => "then"
  | type => "type"
  | var => "var"
  | while_ => "while"

def all : List Keyword :=
  [and, array, begin_, const, div, do_, else_, end_, function, if_,
    mod, not, of, or, procedure, program, then_, type, var, while_]

theorem mem_all (k : Keyword) : k ∈ all := by
  cases k <;> decide

def ofSpelling? (word : String) : Option Keyword :=
  all.find? fun k => k.spelling == word

/-- Different words are spelled differently, so a spelling is read back. -/
@[simp]
theorem ofSpelling?_spelling (k : Keyword) : ofSpelling? k.spelling = some k := by
  cases k <;> decide

end Keyword

/-- Operators and delimiters. -/
inductive Symbol
  | plus | minus | star | equal | notEqual | less | lessEqual | greater
  | greaterEqual | assign | colon | semicolon | comma | dot | range
  | leftParen | rightParen | leftBracket | rightBracket
  deriving DecidableEq, Repr

namespace Symbol

def spelling : Symbol → String
  | plus => "+"
  | minus => "-"
  | star => "*"
  | equal => "="
  | notEqual => "<>"
  | less => "<"
  | lessEqual => "<="
  | greater => ">"
  | greaterEqual => ">="
  | assign => ":="
  | colon => ":"
  | semicolon => ";"
  | comma => ","
  | dot => "."
  | range => ".."
  | leftParen => "("
  | rightParen => ")"
  | leftBracket => "["
  | rightBracket => "]"

def all : List Symbol :=
  [plus, minus, star, equal, notEqual, less, lessEqual, greater, greaterEqual,
    assign, colon, semicolon, comma, dot, range, leftParen, rightParen,
    leftBracket, rightBracket]

theorem mem_all (s : Symbol) : s ∈ all := by
  cases s <;> decide

def ofSpelling? (text : String) : Option Symbol :=
  all.find? fun s => s.spelling == text

@[simp]
theorem ofSpelling?_spelling (s : Symbol) : ofSpelling? s.spelling = some s := by
  cases s <;> decide

end Symbol

/-- A token: its kind and, for the first three, its value. -/
inductive Token
  | name (word : String)
  | number (value : Int)
  | text (value : String)
  | keyword (word : Keyword)
  | symbol (mark : Symbol)
  | endOfFile
  deriving DecidableEq, Repr

namespace Token

/-- What the grammar sees of a token. -/
inductive Kind
  | name
  | number
  | text
  | keyword (word : Keyword)
  | symbol (mark : Symbol)
  | endOfFile
  deriving DecidableEq, Repr

def Kind.label : Kind → String
  | name => "name"
  | number => "number"
  | text => "text string"
  | keyword word => word.spelling
  | symbol mark => mark.spelling
  | endOfFile => "e-o-f"

/-- The kind of a token; the value is forgotten. -/
def kind : Token → Kind
  | name _ => .name
  | number _ => .number
  | text _ => .text
  | keyword word => .keyword word
  | symbol mark => .symbol mark
  | endOfFile => .endOfFile

/-- Tokens are alike when their kinds agree, whatever their values. -/
def alike (left right : Token) : Bool :=
  left.kind == right.kind

@[simp]
theorem alike_iff (left right : Token) : left.alike right = true ↔ left.kind = right.kind := by
  simp [alike]

/-- The token as diagnostics show it: the kind, and the value if it has one. -/
def describe : Token → String
  | name word => "name '" ++ word ++ "'"
  | number value => "number " ++ toString value
  | text value => "text string '" ++ value ++ "'"
  | token => token.kind.label

/-- The word as a token: reserved, or else a name. -/
def ofWord (word : String) : Token :=
  match Keyword.ofSpelling? word with
  | some k => keyword k
  | none => name word

@[simp]
theorem ofWord_spelling (k : Keyword) : ofWord k.spelling = keyword k := by
  simp [ofWord]

end Token

/-- A token with the line of its first character. -/
structure Located where
  token : Token
  line : Nat
  deriving DecidableEq, Repr

namespace Located

abbrev kind (located : Located) : Token.Kind :=
  located.token.kind

end Located

end MiniPascal
