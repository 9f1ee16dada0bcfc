import MiniPascal.Diagnostic
import MiniPascal.Outline
import MiniPascal.Trace

/-!
# Reading an outline from tokens

A recursive descent through the grammar, one function for a production.  A
production that contains itself takes the reader of the inner occurrence as an
argument or recurses on a bound; the number of tokens left is always enough,
because each nesting takes at least one token.  Only the kind of the current
token and of the one after it decides which way to go.
-/

namespace MiniPascal.Outline

/-- What the grammar wants at a place. -/
inductive Expectation
  | token (kind : Token.Kind)
  | constant
  | type
  | factor
  deriving DecidableEq, Repr

def Expectation.label : Expectation → String
  | token kind => kind.label
  | constant => "constant"
  | type => "type"
  | factor => "factor"

/-- The first token that no program can have where it stands. -/
structure SyntaxError where
  expected : Expectation
  found : Token
  line : Nat
  deriving DecidableEq, Repr

def SyntaxError.diagnostic (error : SyntaxError) : Diagnostic :=
  .unexpectedToken error.expected.label error.found.describe error.line

/-- Where a parse stands: the tokens left, the first of which is current; the
line of the current token, or of the last one when none is left; the program's
name once it was read; and the events so far, latest first. -/
structure Cursor where
  rest : List Located
  line : Nat
  title? : Option String
  events : List TraceEvent

namespace Cursor

def start (tokens : List Located) : Cursor where
  rest := tokens
  line := match tokens with
    | [] => 1
    | first :: _ => first.line
  title? := none
  events := []

/-- The current token.  Past the last one stands the end of the file. -/
def current (cursor : Cursor) : Token :=
  match cursor.rest with
  | [] => .endOfFile
  | first :: _ => first.token

def nextKind (cursor : Cursor) : Token.Kind :=
  match cursor.rest with
  | _ :: second :: _ => second.kind
  | _ => .endOfFile

def advance (cursor : Cursor) : Cursor :=
  match cursor.rest with
  | _ :: second :: rest => { cursor with rest := second :: rest, line := second.line }
  | _ => { cursor with rest := [] }

@[simp]
theorem rest_advance (cursor : Cursor) : cursor.advance.rest = cursor.rest.tail := by
  unfold advance
  split
  · simp_all
  · rename_i rest notTwo
    match h : cursor.rest with
    | [] => simp
    | [_] => simp
    | _ :: _ :: _ => exact absurd h (notTwo _ _ _)

@[simp]
theorem title?_advance (cursor : Cursor) : cursor.advance.title? = cursor.title? := by
  unfold advance
  split <;> rfl

@[simp]
theorem events_advance (cursor : Cursor) : cursor.advance.events = cursor.events := by
  unfold advance
  split <;> rfl

end Cursor

/-- A reader of a piece of a program.  A failure keeps the place reached. -/
abbrev Reader := EStateM SyntaxError Cursor

namespace Reader

variable {α β : Type}

def current : Reader Token :=
  return (← get).current

def currentLine : Reader Nat :=
  return (← get).line

def nextKind : Reader Token.Kind :=
  return (← get).nextKind

def advance : Reader Unit :=
  modify Cursor.advance

def unexpected (expected : Expectation) : Reader α := do
  let cursor ← get
  throw { expected, found := cursor.current, line := cursor.line }

def expect (kind : Token.Kind) : Reader Unit := do
  if (← current).kind = kind then advance else unexpected (.token kind)

abbrev mark (symbol : Symbol) : Reader Unit :=
  expect (.symbol symbol)

abbrev word (keyword : Keyword) : Reader Unit :=
  expect (.keyword keyword)

def takeName : Reader String := do
  match ← current with
  | .name word => advance; return word
  | _ => unexpected (.token .name)

def sees (kind : Token.Kind) : Reader Bool :=
  return (← current).kind == kind

/-- Records that a production is entered and, if its reader succeeds, left. -/
def within (production : Production) (body : Reader α) : Reader α := do
  modify fun cursor => { cursor with events := .enter production :: cursor.events }
  let result ← body
  modify fun cursor => { cursor with events := .leave production :: cursor.events }
  return result

/-- Reads items as long as the current token begins another, at most a given
number of them. -/
def atMost (begins : Token → Bool) (item : Reader α) : Nat → Reader (List α)
  | 0 => return []
  | bound + 1 => do
    if begins (← current) then
      let first ← item
      return first :: (← atMost begins item bound)
    else
      return []

def many (begins : Token → Bool) (item : Reader α) : Reader (List α) := do
  atMost begins item (← get).rest.length

/-- Reads one item, and more as long as the current token begins another. -/
def many1 (begins : Token → Bool) (item : Reader α) : Reader (List α) :=
  return (← item) :: (← many begins item)

/-- Reads items each of which follows an operator, at most a given number. -/
def operandsAtMost (operator? : Token → Option β) (item : Reader α) :
    Nat → Reader (List (β × α))
  | 0 => return []
  | bound + 1 => do
    match operator? (← current) with
    | some operator => do
      advance
      let operand ← item
      return (operator, operand) :: (← operandsAtMost operator? item bound)
    | none => return []

def operands (operator? : Token → Option β) (item : Reader α) : Reader (List (β × α)) := do
  operandsAtMost operator? item (← get).rest.length

def separated (symbol : Symbol) (item : Reader α) : Reader (List α) := do
  let first ← item
  let others ← many (·.kind == .symbol symbol) do
    mark symbol
    item
  return first :: others

end Reader

open Reader

/-- `constant = number | string | name .` -/
def constant : Reader Constant := within .constant do
  let line ← currentLine
  let constant ← match ← current with
    | .number value => pure (.literal (.number value) line)
    | .text value => pure (.literal (.ofText value) line)
    | .name word => pure (.named (.unbound word line))
    | _ => unexpected .constant
  advance
  return constant

def reference : Reader NameRef := do
  let line ← currentLine
  return .unbound (← takeName) line

def identifier : Reader Ident := do
  let line ← currentLine
  return { name := ← takeName, line }

/-- `type-name = name .` -/
def typeName : Reader NameRef :=
  within .typeName reference

/-! ### Expressions -/

/-- `func-args = "(" expression { "," expression } ")" .` -/
def arguments (expression : Reader Expr) : Reader (List Expr) := do
  mark .leftParen
  let args ← separated .comma expression
  mark .rightParen
  return args

/-- `func-call = name "(" expression { "," expression } ")" .` -/
def functionCall (expression : Reader Expr) : Reader Expr := within .functionCall do
  let ref ← reference
  return .call ref (← arguments expression)

/-- `variable = name [ "[" expression "]" ] .` -/
def variableRef (expression : Reader Expr) : Reader (NameRef × Option Expr) :=
  within .variableRef do
    let ref ← reference
    if ← sees (.symbol .leftBracket) then
      mark .leftBracket
      let index ← expression
      mark .rightBracket
      return (ref, some index)
    else
      return (ref, none)

/-- `term = factor { ( "*" | "div" | "mod" | "and" ) factor } .`

No line is recorded here, nor for a whole expression: both begin where their
first factor does, and `Expr.startLine` reads the line off it. -/
def termOf (factor : Reader Expr) : Reader Expr := within .term do
  let first ← factor
  let others ← operands Token.multiplicative? factor
  return .join first others

/-- `simple-expr = [ "+" | "-" ] term { ( "+" | "-" | "or" ) term } .` -/
def simpleExprOf (factor : Reader Expr) : Reader Expr := within .simpleExpr do
  -- Kept with the sign only; without one the line is that of the first factor.
  let line ← currentLine
  let first ← match (← current).sign? with
    | some sign => do
      advance
      pure (.signed sign (← termOf factor) line)
    | none => termOf factor
  let others ← operands Token.additive? (termOf factor)
  return .join first others

/-- `expression = simple-expr [ rel-opr simple-expr ] .` -/
def expressionOf (factor : Reader Expr) : Reader Expr := within .expression do
  let left ← simpleExprOf factor
  match (← current).relation? with
  | some relation => do
    advance
    return .comparison relation left (← simpleExprOf factor)
  | none => return left

/-- `factor = constant | variable | func-call | "(" expression ")" | "not" factor .`
with at most the given nesting. -/
def factorWithin : Nat → Reader Expr
  | 0 => unexpected .factor
  | depth + 1 => within .factor do
    let line ← currentLine
    match ← current with
    | .number _ | .text _ =>
      match ← constant with
      | .literal value line => return .literal value line
      | .named ref => return .name ref
    | .name _ =>
      if (← nextKind) = .symbol .leftParen then
        functionCall (expressionOf (factorWithin depth))
      else
        match ← variableRef (expressionOf (factorWithin depth)) with
        | (ref, some index) => return .element ref index
        | (ref, none) => return .name ref
    | .symbol .leftParen => do
      mark .leftParen
      let inner ← expressionOf (factorWithin depth)
      mark .rightParen
      return .group inner line
    | .keyword .not => do
      word .not
      return .negation (← factorWithin depth) line
    | _ => unexpected .factor

def expression : Reader Expr := do
  expressionOf (factorWithin ((← get).rest.length + 1))

/-! ### Types -/

/-- `enum-type = "(" name { "," name } ")" .` -/
def enumType : Reader (TypeExpr Ident) := within .enumType do
  let line ← currentLine
  mark .leftParen
  let literals ← separated .comma identifier
  mark .rightParen
  return .enumeration literals line

/-- `range-type = constant ".." constant .` -/
def rangeType : Reader (TypeExpr Ident) := within .rangeType do
  let line ← currentLine
  let low ← constant
  mark .range
  return .range low (← constant) line

/-- `type = type-name | array-type | enum-type | range-type .` with
`array-type = "array" "[" type "]" "of" type .` and at most the given nesting. -/
def typeWithin : Nat → Reader (TypeExpr Ident)
  | 0 => unexpected .type
  | depth + 1 => within .type do
    match ← current with
    | .keyword .array => within .arrayType do
      let line ← currentLine
      word .array
      mark .leftBracket
      let index ← typeWithin depth
      mark .rightBracket
      word .of
      return .array index (← typeWithin depth) line
    | .symbol .leftParen => enumType
    | .name _ =>
      if (← nextKind) = .symbol .range then rangeType
      else return .named (← typeName)
    | .number _ | .text _ => rangeType
    | _ => unexpected .type

def type : Reader (TypeExpr Ident) := do
  typeWithin ((← get).rest.length + 1)

/-! ### Statements -/

/-- `assign = variable ":=" expression .`, on the line of the variable's name. -/
def assignment : Reader Statement := within .assignment do
  let (target, index) ← variableRef expression
  mark .assign
  return .assign target index (← expression)

/-- `proc-call = name [ "(" expression { "," expression } ")" ] .`, on the line
of the name. -/
def procedureCall : Reader Statement := within .procedureCall do
  let ref ← reference
  if ← sees (.symbol .leftParen) then
    return .call ref (← arguments expression)
  else
    return .call ref []

/-- `statm-list = statement { ";" statement } .` -/
def statementListOf (statement : Reader Statement) : Reader (List Statement) :=
  within .statementList (separated .semicolon statement)

/-- `compound = "begin" statm-list "end" .` -/
def compoundOf (statement : Reader Statement) : Reader Statement := within .compound do
  let line ← currentLine
  word .begin_
  let body ← statementListOf statement
  word .end_
  return .compound body line

/-- `if = "if" expression "then" statement [ "else" statement ] .` -/
def ifOf (statement : Reader Statement) : Reader Statement := within .ifThenElse do
  let line ← currentLine
  word .if_
  let condition ← expression
  word .then_
  let consequence ← statement
  if ← sees (.keyword .else_) then
    word .else_
    return .ifElse condition consequence (← statement) line
  else
    return .ifThen condition consequence line

/-- `while = "while" expression "do" statement .` -/
def whileOf (statement : Reader Statement) : Reader Statement := within .whileDo do
  let line ← currentLine
  word .while_
  let condition ← expression
  word .do_
  return .whileDo condition (← statement) line

/-- `statement = [ assign | compound | if | while | proc-call ] .` with at most
the given nesting. -/
def statementWithin : Nat → Reader Statement
  | 0 => unexpected (.token (.keyword .end_))
  | depth + 1 => within .statement do
    match ← current with
    | .name _ =>
      let next ← nextKind
      if next = .symbol .assign ∨ next = .symbol .leftBracket then assignment
      else procedureCall
    | .keyword .begin_ => compoundOf (statementWithin depth)
    | .keyword .if_ => ifOf (statementWithin depth)
    | .keyword .while_ => whileOf (statementWithin depth)
    | _ => return .empty (← currentLine)

def statementList : Reader (List Statement) := do
  statementListOf (statementWithin ((← get).rest.length + 1))

/-! ### Blocks -/

/-- `const-decl = name "=" constant ";" .` -/
def constDecl : Reader (Ident × Constant) := within .constDecl do
  let ident ← identifier
  mark .equal
  let value ← constant
  mark .semicolon
  return (ident, value)

/-- `type-decl = name "=" type ";" .` -/
def typeDecl : Reader (Ident × TypeExpr Ident) := within .typeDecl do
  let ident ← identifier
  mark .equal
  let type ← type
  mark .semicolon
  return (ident, type)

/-- `var-decl = name ":" type ";" .` -/
def varDecl : Reader (Ident × TypeExpr Ident) := within .varDecl do
  let ident ← identifier
  mark .colon
  let type ← type
  mark .semicolon
  return (ident, type)

/-- A section: its keyword, and declarations as long as another name follows. -/
def sectionOf (production : Production) (keyword : Keyword) (decl : Reader α) :
    Reader (List α) :=
  within production do
    word keyword
    many1 (·.kind == .name) decl

/-- `param-decl = name ":" type-name .` -/
def paramDecl : Reader (Ident × NameRef) := within .paramDecl do
  let ident ← identifier
  mark .colon
  return (ident, ← typeName)

/-- `param-list = "(" param-decl { ";" param-decl } ")" .` -/
def paramList : Reader (List (Ident × NameRef)) := within .paramList do
  mark .leftParen
  let params ← separated .semicolon paramDecl
  mark .rightParen
  return params

def optionalParams : Reader (List (Ident × NameRef)) := do
  if ← sees (.symbol .leftParen) then paramList else return []

/-- `proc-decl = "procedure" name [ param-list ] ";" block ";" .` -/
def procedureOf (block : Reader Block) : Reader Part := within .procedureDecl do
  let line ← currentLine
  word .procedure
  let name ← takeName
  let params ← optionalParams
  mark .semicolon
  let body ← block
  mark .semicolon
  return .routine { name, line, params, result := none } body

/-- `func-decl = "function" name [ param-list ] ":" type-name ";" block ";" .` -/
def functionOf (block : Reader Block) : Reader Part := within .functionDecl do
  let line ← currentLine
  word .function
  let name ← takeName
  let params ← optionalParams
  mark .colon
  let result ← typeName
  mark .semicolon
  let body ← block
  mark .semicolon
  return .routine { name, line, params, result := some result } body

def beginsPart (token : Token) : Bool :=
  match token with
  | .keyword .const | .keyword .type | .keyword .var
  | .keyword .procedure | .keyword .function => true
  | _ => false

/-- One declaration part; the current token is known to begin one. -/
def partOf (block : Reader Block) : Reader Part := do
  match ← current with
  | .keyword .const => return .constants (← sectionOf .constPart .const constDecl)
  | .keyword .type => return .types (← sectionOf .typePart .type typeDecl)
  | .keyword .var => return .vars (← sectionOf .varPart .var varDecl)
  | .keyword .function => functionOf block
  | _ => procedureOf block

/-- `block = { const-part | type-part | var-part | func-decl | proc-decl }
"begin" statm-list "end" .` with at most the given nesting. -/
def blockWithin : Nat → Reader Block
  | 0 => unexpected (.token (.keyword .begin_))
  | depth + 1 => within .block do
    let line ← currentLine
    let parts ← many beginsPart (partOf (blockWithin depth))
    word .begin_
    let statements ← statementList
    word .end_
    return .mk line parts statements

def block : Reader Block := do
  blockWithin ((← get).rest.length + 1)

/-- `program = "program" name ";" block "." .` and then nothing more. -/
def program : Reader Outline := within .program do
  let line ← currentLine
  word .program
  let name ← takeName
  modify fun cursor => { cursor with title? := some name }
  mark .semicolon
  let body ← block
  mark .dot
  if (← current).kind = .endOfFile then
    return { name, line, body }
  else
    unexpected (.token .endOfFile)

/-- The outcome of reading a program: its outline or the first impossible
token, the program's name if it was reached, and the events in order. -/
structure Parsed where
  result : Except SyntaxError Outline
  title? : Option String
  trace : List TraceEvent

def parse (tokens : List Located) : Parsed :=
  match program.run (.start tokens) with
  | .ok outline cursor =>
    { result := .ok outline, title? := cursor.title?, trace := cursor.events.reverse }
  | .error error cursor =>
    { result := .error error, title? := cursor.title?, trace := cursor.events.reverse }

end MiniPascal.Outline
