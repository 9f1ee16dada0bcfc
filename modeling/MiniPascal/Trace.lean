/-!
# Traces of a parse

The productions of the grammar, and the events of entering and leaving them.
A parser that records its events shows how it read a program, and, when it
fails, which productions it was in.
-/

namespace MiniPascal

inductive Production
  | program | block
  | constPart | constDecl | typePart | typeDecl | varPart | varDecl
  | procedureDecl | functionDecl | paramList | paramDecl
  | type | typeName | arrayType | enumType | rangeType | constant
  | statementList | statement | assignment | compound | ifThenElse | whileDo
  | procedureCall | variableRef | expression | simpleExpr | term | factor
  | functionCall
  deriving DecidableEq, Repr

def Production.label : Production → String
  | program => "program"
  | block => "block"
  | constPart => "const-decl-part"
  | constDecl => "const-decl"
  | typePart => "type-decl-part"
  | typeDecl => "type-decl"
  | varPart => "var-decl-part"
  | varDecl => "var-decl"
  | procedureDecl => "proc-decl"
  | functionDecl => "func-decl"
  | paramList => "param-decl-list"
  | paramDecl => "param-decl"
  | type => "type"
  | typeName => "type-name"
  | arrayType => "arr-type"
  | enumType => "enum-type"
  | rangeType => "range-type"
  | constant => "constant"
  | statementList => "statm-list"
  | statement => "statement"
  | assignment => "assign-statm"
  | compound => "compound-statm"
  | ifThenElse => "if-statm"
  | whileDo => "while-statm"
  | procedureCall => "proc-call"
  | variableRef => "variable"
  | expression => "expression"
  | simpleExpr => "simple-expr"
  | term => "term"
  | factor => "factor"
  | functionCall => "func-call"

/-- A step of a parse through the grammar. -/
inductive TraceEvent
  | enter (production : Production)
  | leave (production : Production)
  deriving DecidableEq, Repr

end MiniPascal
