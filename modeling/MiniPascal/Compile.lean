import MiniPascal.Check
import MiniPascal.Code.Program
import MiniPascal.Context
import MiniPascal.Outline.Parse
import MiniPascal.Token.Scan
import MiniPascal.Tree.Number

/-!
# Compiling

The stages of a compilation in a context, and all of them in a row.  A failing
stage leaves in the context what it had done: labels drawn, the program's name,
lines of the log.
-/

namespace MiniPascal

open MiniPascal.Assembly

abbrev Compilation := EStateM Diagnostic Context

namespace Compilation

def scan (source : String) : Except Diagnostic (List Located) :=
  (Token.scan 1 source.toList).result

def parse (tokens : List Located) : Compilation Tree := fun context =>
  let parsed := Outline.parse tokens
  let context := { context with
    title? := parsed.title? <|> context.title?
    log := context.log.recordAll parsed.trace }
  match parsed.result with
  | .ok outline => .ok (.ofOutline outline) context
  | .error error => .error error.diagnostic context

/-- The outcome of checking a tree in a context. -/
structure CheckedIn where
  result : Except Diagnostic Unit
  tree : Tree
  context : Context

/-- Checks a tree.  The tree is given back whether the check succeeds or not. -/
def checkIn (tree : Tree) (context : Context) : CheckedIn :=
  let checked := tree.check context.log
  { result := checked.result
    tree := checked.tree
    context := { context with log := checked.log } }

/-- Checks a tree that is to be used only if it is correct. -/
def check (tree : Tree) : Compilation Tree := fun context =>
  let checked := checkIn tree context
  match checked.result with
  | .ok () => .ok checked.tree checked.context
  | .error diagnostic => .error diagnostic checked.context

/-- The outcome of generating code in a context: the lines written are kept
even if it fails. -/
structure GeneratedIn where
  result : Except Diagnostic Unit
  listing : Listing
  context : Context

/-- Adds the code of a tree to a listing.  It bears the name of the program
parsed last, if the context has one. -/
def generateIn (tree : Tree) (listing : Listing) (context : Context) : GeneratedIn :=
  let emission := (Code.program tree (context.title?.getD tree.name)).run context.labels
  { result := emission.result.mapError Code.Fault.diagnostic
    listing := listing.append (emission.lines.map Line.listed)
    context := { context with labels := emission.counter } }

def generate (tree : Tree) : Compilation Listing := fun context =>
  let generated := generateIn tree .empty context
  match generated.result with
  | .ok () => .ok generated.listing generated.context
  | .error diagnostic => .error diagnostic generated.context

def checkTokens (tokens : List Located) : Compilation Tree := do
  check (← parse tokens)

def compileTokens (tokens : List Located) : Compilation Listing := do
  generate (← checkTokens tokens)

end Compilation

def compile (source : String) : Compilation Listing :=
  match Compilation.scan source with
  | .ok tokens => Compilation.compileTokens tokens
  | .error diagnostic => throw diagnostic

end MiniPascal
