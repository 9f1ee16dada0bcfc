import MiniPascal.CommandLine.Host
import MiniPascal.CommandLine.Options
import MiniPascal.Compile

/-!
# Running the compiler

A run reads the input file, compiles it, and writes the listing; on the way it
reports what it was asked to report.  Nothing is written unless all before it
succeeded, and the first failure ends the run.
-/

namespace MiniPascal.CommandLine

open MiniPascal.Assembly

def sourceExtension : String := "pas"

def assemblyExtension : String := "s"

/-- Where the listing goes: the output path, or the input path with another
extension. -/
def Options.target (options : Options) : String :=
  options.output?.getD (Path.withExtension options.input assemblyExtension)

/-- The text in a file that was opened, or not.  A directory can be opened, and
only reading it fails. -/
def textOf (path : String) : Except FileError ByteArray → Except Diagnostic String
  | .ok content =>
    match String.fromUTF8? content with
    | some text => .ok text
    | none => .error (.io "stream did not contain valid UTF-8")
  | .error .isDirectory => .error (.io FileError.isDirectory.message)
  | .error error => .error (.fileRead (path ++ ": " ++ error.message))

section

variable {m : Type → Type} [Monad m] [Host m]

def readSource (path : String) : ExceptT Diagnostic m String := do
  if Path.extension? path = some sourceExtension then
    textOf path (← Host.readFile path)
  else
    throw (.fileRead "File must have a .pas extension")

def writeAssembly (path text : String) : ExceptT Diagnostic m Unit := do
  match ← Host.writeFile path text.toUTF8 with
  | .ok () => return
  | .error error => throw (.fileWrite (path ++ ": " ++ error.message))

def printLine (pieces : List Piece) : m Unit :=
  Host.print (pieces ++ [.text "\n"])

def printText (text : String) : m Unit :=
  printLine [.text text]

/-- What a run measures. -/
structure Statistics where
  scanning : Nat
  parsing : Nat
  checking : Nat
  generating : Nat
  total : Nat
  tokens : Nat
  blocks : Nat
  decls : Nat
  instructions : Nat

def printStatistics (statistics : Statistics) : m Unit := do
  let rule := "+---------------------+-----------+"
  let row (title : String) (time : Nat) : m Unit :=
    printLine [.text ("| " ++ title ++ " | "), .elapsedCell time]
  printText "\nCompilation Statistics:"
  printText rule
  printText "| Phase               | Time (s)  |"
  printText rule
  row "Lexical Analysis   " statistics.scanning
  row "Parsing            " statistics.parsing
  row "Checking           " statistics.checking
  row "Code Generation    " statistics.generating
  row "Linking            " 0
  printText rule
  row "Total Time         " statistics.total
  printText rule
  printText "\nCode Metrics:"
  printText ("  Tokens:             " ++ toString statistics.tokens)
  printText ("  Blocks:             " ++ toString statistics.blocks)
  printText ("  Declarations:       " ++ toString statistics.decls)
  printText ("  Instructions:       " ++ toString statistics.instructions)

def Options.explain (options : Options) (lines : List (List Piece)) : m Unit :=
  if options.verbose then lines.forM printLine else pure ()

def flushLog (context : Context) : m Context := do
  context.log.lines.toList.forM Host.complain
  return context.onLog Log.clear

/-- Runs a stage of the compilation and prints the log it leaves, whether it
succeeds or not. -/
def runStage {α : Type} (stage : Compilation α) (context : Context) :
    ExceptT Diagnostic m (α × Context) := do
  match stage.run context with
  | .ok value context => return (value, ← flushLog context)
  | .error diagnostic context => do
    let _ ← flushLog context
    throw diagnostic

/-- Compiles the input file: the text of the listing, and the statistics. -/
def compileFile (options : Options) : ExceptT Diagnostic m (String × Statistics) := do
  let start ← Host.clock
  let context := Context.fresh options.logParser options.logBinding
  options.explain [[.text ("Starting compilation of: " ++ options.input)]]
  let source ← readSource options.input
  options.explain
    [[.text ("Read " ++ toString source.utf8ByteSize ++ " bytes from input file")]]

  let opened ← Host.clock
  let tokens ← Compilation.scan source
  let scanned ← Host.clock
  options.explain
    [[.text "Lexical analysis completed in ", .elapsed (scanned - opened)],
     [.text ("  Generated " ++ toString tokens.length ++ " tokens")]]

  let (tree, context) ← runStage (Compilation.parse tokens) context
  let parsed ← Host.clock
  options.explain
    [[.text "Parsing completed in ", .elapsed (parsed - scanned)],
     [.text ("  Built " ++ toString tree.blocks.size ++ " blocks")]]
  let blocks := tree.blocks.size

  let (tree, context) ← runStage (Compilation.check tree) context
  let checked ← Host.clock
  options.explain
    [[.text "Checking completed in ", .elapsed (checked - parsed)],
     [.text ("  Resolved " ++ toString tree.decls.size ++ " declarations")]]

  let (listing, context) ← runStage (Compilation.generate tree) context
  let generated ← Host.clock
  options.explain
    [[.text "Code generation completed in ", .elapsed (generated - checked)],
     [.text ("  Generated " ++ toString listing.instructionCount ++ " instructions")],
     [.text ("  Allocated " ++ toString context.labels ++ " labels")]]

  let text := listing.render
  if options.printAssembly then
    printText "\nGenerated Assembly:"
    printText text
  let finish ← Host.clock
  options.explain [[.text "Compilation completed in ", .elapsed (finish - start)]]
  return (text, {
    scanning := scanned - opened
    parsing := parsed - scanned
    checking := checked - parsed
    generating := generated - checked
    total := finish - start
    tokens := tokens.length
    blocks
    decls := tree.decls.size
    instructions := listing.instructionCount })

/-- Compiles the input file, writes the listing and reports. -/
def compileAndWrite (options : Options) : ExceptT Diagnostic m Unit := do
  let (text, statistics) ← compileFile options
  writeAssembly options.target text
  options.explain [[.text ("Assembly written to: " ++ options.target)]]
  if options.timing then
    printStatistics statistics
  options.explain [[.text "Compilation successful!"]]

/-- A whole run, and its exit status. -/
def run (options : Options) : m Nat := do
  match ← (compileAndWrite options).run with
  | .ok () => return 0
  | .error diagnostic => do
    Host.complain ("Error: " ++ diagnostic.message)
    return 1

end

def usageStatus : Nat := 2

end MiniPascal.CommandLine
