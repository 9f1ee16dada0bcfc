/-!
# Command-line options

An argument list names one input file and may set an output file and switches,
each at most once.  Long options take their value after an equals sign or from
the next argument; short ones can be joined, and the last may take its value
from the rest of the argument.  After two dashes everything is a path.
-/

namespace MiniPascal.CommandLine

/-- What can be switched on. -/
inductive Switch
  | printAssembly | verbose | timing | logParser | logBinding
  deriving DecidableEq, Repr

/-- One setting made by the arguments. -/
inductive Setting
  | input (path : String)
  | output (path : String)
  | on (switch : Switch)
  deriving DecidableEq, Repr

def Switch.ofLetter? : Char → Option Switch
  | 'a' => some printAssembly
  | 'v' => some verbose
  | 't' => some timing
  | _ => none

def Switch.ofName? : String → Option Switch
  | "print-asm" => some printAssembly
  | "verbose" => some verbose
  | "timing" => some timing
  | "log-parser" => some logParser
  | "log-binding" => some logBinding
  | _ => none

/-- The settings of joined short options, and whether an output path is still
to follow. -/
def shortSettings : List Char → Option (List Setting × Bool)
  | [] => some ([], false)
  | 'o' :: value =>
    match value with
    | [] => some ([], true)
    | '=' :: path => some ([.output (String.ofList path)], false)
    | path => some ([.output (String.ofList path)], false)
  | letter :: others => do
    let switch ← Switch.ofLetter? letter
    let (settings, pending) ← shortSettings others
    return (.on switch :: settings, pending)

/-- The settings of a long option, and whether an output path is still to
follow. -/
def longSettings (text : List Char) : Option (List Setting × Bool) :=
  let name := String.ofList (text.takeWhile (· ≠ '='))
  match text.dropWhile (· ≠ '=') with
  | _ :: value =>
    if name = "output" then some ([.output (String.ofList value)], false) else none
  | [] =>
    if name = "output" then some ([], true)
    else (Switch.ofName? name).map fun switch => ([.on switch], false)

/-- An argument that can be the value of the option before it: a single dash,
or one that begins with none. -/
def isValue (argument : String) : Bool :=
  argument == "-" || argument.toList.head? != some '-'

/-- The settings an argument list makes, in order.  There are none if an
argument is no option or lacks its value. -/
def settings? : List String → Option (List Setting)
  | [] => some []
  | argument :: others =>
    let withOption (option : Option (List Setting × Bool)) : Option (List Setting) := do
      match ← option with
      | (here, false) => return here ++ (← settings? others)
      | (here, true) =>
        match others with
        | path :: others =>
          if isValue path then return here ++ .output path :: (← settings? others)
          else none
        | [] => none
    match argument.toList with
    | ['-', '-'] => some (others.map .input)
    | '-' :: '-' :: name => withOption (longSettings name)
    | '-' :: letter :: letters => withOption (shortSettings (letter :: letters))
    | _ => do return .input argument :: (← settings? others)

/-- What a run of the compiler is asked to do. -/
structure Options where
  input : String
  output? : Option String
  printAssembly : Bool
  verbose : Bool
  timing : Bool
  logParser : Bool
  logBinding : Bool
  deriving DecidableEq, Repr

def Setting.path? : Setting → Option String
  | input path | output path => some path
  | on _ => none

/-- The options that settings amount to.  There are none if a setting is
repeated, a path is empty, or the number of input paths is not one. -/
def Options.ofSettings? (settings : List Setting) : Option Options :=
  let inputs := settings.filterMap fun
    | .input path => some path
    | _ => none
  let outputs := settings.filterMap fun
    | .output path => some path
    | _ => none
  let switches := settings.filterMap fun
    | .on switch => some switch
    | _ => none
  match inputs with
  | [input] =>
    if outputs.length ≤ 1 ∧ switches.Nodup ∧ "" ∉ settings.filterMap Setting.path? then
      some {
        input
        output? := outputs.head?
        printAssembly := switches.contains .printAssembly
        verbose := switches.contains .verbose
        timing := switches.contains .timing
        logParser := switches.contains .logParser
        logBinding := switches.contains .logBinding }
    else none
  | _ => none

/-- The options of an argument list, unless it is misused. -/
def Options.ofArguments? (arguments : List String) : Option Options := do
  ofSettings? (← settings? arguments)

end MiniPascal.CommandLine
