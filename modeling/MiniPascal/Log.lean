import MiniPascal.Trace
import MiniPascal.Tree

/-!
# Logs

An optional record of a compilation: the productions the parser enters and
leaves, indented by their nesting, and the declaration each name is bound to.
Each half has a switch; with its switch off it adds nothing.
-/

namespace MiniPascal

/-- The lines recorded so far, the current indentation, and the two switches. -/
structure Log where
  parser : Bool
  binding : Bool
  lines : Array String
  depth : Nat
  deriving DecidableEq, Repr

namespace Log

def empty (parser binding : Bool) : Log :=
  { parser, binding, lines := #[], depth := 0 }

/-- Two blanks for each level of nesting. -/
def indent (depth : Nat) : String :=
  String.ofList (List.replicate (2 * depth) ' ')

def enter (name : String) (log : Log) : Log :=
  if log.parser then
    { log with
      lines := log.lines.push (indent log.depth ++ "<" ++ name ++ ">")
      depth := log.depth + 1 }
  else log

def leave (name : String) (log : Log) : Log :=
  if log.parser then
    { log with
      lines := log.lines.push (indent (log.depth - 1) ++ "</" ++ name ++ ">")
      depth := log.depth - 1 }
  else log

/-- Records an event of a parse. -/
def record (log : Log) : TraceEvent → Log
  | .enter production => log.enter production.label
  | .leave production => log.leave production.label

def recordAll (log : Log) (trace : List TraceEvent) : Log :=
  trace.foldl record log

/-- Records that a name is bound to the declaration on a line. -/
def noteBinding (name : String) (useLine declLine : Nat) (log : Log) : Log :=
  if log.binding then
    let place :=
      if declLine = libraryLine then "in the library" else "on line " ++ toString declLine
    { log with
      lines := log.lines.push
        ("Binding on line " ++ toString useLine ++ ": " ++ name ++ " was declared " ++ place) }
  else log

/-- Records a remark, if either half is switched on. -/
def note (message : String) (log : Log) : Log :=
  if log.parser || log.binding then { log with lines := log.lines.push message } else log

/-- Forgets the lines and keeps the indentation. -/
def clear (log : Log) : Log :=
  { log with lines := #[] }

/-- A log whose switches are off records no parse. -/
@[simp]
theorem recordAll_of_parser_off {log : Log} (h : log.parser = false) (trace : List TraceEvent) :
    log.recordAll trace = log := by
  induction trace with
  | nil => rfl
  | cons event trace ih =>
    have same : log.record event = log := by
      cases event <;> simp [record, enter, leave, h]
    simpa [recordAll, same] using ih

end Log

end MiniPascal
