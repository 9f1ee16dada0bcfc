import MiniPascal.Assembly.Label
import MiniPascal.Log

/-!
# Compilation contexts

What several compilations share: the counter that numbers labels, the name of
the program read last, and the log.
-/

namespace MiniPascal

open MiniPascal.Assembly

/-- What lasts from one compilation to the next. -/
structure Context where
  /-- The number of labels drawn so far.  It has no limit; a counter of 32 bits agrees with it
  until 4294967295 labels are drawn. -/
  labels : Nat
  title? : Option String
  log : Log
  deriving DecidableEq, Repr

namespace Context

/-- A context in which nothing was compiled, with an empty log. -/
def fresh (parser binding : Bool) : Context where
  labels := 0
  title? := none
  log := .empty parser binding

/-- Draws a label for a branch or a datum. -/
def localLabel (context : Context) : Label × Context :=
  (.numbered (context.labels + 1), { context with labels := context.labels + 1 })

def namedLabel (stem name : String) (context : Context) : Label × Context :=
  (.unit stem name (context.labels + 1), { context with labels := context.labels + 1 })

def setTitle (name : String) (context : Context) : Context :=
  { context with title? := some name }

def onLog (change : Log → Log) (context : Context) : Context :=
  { context with log := change context.log }

@[simp]
theorem labels_localLabel (context : Context) :
    context.localLabel.2.labels = context.labels + 1 := rfl

@[simp]
theorem labels_namedLabel (stem name : String) (context : Context) :
    (context.namedLabel stem name).2.labels = context.labels + 1 := rfl

end Context

end MiniPascal
