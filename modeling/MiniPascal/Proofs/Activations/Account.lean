import MiniPascal.Proofs.Binding.Exprs
import MiniPascal.Proofs.Check.WellFormed
import MiniPascal.Proofs.Code.Shape
import MiniPascal.Proofs.Frames.Chain
import MiniPascal.Proofs.Machine.Run

/-!
# Activations

A listing is run together with an account of what its calls have begun: the activations
that have not returned, the latest first.  Each has the frame that it made, as its `enter`
left it, and the words that it pushed and has not taken off.  The account only watches:
it has no part in what a line does.
-/

namespace MiniPascal

open MiniPascal.Assembly
open MiniPascal.Code
open MiniPascal.Machine

/-- A frame as it was made: its pointer, and the words of its display from level one on. -/
structure MadeFrame where
  pointer : Word
  display : List Word
  deriving DecidableEq

/-- A call that has not returned. -/
structure Activation where
  /-- The line where the code that was called begins. -/
  start : Nat
  /-- The line of the call. -/
  site : Nat
  /-- The frame that was made and not taken down. -/
  frame? : Option MadeFrame
  /-- The words that were pushed and not taken off, the latest first, with the lines of
  the pushes. -/
  pushed : List (Nat × Word)
  deriving DecidableEq

namespace Machine

/-- The word of the display that `ebp` points to, at a level. -/
def displayWord (machine : Machine) (level : Nat) : Word :=
  machine.memory.word (machine.ebp + BitVec.ofInt 32 (Frame.displayOffset level)).toNat

theorem read_display (machine : Machine) (level : Nat) :
    machine.read (.memory (Frame.displayOffset level) .ebp) = some (machine.displayWord level) :=
  rfl

/-- The frame that `ebp` points to, of a level. -/
def madeFrame (machine : Machine) (level : Nat) : MadeFrame where
  pointer := machine.ebp
  display := (List.range level).map fun outer => machine.displayWord (outer + 1)

theorem display_madeFrame (machine : Machine) {level index : Nat} (h : index < level) :
    (machine.madeFrame level).display[index]? = some (machine.displayWord (index + 1)) := by
  rw [madeFrame, List.getElem?_map, List.getElem?_range h, Option.map_some]

end Machine

/-- A call on a line of the code that begins at another one. -/
def Activation.called (start site : Nat) : Activation where
  start
  site
  frame? := none
  pushed := []

/-- The activation after it ran an instruction on a line, which left a machine. -/
def Activation.ran (activation : Activation) (line : Nat) (machine : Machine) :
    Instruction → Activation
  | .push _ => { activation with pushed := (line, machine.top) :: activation.pushed }
  | .pop _ => { activation with pushed := activation.pushed.tail }
  | .arith .add (.immediate bytes) (.register .esp) =>
    { activation with pushed := activation.pushed.drop (bytes.toNat / 4) }
  | .enter _ level => { activation with frame? := some (machine.madeFrame level) }
  | .leave => { activation with frame? := none }
  | _ => activation

/-- A run that is about to run a line, with the calls that have not returned. -/
structure Tracked extends Running where
  stack : List Activation

/-- The frame in use: that of the latest activation that has one. -/
def Tracked.frame? (state : Tracked) : Option MadeFrame :=
  state.stack.findSome? Activation.frame?

namespace Image

/-- The activations after a line was run, which left a machine.  The first code to run was
not called, so its return ends the run; and a frame that is larger than memory can not be
made. -/
def account (image : Image) (line : Nat) (machine : Machine) (stack : List Activation) :
    Option (List Activation) :=
  match image.lines[line]? with
  | some (.instruction _ (.call target) _) =>
    match image.target? target with
    | some start => some (.called start line :: stack)
    | none => some stack
  | some (.instruction _ .ret _) =>
    match stack with
    | [] => none
    | _ :: callers => some callers
  | some (.instruction _ (.enter size level) _) =>
    if size < 2 ^ 32 then some (stack.modifyHead (·.ran line machine (.enter size level)))
    else none
  | some (.instruction _ instruction _) => some (stack.modifyHead (·.ran line machine instruction))
  | some (.directive _) | some (.label _) | some (.datum ..) | none => some stack

def track (image : Image) (state : Tracked) : Option Tracked := do
  let after ← image.step state.toRunning
  let stack ← image.account state.line after.machine state.stack
  return { after with stack }

/-- Runs any number of lines and keeps the account. -/
def Tracks (image : Image) : Tracked → Tracked → Prop :=
  Relation.ReflTransGen fun before after => image.track before = some after

end Image

/-! ### Code in its place -/

/-- Code of a block in a listing, from a line on. -/
structure PlacedCode where
  block : BlockId
  start : Nat
  code : List Line

def blockAt (codes : List PlacedCode) (start : Nat) : Option BlockId :=
  (codes.find? (·.start == start)).map PlacedCode.block

/-- A line of code is past the `enter` in it and before or at the `leave`, as far as there
are any. -/
def IsInside (code : List Line) (index : Nat) : Prop :=
  (∀ label? size level comment, .instruction label? (.enter size level) comment ∉
    code.drop index) ∧
  (∀ label? comment, .instruction label? .leave comment ∉ code.take index)

/-! ### The display -/

/-- A word is the pointer of a frame that was made and not yet taken down, by the block that
owns the frame of a level around another block. -/
def IsFrameOf (tree : Tree) (codes : List PlacedCode) (stack : List Activation) (block : BlockId)
    (level : Nat) (word : Word) : Prop :=
  ∃ activation ∈ stack, ∃ made owner, activation.frame? = some made ∧ made.pointer = word ∧
    blockAt codes activation.start = some owner ∧ tree.frameAt block level = some owner

/-- At every level up to that of a block, the display of the frame in use has the word that
it had when the frame was made, and this points to the frame of that level around the
block. -/
def DisplayReaches (tree : Tree) (codes : List PlacedCode) (block : BlockId) (state : Tracked) :
    Prop :=
  ∃ frame, state.frame? = some frame ∧ frame.pointer = state.machine.ebp ∧
    ∀ level, 1 ≤ level → level ≤ tree.frameLevel block → ∃ word,
      state.machine.read (.memory (Frame.displayOffset level) .ebp) = some word ∧
      frame.display[level - 1]? = some word ∧
      IsFrameOf tree codes state.stack block level word

/-! ### Arguments -/

/-- The labels of routines lead to the codes of their bodies. -/
def Image.Leads (image : Image) (codes : List PlacedCode) (env : Env) : Prop :=
  ∀ id label body, env.labels.lookup id = some label → env.tree.bodyOf? id = some body →
    ∃ callee ∈ codes, callee.block = body ∧ image.target? label = some callee.start

/-- Code that computes arguments from the last to the first lies between two lines, and
pushes the value of each on one of these lines. -/
inductive Image.PushesAll (image : Image) (env : Env) : Nat → List Expr → List Nat → Nat → Prop
  | nil {start : Nat} : PushesAll image env start [] [] start
  | cons {start middle counter final : Nat} {arg : Expr} {others : List Expr} {lines : List Nat}
      {code : List Line} (hothers : PushesAll image env start others lines middle)
      (harg : (expr env arg).Emits counter code final ())
      (placed : image.Placed middle (code ++ [.instruction none (.push .eax) ""])) :
      PushesAll image env start (arg :: others) ((middle + code.length) :: lines)
        (middle + code.length + 1)

namespace Image.PushesAll

variable {image : Image} {env : Env} {start site : Nat} {args : List Expr} {lines : List Nat}

theorem length_eq (h : image.PushesAll env start args lines site) :
    lines.length = args.length := by
  induction h with
  | nil => rfl
  | cons _ _ _ ih => rw [List.length_cons, List.length_cons, ih]

/-- On each of the lines the value in `eax` is pushed. -/
theorem push_of_mem (h : image.PushesAll env start args lines site) {line : Nat}
    (hline : line ∈ lines) :
    image.lines[line]? = some (.instruction none (.push .eax) "") := by
  induction h with
  | nil => cases hline
  | cons _ _ placed ih =>
      rcases List.mem_cons.mp hline with rfl | hline
      · exact (Image.placed_append.mp placed).2.head
      · exact ih hline

end Image.PushesAll

/-- On a line of a block's code the body of a routine is called, as a call in the block's
statements says: after the values of the arguments of this call were pushed, one for each
parameter. -/
structure Image.CallsBody (image : Image) (tree : Tree) (codes : List PlacedCode)
    (block body : BlockId) (args : List Expr) (lines : List Nat) (site : Nat) : Prop where
  exists_call : ∃ (env : Env) (ref : NameRef) (id : DeclId) (start : Nat) (label : Label)
      (comment : String), env.tree = tree ∧ image.Leads codes env ∧
    tree.HasCall block (ref, args) ∧ ref.decl? = some id ∧ tree.bodyOf? id = some body ∧
    env.labels.lookup id = some label ∧ image.PushesAll env start args lines site ∧
    image.lines[site]? = some (.instruction none (.call label) comment)
  length_eq : args.length = (tree.paramsOf body).length

theorem Image.CallsBody.length_lines {image : Image} {tree : Tree} {codes : List PlacedCode}
    {block body : BlockId} {args : List Expr} {lines : List Nat} {site : Nat}
    (h : image.CallsBody tree codes block body args lines site) :
    lines.length = (tree.paramsOf body).length := by
  obtain ⟨_, _, _, _, _, _, -, -, -, -, -, -, hpushes, -⟩ := h.exists_call
  exact hpushes.length_eq.trans h.length_eq

/-- One of the words that an activation has pushed, counted from the latest, is what `eax`
held when the run came to the line of the push: the activation was the one that ran, and
only the words below were pushed. -/
def Image.HasComputed (image : Image) (initial state : Tracked) (activation : Activation)
    (callers : List Activation) (index line : Nat) (word : Word) : Prop :=
  activation.pushed[index]? = some (line, word) ∧
    ∃ earlier pusher, image.Tracks initial earlier ∧ image.Tracks earlier state ∧
      earlier.line = line ∧ earlier.machine.eax = word ∧ earlier.stack = pusher :: callers ∧
      pusher.start = activation.start ∧ pusher.site = activation.site ∧
      pusher.pushed = activation.pushed.drop (index + 1)

/-- The words above the frame in use, where a block has its parameters, are the values of
the arguments of the call that the code of the caller's block has made. -/
def ParametersHold (image : Image) (tree : Tree) (codes : List PlacedCode) (initial : Tracked)
    (block : BlockId) (state : Tracked) : Prop :=
  ∃ activation caller callers around args lines, state.stack = activation :: caller :: callers ∧
    blockAt codes caller.start = some around ∧
    image.CallsBody tree codes around block args lines activation.site ∧
    ∀ index param, (tree.paramsOf block)[index]? = some param →
      tree.layout? param =
        some { frameLevel := tree.frameLevel block, offset := Frame.paramOffset index } ∧
      ∃ line word, lines[index]? = some line ∧
        image.HasComputed initial state caller callers index line word ∧
        state.machine.read (.memory (Frame.paramOffset index) .ebp) = some word

end MiniPascal
