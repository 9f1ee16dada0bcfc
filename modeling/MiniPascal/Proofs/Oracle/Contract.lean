import MiniPascal.Code.Expr
import MiniPascal.Proofs.Oracle.Evaluate

/-!
# Code with calls by contract

Code without branches is run instruction by instruction, except that a call of a routine
is one step: what it leaves behind is only known as far as its contract goes.  The
contract says that the routine does to its arguments and to the variables what an oracle
says, and that it keeps the frame, the top of the stack, and all memory above it besides
the words of variables.
-/

namespace MiniPascal

open MiniPascal.Assembly
open MiniPascal.Code
open MiniPascal.Machine

namespace Machine

/-- The words on top of the stack, from the top. -/
def arguments (machine : Machine) (count : Nat) : List Word :=
  (List.range count).map fun index => machine.memory.word (machine.esp.toNat + 4 * index)

@[simp]
theorem length_arguments (machine : Machine) (count : Nat) :
    (machine.arguments count).length = count := by
  rw [arguments, List.length_map, List.length_range]

theorem getElem_arguments (machine : Machine) {count index : Nat}
    (h : index < (machine.arguments count).length) :
    (machine.arguments count)[index] = machine.memory.word (machine.esp.toNat + 4 * index) := by
  simp only [arguments, List.getElem_map, List.getElem_range]

/-- Where the display word of a frame level is. -/
def displayAddress (machine : Machine) (level : Nat) : Nat :=
  (machine.ebp + BitVec.ofInt 32 (Frame.displayOffset level)).toNat

end Machine

/-! ### The contract of routines -/

section Contract

variable {vars : Variables}

/-- A call of a routine with some arguments returned as the oracle says.  The other
registers, what was compared, and the memory below the stack may be anything. -/
structure Returns (oracle : Oracle vars) (id : DeclId) (args : Nat) (before after : Machine) :
    Prop where
  eax : after.eax = (oracle id (before.arguments args) (vars.words before.memory)).1
  words : vars.words after.memory =
    (oracle id (before.arguments args) (vars.words before.memory)).2
  ebp : after.ebp = before.ebp
  esp : after.esp = before.esp
  memory : ∀ byte, before.esp.toNat ≤ byte → ¬vars.Holds byte →
    after.memory byte = before.memory byte

namespace Variables

/-- The variable to whose word a byte belongs. -/
def find? (vars : Variables) (byte : Nat) : Option {id : DeclId // id ∈ vars.ids} :=
  vars.ids.attach.find? fun id : {id : DeclId // id ∈ vars.ids} =>
    decide (vars.address id.val ≤ byte ∧ byte < vars.address id.val + 4)

/-- The memory in which variables have got other words. -/
def store (vars : Variables) (memory : Memory) (words : vars.Words) : Memory := fun byte =>
  match vars.find? byte with
  | some id => (words id).extractLsb' (8 * (byte - vars.address id)) 8
  | none => memory byte

variable {memory : Memory} {words : vars.Words}

theorem find?_eq_some (id : {id : DeclId // id ∈ vars.ids}) {offset : Nat} (h : offset < 4) :
    vars.find? (vars.address id + offset) = some id := by
  cases hfound : vars.find? (vars.address id + offset) with
  | none =>
      have hnot := List.find?_eq_none.mp hfound id (List.mem_attach _ _)
      rw [decide_eq_true_iff] at hnot
      omega
  | some other =>
      have hinside := List.find?_some hfound
      rw [decide_eq_true_iff] at hinside
      congr 1
      apply Subtype.ext
      by_contra hne
      have hapart := vars.apart other.val other.property id.val id.property hne
      omega

theorem find?_eq_none {byte : Nat} (h : ¬vars.Holds byte) : vars.find? byte = none := by
  apply List.find?_eq_none.mpr
  intro id _ hinside
  exact h ⟨id.val, id.property, of_decide_eq_true hinside⟩

/-- The words of the variables keep apart, so that each can have its own. -/
theorem words_store (memory : Memory) (words : vars.Words) :
    vars.words (vars.store memory words) = words := by
  funext id
  have hword : (vars.store memory words).word (vars.address id) =
      (memory.store (vars.address id) (words id)).word (vars.address id) := by
    apply Memory.word_congr
    intro byte hlow hhigh
    obtain ⟨offset, rfl⟩ := Nat.exists_eq_add_of_le hlow
    rw [store, find?_eq_some id (by omega), Memory.store, if_pos ⟨hlow, hhigh⟩]
  rw [Variables.words, hword, Memory.word_store_self]

theorem store_of_not_holds {byte : Nat} (h : ¬vars.Holds byte) :
    vars.store memory words byte = memory byte := by
  rw [store, find?_eq_none h]

end Variables

/-- Every call can return as the oracle says. -/
theorem exists_returns (oracle : Oracle vars) (id : DeclId) (args : Nat) (before : Machine) :
    ∃ after, Returns oracle id args before after := by
  let answer := oracle id (before.arguments args) (vars.words before.memory)
  refine ⟨{ before with eax := answer.1, memory := vars.store before.memory answer.2 }, rfl,
    Variables.words_store _ _, rfl, rfl, ?_⟩
  exact fun byte _ hfree => Variables.store_of_not_holds hfree

/-! ### Runs of code -/

/-- The routine whose label is written like a label. -/
def Code.RoutineLabels.routineOf? (labels : RoutineLabels) (label : Label) : Option DeclId :=
  (labels.find? fun entry => entry.2.text == label.text).map Prod.fst

/-- Labels that are written differently lead to their routines. -/
theorem Code.RoutineLabels.routineOf?_eq {labels : RoutineLabels} {id : DeclId} {label : Label}
    (hlabel : (id, label) ∈ labels)
    (distinct : (labels.map fun entry => entry.2.text).Nodup) :
    labels.routineOf? label = some id := by
  rw [routineOf?]
  cases hfound : labels.find? fun entry => entry.2.text == label.text with
  | none =>
      have hother := List.find?_eq_none.mp hfound _ hlabel
      exact absurd (beq_self_eq_true label.text) hother
  | some entry =>
      have hsame := List.find?_some hfound
      have htext : entry.2.text = label.text := eq_of_beq hsame
      have hentry := List.mem_of_find?_eq_some hfound
      obtain rfl := List.inj_on_of_nodup_map distinct hentry hlabel htext
      rfl

/-- Code runs to its end, however the calls in it return, and then something holds. -/
inductive Ensures (tree : Tree) (labels : RoutineLabels) (oracle : Oracle vars) :
    List Line → Machine → (Machine → Prop) → Prop
  | done {machine : Machine} {post : Machine → Prop} (h : post machine) :
      Ensures tree labels oracle [] machine post
  | exec {instruction : Instruction} {comment : String} {lines : List Line}
      {machine after : Machine} {post : Machine → Prop}
      (h : machine.exec instruction = some after)
      (rest : Ensures tree labels oracle lines after post) :
      Ensures tree labels oracle (.instruction none instruction comment :: lines) machine post
  | call {label : Label} {comment : String} {lines : List Line} {machine : Machine}
      {post : Machine → Prop} {id : DeclId} {decl : Decl} {heading : Routine}
      (hlabel : labels.routineOf? label = some id) (hdecl : tree.decls[id]? = some decl)
      (hkind : decl.kind = .routine heading)
      (rest : ∀ after, Returns oracle id heading.params.length machine after →
        Ensures tree labels oracle lines after post) :
      Ensures tree labels oracle (.instruction none (.call label) comment :: lines) machine post

namespace Ensures

variable {tree : Tree} {labels : RoutineLabels} {oracle : Oracle vars}
variable {first second : List Line} {machine : Machine} {post next : Machine → Prop}

theorem append (h : Ensures tree labels oracle first machine post)
    (hnext : ∀ after, post after → Ensures tree labels oracle second after next) :
    Ensures tree labels oracle (first ++ second) machine next := by
  induction h with
  | done h => exact hnext _ h
  | exec h _ ih => exact .exec h (ih hnext)
  | call hlabel hdecl hkind _ ih =>
      exact .call hlabel hdecl hkind fun after hreturns => ih after hreturns hnext

/-- Code that runs to its end has run to the end of its first part. -/
theorem of_append (h : Ensures tree labels oracle (first ++ second) machine post) :
    Ensures tree labels oracle first machine fun after =>
      Ensures tree labels oracle second after post := by
  induction first generalizing machine with
  | nil => exact .done h
  | cons line first ih =>
      cases h with
      | exec hexec rest => exact .exec hexec (ih rest)
      | call hlabel hdecl hkind rest =>
          exact .call hlabel hdecl hkind fun after hreturns => ih (rest after hreturns)

/-- An instruction that is no call has one outcome. -/
theorem of_exec {instruction : Instruction} {comment : String} {lines : List Line}
    {after : Machine} (hexec : machine.exec instruction = some after)
    (h : Ensures tree labels oracle (.instruction none instruction comment :: lines) machine post) :
    Ensures tree labels oracle lines after post := by
  cases h with
  | exec hexec' rest =>
      obtain rfl := Option.some.inj (hexec.symm.trans hexec')
      exact rest
  | call => cases hexec

/-- Runs that end in one way and in another one end in both. -/
theorem and (h : Ensures tree labels oracle first machine post)
    (hnext : Ensures tree labels oracle first machine next) :
    Ensures tree labels oracle first machine fun after => post after ∧ next after := by
  induction h with
  | done h =>
      cases hnext with
      | done hnext => exact .done ⟨h, hnext⟩
  | exec hexec _ ih => exact .exec hexec (ih (hnext.of_exec hexec))
  | call hlabel hdecl hkind _ ih =>
      cases hnext with
      | exec hexec => cases hexec
      | call hlabel' hdecl' hkind' rest =>
          apply Ensures.call hlabel hdecl hkind
          intro after hreturns
          obtain rfl := Option.some.inj (hlabel.symm.trans hlabel')
          obtain rfl := Option.some.inj (hdecl.symm.trans hdecl')
          obtain rfl := DeclKind.routine.inj (hkind.symm.trans hkind')
          exact ih after hreturns (rest after hreturns)

/-- There is a run of code that runs to its end. -/
theorem exists_after (h : Ensures tree labels oracle first machine post) :
    ∃ after, post after := by
  induction h with
  | done h => exact ⟨_, h⟩
  | exec _ _ ih => exact ih
  | @call _ _ _ machine _ id _ heading _ _ _ _ ih =>
      obtain ⟨after, hreturns⟩ := exists_returns oracle id heading.params.length machine
      exact ih after hreturns

/-- Of code that runs to its end, a run of the first part goes on to the end. -/
theorem exists_middle (h : Ensures tree labels oracle first machine next)
    (ends : Ensures tree labels oracle (first ++ second) machine post) :
    ∃ middle, next middle ∧ Ensures tree labels oracle second middle post :=
  (h.and ends.of_append).exists_after

theorem mono (h : Ensures tree labels oracle first machine post)
    (hpost : ∀ after, post after → next after) : Ensures tree labels oracle first machine next := by
  rw [← List.append_nil first]
  exact h.append fun after hafter => .done (hpost after hafter)

end Ensures

end Contract

end MiniPascal
