import MiniPascal.Frame
import MiniPascal.Proofs.Machine.Run

/-!
# The stack discipline of code

Code of an expression leaves the stack as it found it: it may use the room below the
top, but nothing from the top on.  A word that waits on the stack meanwhile is there
when it is taken off again.
-/

namespace MiniPascal

open MiniPascal.Assembly
open MiniPascal.Machine

namespace Machine

variable {before middle after : Machine} {events events' : List Event} {word : Word}

/-! ### Keeping the stack -/

/-- Events were written, and nothing from the top of the stack on was changed. -/
structure Writes (events : List Event) (before after : Machine) : Prop where
  ebp : after.ebp = before.ebp
  esp : after.esp = before.esp
  trace : after.trace = before.trace ++ events
  memory : ∀ byte, before.esp.toNat ≤ byte → after.memory byte = before.memory byte

/-- Nothing from the top of the stack on was changed, and nothing was written. -/
abbrev Keeps (before after : Machine) : Prop :=
  Writes [] before after

theorem Writes.trans (h : Writes events before middle) (h' : Writes events' middle after) :
    Writes (events ++ events') before after where
  ebp := h'.ebp.trans h.ebp
  esp := h'.esp.trans h.esp
  trace := by rw [h'.trace, h.trace, List.append_assoc]
  memory byte hbyte := (h'.memory byte (h.esp ▸ hbyte)).trans (h.memory byte hbyte)

theorem Keeps.refl (machine : Machine) : machine.Keeps machine :=
  ⟨rfl, rfl, (List.append_nil _).symm, fun _ _ => rfl⟩

theorem Keeps.trans (h : before.Keeps middle) (h' : middle.Keeps after) : before.Keeps after :=
  Writes.trans h h'

theorem Keeps.trace_eq (h : before.Keeps after) : after.trace = before.trace :=
  h.trace.trans (List.append_nil _)

theorem Writes.word_eq (h : Writes events before after) {address : Nat}
    (haddress : before.esp.toNat ≤ address) :
    after.memory.word address = before.memory.word address :=
  Memory.word_congr fun byte hlow _ => h.memory byte (Nat.le_trans haddress hlow)

/-! ### Words that wait on the stack -/

/-- A word was put on top of the stack, and the rest of it kept. -/
structure Saved (word : Word) (before after : Machine) : Prop where
  ebp : after.ebp = before.ebp
  room : 4 ≤ before.esp.toNat
  esp : after.esp = before.esp - 4
  trace : after.trace = before.trace
  memory : ∀ byte, before.esp.toNat ≤ byte → after.memory byte = before.memory byte
  top : after.top = word

theorem Saved.toNat_esp (h : Saved word before after) :
    after.esp.toNat + 4 = before.esp.toNat := by
  have hroom := h.room
  rw [h.esp, toNat_sub_word hroom]
  omega

/-- A word is pushed if there is room for it. -/
theorem exists_saved_of_push (hroom : 4 ≤ before.esp.toNat) (word : Word) :
    ∃ after, before.push word = some after ∧ Saved word before after ∧ after.eax = before.eax := by
  refine ⟨_, if_pos hroom, ⟨rfl, hroom, rfl, rfl, ?_, Memory.word_store_self _ _ _⟩, rfl⟩
  intro byte hbyte
  apply Memory.store_of_notMem
  rw [toNat_sub_word hroom]
  omega

/-- The word waits while code keeps the stack. -/
theorem Saved.keeps (h : Saved word before middle) (h' : middle.Keeps after) :
    Saved word before after where
  ebp := h'.ebp.trans h.ebp
  room := h.room
  esp := h'.esp.trans h.esp
  trace := h'.trace_eq.trans h.trace
  memory byte hbyte := by
    have hesp := h.toNat_esp
    exact (h'.memory byte (by omega)).trans (h.memory byte hbyte)
  top := by
    rw [← h.top, Machine.top, Machine.top, h'.esp, h'.word_eq (Nat.le_refl _)]

theorem Keeps.saved (h : before.Keeps middle) (h' : Saved word middle after) :
    Saved word before after where
  ebp := h'.ebp.trans h.ebp
  room := h.esp ▸ h'.room
  esp := by rw [h'.esp, h.esp]
  trace := h'.trace.trans h.trace_eq
  memory byte hbyte := (h'.memory byte (h.esp ▸ hbyte)).trans (h.memory byte hbyte)
  top := h'.top

/-- Taking the word off again leaves the stack as it was. -/
theorem Saved.writes_of_popped (h : Saved word before middle) (h' : Writes events middle after) :
    Writes events before after.popped where
  ebp := h'.ebp.trans h.ebp
  esp := by
    rw [popped, h'.esp, h.esp]
    exact BitVec.sub_add_cancel _ _
  trace := by rw [popped, h'.trace, h.trace]
  memory byte hbyte := by
    have hesp := h.toNat_esp
    exact (h'.memory byte (by omega)).trans (h.memory byte hbyte)

theorem Saved.keeps_of_popped (h : Saved word before after) : before.Keeps after.popped :=
  h.writes_of_popped (Keeps.refl after)

/-- Other registers do not matter. -/
theorem Writes.of_eq (h : Writes events before middle) (hebp : after.ebp = middle.ebp)
    (hesp : after.esp = middle.esp) (htrace : after.trace = middle.trace)
    (hmemory : after.memory = middle.memory) : Writes events before after where
  ebp := hebp.trans h.ebp
  esp := hesp.trans h.esp
  trace := htrace.trans h.trace
  memory byte hbyte := hmemory ▸ h.memory byte hbyte

end Machine

namespace Image

variable {image : Image} {start : Nat} {first second : List Line} {before middle after : Machine}

/-- An instruction that goes on to the next line, and the code after it. -/
theorem Runs.cons {label? : Option Label} {instruction : Instruction} {comment : String}
    (placed : image.Placed start (.instruction label? instruction comment :: second))
    (h : before.exec instruction = some middle)
    (hrest : image.Runs (start + 1) second middle after) :
    image.Runs start (.instruction label? instruction comment :: second) before after := by
  have hplaced : image.Placed start ([.instruction label? instruction comment] ++ second) := placed
  exact (Runs.exec (placed_append.mp hplaced).1 h).append hrest

/-- A line without an instruction, and the code after it. -/
theorem Runs.cons_skip {line : Line} (placed : image.Placed start (line :: second))
    (h : ∀ label? instruction comment, line ≠ .instruction label? instruction comment)
    (hrest : image.Runs (start + 1) second before after) :
    image.Runs start (line :: second) before after := by
  have hplaced : image.Placed start ([line] ++ second) := placed
  exact (Runs.skip (placed_append.mp hplaced).1 h).append hrest

end Image

end MiniPascal
