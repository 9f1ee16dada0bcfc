import MiniPascal.Proofs.Machine.Enter
import MiniPascal.Proofs.Simulation.Statements

/-!
# Programs run as they mean

The entry of a program calls its body, which makes a frame, does what its statements do
and takes the frame down again.  What was in memory where the frame is made are the words
of the variables at the beginning.
-/

namespace MiniPascal

open MiniPascal.Assembly
open MiniPascal.Code
open MiniPascal.Machine
open MiniPascal.Source

/-- The words of variables that lie in memory below the address of a frame. -/
def loadedStore (slots : List String) (frame : Nat) (memory : Memory) : Store := fun name =>
  memory.word (slotAddress frame (slots.idxOf name))

section Frames

variable {slots : List String} {before after : Machine}

/-- A new frame of a program has the words that were in memory. -/
theorem Machine.Enters.inFrame {size : Nat} (h : Enters size 1 before after)
    (hsize : size = 32 + 4 * slots.length) (nodup : slots.Nodup) :
    InFrame after.ebp.toNat slots (loadedStore slots after.ebp.toNat before.memory) after where
  ebp := rfl
  room := by
    have hesp := h.esp
    omega
  display := h.own
  words index name hslot := by
    have hesp := h.esp
    obtain ⟨hindex, rfl⟩ := List.getElem?_eq_some_iff.mp hslot
    rw [loadedStore, nodup.idxOf_getElem index hindex]
    apply Memory.word_congr
    intro byte hlow hhigh
    apply h.memory
    rw [slotAddress] at hlow hhigh
    omega

end Frames

section Calls

variable {image : Image} {slots : List String} {start index size : Nat}
  {before called entered done : Machine} {events : List Event} {final : Store}

/-- A frame that was made for a call is taken down again. -/
theorem writes_of_leave {address : Word} (hroom : 4 ≤ before.esp.toNat)
    (enters : Enters size 1 (before.pushed address) entered)
    (performs : Performs entered.ebp.toNat events entered done) :
    Writes events before done.leave.popped ∧ done.leave.top = address := by
  have hcalled : (before.pushed address).esp.toNat = before.esp.toNat - 4 := toNat_esp_pushed hroom
  have hframe := enters.toNat_ebp
  have hword : ∀ place, entered.ebp.toNat ≤ place →
      done.memory.word place = entered.memory.word place := fun place hplace =>
    Memory.word_congr fun byte hlow _ => performs.memory byte (Nat.le_trans hplace hlow)
  have hesp : done.leave.esp = (before.pushed address).esp := by
    change done.ebp + 4 = _
    rw [performs.ebp, enters.ebp]
    exact BitVec.sub_add_cancel _ _
  constructor
  · constructor
    case ebp =>
      change done.memory.word done.ebp.toNat = before.ebp
      rw [performs.ebp, hword _ (Nat.le_refl _), enters.saved]
      rfl
    case esp =>
      change done.leave.esp + 4 = before.esp
      rw [hesp]
      exact BitVec.sub_add_cancel _ _
    case trace =>
      change done.trace = _
      rw [performs.trace, enters.trace]
      rfl
    case memory =>
      intro byte hbyte
      change done.memory byte = _
      rw [performs.memory byte (by omega), enters.memory byte (by omega),
        memory_pushed hroom (.inr hbyte)]
  · change done.memory.word done.leave.esp.toNat = address
    have hkept : entered.memory.word (before.pushed address).esp.toNat =
        (before.pushed address).memory.word (before.pushed address).esp.toNat :=
      Memory.word_congr fun byte hlow _ => enters.memory byte (.inr hlow)
    rw [hesp, hword _ (by omega), hkept]
    exact word_pushed before address

/-- A call of a body with a frame of its own does what the code of the body does in the
frame, and goes on behind the call. -/
theorem exists_writes_of_body {label : Label} {code : List Line}
    (htarget : image.target? label = some index) {comment comment' comment'' : String}
    {place? : Option Label}
    (hline : image.lines[start]? = some (.instruction place? (.call label) comment))
    (placedBody : image.Placed index (.instruction (some label) (.enter size 1) comment' ::
      (code ++ [.instruction none .leave "", .instruction none .ret comment''])))
    (hroom : 12 + size ≤ before.esp.toNat)
    (hcode : ∀ {entered : Machine},
      Enters size 1 (before.pushed (image.address (start + 1))) entered →
        Completes image (index + 1) code entered.ebp.toNat slots entered events final) :
    ∃ after, image.Steps ⟨start, before⟩ ⟨start + 1, after⟩ ∧ Writes events before after ∧
      ∀ place name, slots[place]? = some name →
        after.memory.word (slotAddress (before.esp.toNat - 8) place) = final name := by
  have hfour : 4 ≤ before.esp.toNat := by omega
  have hesp : (before.pushed (image.address (start + 1))).esp.toNat = before.esp.toNat - 4 :=
    toNat_esp_pushed hfour
  have hcall : image.step ⟨start, before⟩ =
      some ⟨index, before.pushed (image.address (start + 1))⟩ := by
    rw [Image.step_instruction hline, Image.execAt, htarget]
    exact congrArg (Option.map (Running.mk index)) (push_eq_some hfour _)
  obtain ⟨entered, henter, enters⟩ := @exists_enters (before.pushed (image.address (start + 1)))
    size 1 (Nat.le_refl 1) (by decide) (by omega) (fun _ _ _ => by omega)
  have hentered : image.step ⟨index, before.pushed (image.address (start + 1))⟩ =
      some ⟨index + 1, entered⟩ := by
    rw [Image.step_instruction placedBody.head]
    exact congrArg (Option.map (Running.mk (index + 1))) henter
  obtain ⟨done, hruns, inFrame, performs⟩ := hcode enters
  obtain ⟨hwrites, htop⟩ := writes_of_leave hfour enters performs
  have placedEnd := (Image.placed_append.mp placedBody.tail).2
  have hleave : image.step ⟨index + 1 + code.length, done⟩ =
      some ⟨index + 1 + code.length + 1, done.leave⟩ := by
    rw [Image.step_instruction placedEnd.head]
    rfl
  have hback : image.line? done.leave.top = some (start + 1) := by
    rw [htop]
    exact image.line?_address (start + 1) (List.getElem?_eq_some_iff.mp hline).1
  have hreturn : image.step ⟨index + 1 + code.length + 1, done.leave⟩ =
      some ⟨start + 1, done.leave.popped⟩ := by
    rw [Image.step_instruction placedEnd.tail.head, Image.execAt, hback]
    rfl
  refine ⟨done.leave.popped, ?_, hwrites, ?_⟩
  · exact .head hcall (.head hentered (hruns.trans (.head hleave (.single hreturn))))
  · intro place name hslot
    have hframe := enters.toNat_ebp
    have hbase : before.esp.toNat - 8 = entered.ebp.toNat := by omega
    rw [hbase]
    exact inFrame.words place name hslot

end Calls

end MiniPascal
