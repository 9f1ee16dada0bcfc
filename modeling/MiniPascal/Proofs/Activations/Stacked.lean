import MiniPascal.Proofs.Activations.Account
import MiniPascal.Proofs.Frames.Slots
import MiniPascal.Proofs.Machine.Enter

/-!
# Activations on the stack

Each activation has its words on the stack: above all the address to return to, then its
frame with the display, if it made one, and below that the words that it pushed.  Those on
top that are the arguments of the next activation may be changed by it, and so may the
slots of frames; nothing else is, as long as the stack grows and shrinks at its top.
-/

namespace MiniPascal

open MiniPascal.Assembly
open MiniPascal.Machine

/-! ### Words of an activation -/

/-- The words that were pushed are on the stack, from the top on; the first few of them
may have been changed. -/
def PushedWords (memory : Memory) (stale top : Nat) (pushed : List (Nat × Word)) : Prop :=
  ∀ index entry, stale ≤ index → pushed[index]? = some entry →
    memory.word (top + 4 * index) = entry.2

/-- A frame has its display in memory, the frame pointer that was saved in it, and above
it the address to return to. -/
structure FrameWords (memory : Memory) (made : MadeFrame) (saved back : Word) : Prop where
  display : ∀ index word, made.display[index]? = some word →
    memory.word (made.pointer.toNat - 4 * (index + 1)) = word
  saved : memory.word made.pointer.toNat = saved
  back : memory.word (made.pointer.toNat + 4) = back

section Words

variable {memory memory' : Memory} {stale stale' top : Nat} {pushed : List (Nat × Word)}
variable {made : MadeFrame} {saved back value : Word}

theorem PushedWords.of_memory (h : PushedWords memory stale top pushed)
    (hsame : ∀ byte, top + 4 * stale ≤ byte → byte < top + 4 * pushed.length →
      memory' byte = memory byte) : PushedWords memory' stale top pushed := by
  intro index entry hindex hentry
  have hlt := (List.getElem?_eq_some_iff.mp hentry).1
  rw [← h index entry hindex hentry]
  apply Memory.word_congr
  intro byte hlow hhigh
  apply hsame <;> omega

/-- A word may be stored away from those that were pushed. -/
theorem PushedWords.store (h : PushedWords memory stale top pushed) {address : Nat}
    (hapart : address + 4 ≤ top + 4 * stale ∨ top + 4 * pushed.length ≤ address) :
    PushedWords (memory.store address value) stale top pushed := by
  apply h.of_memory
  intro byte hlow hhigh
  exact Memory.store_of_notMem (by omega)

theorem PushedWords.mono (h : PushedWords memory stale top pushed) (hstale : stale ≤ stale') :
    PushedWords memory stale' top pushed :=
  fun index entry hindex hentry => h index entry (Nat.le_trans hstale hindex) hentry

theorem FrameWords.of_memory (h : FrameWords memory made saved back)
    (hroom : 4 * made.display.length ≤ made.pointer.toNat)
    (hsame : ∀ byte, made.pointer.toNat ≤ byte + 4 * made.display.length →
      byte < made.pointer.toNat + 8 → memory' byte = memory byte) :
    FrameWords memory' made saved back := by
  constructor
  case display =>
    intro index word hindex
    have hlt := (List.getElem?_eq_some_iff.mp hindex).1
    rw [← h.display index word hindex]
    apply Memory.word_congr
    intro byte hlow hhigh
    apply hsame <;> omega
  case saved =>
    rw [← h.saved]
    apply Memory.word_congr
    intro byte hlow hhigh
    apply hsame <;> omega
  case back =>
    rw [← h.back]
    apply Memory.word_congr
    intro byte hlow hhigh
    apply hsame <;> omega

/-- A word may be stored away from a frame. -/
theorem FrameWords.store (h : FrameWords memory made saved back)
    (hroom : 4 * made.display.length ≤ made.pointer.toNat) {address : Nat}
    (hapart : address + 4 + 4 * made.display.length ≤ made.pointer.toNat ∨
      made.pointer.toNat + 8 ≤ address) :
    FrameWords (memory.store address value) made saved back := by
  apply h.of_memory hroom
  intro byte hlow hhigh
  exact Memory.store_of_notMem (by omega)

end Words

/-! ### The stack -/

/-- Activations have their words in memory from the top of the stack on, with a frame
pointer in use. -/
inductive Stacked (image : Image) (tree : Tree) (codes : List PlacedCode) (memory : Memory) :
    Nat → Nat → Word → List Activation → Prop
  | nil {top : Nat} {ebp : Word} (htop : top < 2 ^ 32) :
      Stacked image tree codes memory 0 top ebp []
  | shared {stale top base : Nat} {ebp : Word} {activation : Activation}
      {callers : List Activation} {block : BlockId}
      (hframe : activation.frame? = none)
      (hblock : blockAt codes activation.start = some block)
      (hbase : top + 4 * activation.pushed.length = base)
      (hstale : stale ≤ activation.pushed.length)
      (hwords : PushedWords memory stale top activation.pushed)
      (hreturn : memory.word base = image.address (activation.site + 1))
      (rest : Stacked image tree codes memory (tree.paramsOf block).length (base + 4) ebp callers) :
      Stacked image tree codes memory stale top ebp (activation :: callers)
  | framed {stale top base : Nat} {made : MadeFrame} {saved : Word} {activation : Activation}
      {callers : List Activation} {block : BlockId}
      (hframe : activation.frame? = some made)
      (hblock : blockAt codes activation.start = some block)
      (hlevel : made.display.length ≤ Frame.maxLevel)
      (hbase : top + 4 * activation.pushed.length = base)
      (hpointer : base + 4 * made.display.length + tree.frameSize block = made.pointer.toNat)
      (hstale : stale ≤ activation.pushed.length)
      (hwords : PushedWords memory stale top activation.pushed)
      (hmade : FrameWords memory made saved (image.address (activation.site + 1)))
      (rest : Stacked image tree codes memory (tree.paramsOf block).length
        (made.pointer.toNat + 8) saved callers) :
      Stacked image tree codes memory stale top made.pointer (activation :: callers)

namespace Stacked

variable {image : Image} {tree : Tree} {codes : List PlacedCode} {memory memory' : Memory}
variable {stale stale' top base : Nat} {ebp value : Word} {activation : Activation}
variable {stack callers : List Activation} {block owner : BlockId} {made : MadeFrame}

theorem top_lt (h : Stacked image tree codes memory stale top ebp stack) : top < 2 ^ 32 := by
  induction h with
  | nil htop => exact htop
  | shared _ _ hbase => omega
  | framed _ _ _ hbase hpointer => omega

theorem argument_lt (h : Stacked image tree codes memory stale top ebp stack) {index : Nat}
    (hindex : index < stale) : top + 4 * index < 2 ^ 32 := by
  cases h with
  | nil => exact absurd hindex (Nat.not_lt_zero index)
  | shared _ _ hbase hstale _ _ rest =>
      have hbound := rest.top_lt
      omega
  | framed _ _ _ hbase hpointer hstale => omega

/-- Only the memory from the top of the stack on matters. -/
theorem of_memory (h : Stacked image tree codes memory stale top ebp stack)
    (hsame : ∀ byte, top ≤ byte → memory' byte = memory byte) :
    Stacked image tree codes memory' stale top ebp stack := by
  induction h with
  | nil htop => exact .nil htop
  | @shared _ _ base _ _ _ _ hframe hblock hbase hstale hwords hreturn _ ih =>
      apply Stacked.shared hframe hblock hbase hstale
      · apply hwords.of_memory
        intro byte hlow _
        exact hsame byte (by omega)
      · rw [← hreturn]
        apply Memory.word_congr
        intro byte hlow _
        exact hsame byte (by omega)
      · apply ih
        intro byte hlow
        exact hsame byte (by omega)
  | framed hframe hblock hlevel hbase hpointer hstale hwords hmade _ ih =>
      apply Stacked.framed hframe hblock hlevel hbase hpointer hstale
      · apply hwords.of_memory
        intro byte hlow _
        exact hsame byte (by omega)
      · apply hmade.of_memory (by omega)
        intro byte hlow _
        exact hsame byte (by omega)
      · apply ih
        intro byte hlow
        exact hsame byte (by omega)

/-- A word may be stored below the top of the stack. -/
theorem store_below (h : Stacked image tree codes memory stale top ebp stack) {address : Nat}
    (hbelow : address + 4 ≤ top) :
    Stacked image tree codes (memory.store address value) stale top ebp stack := by
  apply h.of_memory
  intro byte hlow
  exact Memory.store_of_notMem (by omega)

/-- The frame in use lies above the top of the stack, with its display. -/
theorem frame (h : Stacked image tree codes memory stale top ebp stack)
    (hframe : stack.findSome? Activation.frame? = some made) :
    made.pointer = ebp ∧ top + 4 * made.display.length ≤ ebp.toNat ∧
      ∀ index word, made.display[index]? = some word →
        memory.word (ebp.toNat - 4 * (index + 1)) = word := by
  induction h with
  | nil => cases hframe
  | shared hnone _ hbase _ _ _ _ ih =>
      rw [List.findSome?_cons, hnone] at hframe
      obtain ⟨hpointer, hroom, hdisplay⟩ := ih hframe
      exact ⟨hpointer, by omega, hdisplay⟩
  | framed hsome _ _ hbase hpointer _ _ hmade =>
      rw [List.findSome?_cons, hsome] at hframe
      obtain rfl := Option.some.inj hframe
      exact ⟨rfl, by omega, hmade.display⟩

/-- What an activation has pushed may be replaced, while all above it stays. -/
theorem replace (h : Stacked image tree codes memory stale top ebp (activation :: callers))
    {top' : Nat} {pushed : List (Nat × Word)}
    (hbase : top' + 4 * pushed.length = top + 4 * activation.pushed.length)
    (hstale : stale' ≤ pushed.length) (hwords : PushedWords memory' stale' top' pushed)
    (hsame : ∀ byte, top + 4 * activation.pushed.length ≤ byte → memory' byte = memory byte) :
    Stacked image tree codes memory' stale' top' ebp
      ({ activation with pushed } :: callers) := by
  cases h with
  | @shared _ _ base _ _ _ block hframe hblock hfound _ _ hreturn rest =>
      refine @shared image tree codes memory' stale' top' base ebp { activation with pushed }
        callers block hframe hblock (hbase.trans hfound) hstale hwords ?_ ?_
      · rw [← hreturn]
        apply Memory.word_congr
        intro byte hlow _
        exact hsame byte (by omega)
      · apply rest.of_memory
        intro byte hlow
        exact hsame byte (by omega)
  | @framed _ _ base made saved _ _ block hframe hblock hlevel hfound hpointer _ _ hmade rest =>
      refine @framed image tree codes memory' stale' top' base made saved
        { activation with pushed } callers block hframe hblock hlevel (hbase.trans hfound) hpointer
        hstale hwords ?_ ?_
      · apply hmade.of_memory (by omega)
        intro byte hlow _
        exact hsame byte (by omega)
      · apply rest.of_memory
        intro byte hlow
        exact hsame byte (by omega)

theorem words (h : Stacked image tree codes memory stale top ebp (activation :: callers)) :
    PushedWords memory stale top activation.pushed := by
  cases h with
  | shared _ _ _ _ hwords => exact hwords
  | framed _ _ _ _ _ _ hwords => exact hwords

theorem stale_le (h : Stacked image tree codes memory stale top ebp (activation :: callers)) :
    stale ≤ activation.pushed.length := by
  cases h with
  | shared _ _ _ hstale => exact hstale
  | framed _ _ _ _ _ hstale => exact hstale

/-! ### Stores to slots -/

/-- Where the slots of a frame are: below its display and above the return address. -/
theorem offset_of_slot {offset : Int} (hslot : tree.Slot owner offset) :
    (-(tree.frameSize owner : Int) ≤ offset ∧ offset ≤ -32) ∨
      ∃ index < (tree.paramsOf owner).length, offset = 8 + 4 * (index : Int) := by
  cases hslot with
  | @inside frame hframe hlow hhigh =>
      have hsize : tree.frameSize owner = (Frame.size frame.frameBytes).toNat := by
        rw [Tree.frameSize, hframe]
        rfl
      rw [Frame.resultOffset] at hhigh
      rw [hsize]
      omega
  | param hindex hoffset => exact .inr ⟨_, hindex, hoffset⟩

/-- An argument of an activation may be stored. -/
theorem store_argument (h : Stacked image tree codes memory stale top ebp stack) {index : Nat}
    (hindex : index < stale) :
    Stacked image tree codes (memory.store (top + 4 * index) value) stale top ebp stack := by
  cases stack with
  | nil =>
      cases h
      exact absurd hindex (Nat.not_lt_zero index)
  | cons activation callers =>
      have hstale := h.stale_le
      apply h.replace rfl hstale
      · exact h.words.store (.inl (by omega))
      · intro byte hlow
        exact Memory.store_of_notMem (by omega)

/-- What was pushed and the frame do not overlap with a slot of the same activation. -/
theorem store_own (h : Stacked image tree codes memory stale top ebp (activation :: callers))
    (hframe : activation.frame? = some made) (hblock : blockAt codes activation.start = some owner)
    {offset : Int} (hslot : tree.Slot owner offset) :
    ∃ address : Nat, (made.pointer.toNat : Int) + offset = address ∧ top ≤ address ∧
      address < 2 ^ 32 ∧ Stacked image tree codes (memory.store address value) stale top ebp
        (activation :: callers) := by
  cases h with
  | shared hnone =>
      rw [hnone] at hframe
      cases hframe
  | @framed _ _ base found _ _ _ _ hsome hfound hlevel hbase hpointer hstale hwords hmade rest =>
      obtain rfl := Option.some.inj (hsome.symm.trans hframe)
      obtain rfl := Option.some.inj (hfound.symm.trans hblock)
      rw [Frame.maxLevel] at hlevel
      have hbound := found.pointer.isLt
      -- a variable lies between the pushed words and the display, a parameter among the
      -- arguments of the caller
      rcases offset_of_slot hslot with ⟨hlow, hhigh⟩ | ⟨index, hindex, hoffset⟩
      · refine ⟨((found.pointer.toNat : Int) + offset).toNat, by omega, by omega, by omega, ?_⟩
        apply Stacked.framed hsome hfound hlevel hbase hpointer hstale
        · exact hwords.store (.inr (by omega))
        · exact hmade.store (by omega) (.inl (by omega))
        · exact rest.store_below (by omega)
      · have hargument := rest.argument_lt hindex
        refine ⟨found.pointer.toNat + 8 + 4 * index, by omega, by omega, hargument, ?_⟩
        apply Stacked.framed hsome hfound hlevel hbase hpointer hstale
        · exact hwords.store (.inr (by omega))
        · exact hmade.store (by omega) (.inr (by omega))
        · exact rest.store_argument hindex

/-- A slot of any frame that was made and not taken down may be stored. -/
theorem store_slot (h : Stacked image tree codes memory stale top ebp stack)
    (hmem : activation ∈ stack) (hframe : activation.frame? = some made)
    (hblock : blockAt codes activation.start = some owner) {offset : Int}
    (hslot : tree.Slot owner offset) :
    ∃ address : Nat, (made.pointer.toNat : Int) + offset = address ∧ top ≤ address ∧
      address < 2 ^ 32 ∧ Stacked image tree codes (memory.store address value) stale top ebp
        stack := by
  induction h with
  | nil => exact absurd hmem List.not_mem_nil
  | @shared _ top base ebp _ callers _ hnone hfound hbase hstale hwords hreturn rest ih =>
      rcases List.mem_cons.mp hmem with rfl | hmem
      · exact (shared hnone hfound hbase hstale hwords hreturn rest).store_own hframe hblock hslot
      · obtain ⟨address, heq, hlow, hhigh, hstored⟩ := ih hmem
        refine ⟨address, heq, by omega, hhigh, ?_⟩
        apply Stacked.shared hnone hfound hbase hstale
        · exact hwords.store (.inr (by omega))
        · rw [Memory.word_store_of_apart (by omega)]
          exact hreturn
        · exact hstored
  | framed hsome hfound hlevel hbase hpointer hstale hwords hmade rest ih =>
      rcases List.mem_cons.mp hmem with rfl | hmem
      · exact (framed hsome hfound hlevel hbase hpointer hstale hwords hmade rest).store_own hframe
          hblock hslot
      · obtain ⟨address, heq, hlow, hhigh, hstored⟩ := ih hmem
        refine ⟨address, heq, by omega, hhigh, ?_⟩
        apply Stacked.framed hsome hfound hlevel hbase hpointer hstale
        · exact hwords.store (.inr (by omega))
        · exact hmade.store (by omega) (.inr (by omega))
        · exact hstored

/-! ### Instructions -/

/-- A word that is pushed is on top of those that were. -/
theorem push (h : Stacked image tree codes memory 0 (top + 4) ebp (activation :: callers))
    (line : Nat) : Stacked image tree codes (memory.store top value) 0 top ebp
      ({ activation with pushed := (line, value) :: activation.pushed } :: callers) := by
  apply h.replace
  · rw [List.length_cons]
    omega
  · exact Nat.zero_le _
  · intro index entry _ hentry
    cases index with
    | zero =>
        obtain rfl := Option.some.inj hentry
        exact Memory.word_store_self memory top value
    | succ index =>
        rw [List.getElem?_cons_succ] at hentry
        rw [Memory.word_store_of_apart (by omega), ← h.words index entry (Nat.zero_le _) hentry]
        congr 1
        omega
  · intro byte hlow
    exact Memory.store_of_notMem (by omega)

/-- Words are taken off the top, and with them all that may have been changed. -/
theorem takeOff (h : Stacked image tree codes memory stale top ebp (activation :: callers))
    {count : Nat} (hstale : stale ≤ count) (hcount : count ≤ activation.pushed.length) :
    Stacked image tree codes memory 0 (top + 4 * count) ebp
      ({ activation with pushed := activation.pushed.drop count } :: callers) := by
  apply h.replace
  · rw [List.length_drop]
    omega
  · exact Nat.zero_le _
  · intro index entry _ hentry
    rw [List.getElem?_drop] at hentry
    rw [← h.words (count + index) entry (by omega) hentry]
    congr 1
    omega
  · exact fun _ _ => rfl

/-- Words that were given as arguments may be changed from then on. -/
theorem raise (h : Stacked image tree codes memory stale top ebp (activation :: callers))
    (hstale : stale ≤ stale') (hle : stale' ≤ activation.pushed.length) :
    Stacked image tree codes memory stale' top ebp (activation :: callers) :=
  h.replace rfl hle (h.words.mono hstale) fun _ _ => rfl

/-- A call puts its return address on top of the arguments. -/
theorem call {start site : Nat} (hblock : blockAt codes start = some block)
    (h : Stacked image tree codes memory (tree.paramsOf block).length (top + 4) ebp stack) :
    Stacked image tree codes (memory.store top (image.address (site + 1))) 0 top ebp
      (.called start site :: stack) := by
  apply Stacked.shared rfl hblock rfl (Nat.zero_le _)
  · exact fun _ _ _ hentry => absurd hentry (by simp [Activation.called])
  · exact Memory.word_store_self memory top _
  · exact h.store_below (by omega)

/-- Where nothing but the return address is on the stack, returning takes it off. -/
theorem returns (h : Stacked image tree codes memory stale top ebp (activation :: callers))
    (hblock : blockAt codes activation.start = some block) (hframe : activation.frame? = none)
    (hpushed : activation.pushed = []) : memory.word top = image.address (activation.site + 1) ∧
      Stacked image tree codes memory (tree.paramsOf block).length (top + 4) ebp callers := by
  cases h with
  | shared _ hfound hbase _ _ hreturn rest =>
      obtain rfl := Option.some.inj (hfound.symm.trans hblock)
      rw [hpushed] at hbase
      obtain rfl := hbase
      exact ⟨hreturn, rest⟩
  | framed hsome =>
      rw [hframe] at hsome
      cases hsome

/-- A frame that is taken down leaves the return address on top. -/
theorem leave (h : Stacked image tree codes memory stale top ebp (activation :: callers))
    (hframe : activation.frame? = some made) (hpushed : activation.pushed = []) :
    Stacked image tree codes memory 0 (ebp.toNat + 4) (memory.word ebp.toNat)
      ({ activation with frame? := none } :: callers) := by
  cases h with
  | shared hnone =>
      rw [hnone] at hframe
      cases hframe
  | @framed _ _ _ found saved _ _ block hsome hfound _ _ _ _ _ hmade rest =>
      rw [hmade.saved]
      refine @shared image tree codes memory 0 _ (found.pointer.toNat + 4) saved
        { activation with frame? := none } callers block rfl hfound ?_ (Nat.zero_le _) ?_
        hmade.back rest
      · rw [hpushed]
        rfl
      · intro index entry _ hentry
        rw [hpushed] at hentry
        cases hentry

theorem displayWord_eq {machine : Machine} {level : Nat}
    (hroom : 4 * level ≤ machine.ebp.toNat) :
    machine.displayWord level = machine.memory.word (machine.ebp.toNat - 4 * level) := by
  have hbound := machine.ebp.isLt
  rw [Machine.displayWord, @toNat_add_ofInt _ _ (machine.ebp.toNat - 4 * level)]
  · rw [Frame.displayOffset, Frame.wordSize]
    omega
  · omega

/-- A frame that is made has the return address above it. -/
theorem enter {before after : Machine} {level : Nat}
    (h : Stacked image tree codes before.memory 0 before.esp.toNat before.ebp
      (activation :: callers))
    (hblock : blockAt codes activation.start = some block) (hframe : activation.frame? = none)
    (hpushed : activation.pushed = []) (hlevel : level ≤ Frame.maxLevel)
    (enters : Enters (tree.frameSize block) level before after) :
    Stacked image tree codes after.memory 0 after.esp.toNat after.ebp
      ({ activation with frame? := some (after.madeFrame level) } :: callers) := by
  obtain ⟨hreturn, rest⟩ := h.returns hblock hframe hpushed
  have hebp := enters.toNat_ebp
  have hesp := enters.esp
  have hlength : (after.madeFrame level).display.length = level := by
    rw [Machine.madeFrame, List.length_map, List.length_range]
  have habove : ∀ byte, before.esp.toNat ≤ byte → after.memory byte = before.memory byte :=
    fun byte hlow => enters.memory byte (.inr hlow)
  refine @Stacked.framed image tree codes after.memory 0 after.esp.toNat after.esp.toNat
    (after.madeFrame level) before.ebp _ callers block rfl hblock ?_ ?_ ?_ (Nat.zero_le _) ?_ ?_ ?_
  · rw [hlength]
    exact hlevel
  · rw [hpushed]
    rfl
  · rw [hlength]
    exact hesp
  · intro index entry _ hentry
    rw [hpushed] at hentry
    cases hentry
  · constructor
    case display =>
      intro index word hindex
      rw [Machine.madeFrame, List.getElem?_map, Option.map_eq_some_iff] at hindex
      obtain ⟨outer, houter, rfl⟩ := hindex
      obtain ⟨hlt, rfl⟩ := List.getElem?_eq_some_iff.mp houter
      rw [List.length_range] at hlt
      rw [List.getElem_range, displayWord_eq (by omega)]
      rfl
    case saved => exact enters.saved
    case back =>
      change after.memory.word (after.ebp.toNat + 4) = _
      rw [hebp, ← hreturn]
      apply Memory.word_congr
      exact fun byte hlow _ => habove byte hlow
  · change Stacked image tree codes after.memory _ (after.ebp.toNat + 8) before.ebp callers
    have htop : after.ebp.toNat + 8 = before.esp.toNat + 4 := by omega
    rw [htop]
    apply rest.of_memory
    exact fun byte hlow => habove byte (by omega)

end Stacked

end MiniPascal
