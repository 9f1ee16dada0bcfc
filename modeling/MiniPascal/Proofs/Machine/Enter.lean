import MiniPascal.Proofs.Machine.Instruction

/-!
# Making frames

A frame begins with the saved frame pointer.  Below it lies its display: the words of
the display that the old frame pointer leads to, up to the new frame's level, and the
new frame pointer itself.  Room for the variables comes below that.
-/

namespace MiniPascal.Machine

variable {machine before after : Machine} {value : Word} {count size level : Nat}

/-! ### Pushing words -/

/-- The machine after a push that had room. -/
def pushed (machine : Machine) (value : Word) : Machine :=
  { machine with
    esp := machine.esp - 4
    memory := machine.memory.store (machine.esp - 4).toNat value }

theorem push_eq_some (h : 4 ≤ machine.esp.toNat) (value : Word) :
    machine.push value = some (machine.pushed value) :=
  if_pos h

theorem push_eq_some_iff :
    machine.push value = some after ↔ 4 ≤ machine.esp.toNat ∧ after = machine.pushed value := by
  unfold push
  by_cases h : 4 ≤ machine.esp.toNat
  · rw [if_pos h, Option.some.injEq, and_iff_right h]
    exact eq_comm
  · rw [if_neg h]
    exact ⟨nofun, fun hboth => absurd hboth.1 h⟩

theorem toNat_esp_pushed (h : 4 ≤ machine.esp.toNat) :
    (machine.pushed value).esp.toNat = machine.esp.toNat - 4 :=
  toNat_sub_word h

theorem word_pushed (machine : Machine) (value : Word) :
    (machine.pushed value).memory.word (machine.pushed value).esp.toNat = value :=
  Memory.word_store_self _ _ _

/-- A push changes the word below the stack alone. -/
theorem memory_pushed (h : 4 ≤ machine.esp.toNat) {byte : Nat}
    (hbyte : byte + 4 < machine.esp.toNat ∨ machine.esp.toNat ≤ byte) :
    (machine.pushed value).memory byte = machine.memory byte := by
  apply Memory.store_of_notMem
  rw [toNat_sub_word h]
  omega

theorem word_pushed_of_le (h : 4 ≤ machine.esp.toNat) {address : Nat}
    (haddress : machine.esp.toNat ≤ address) :
    (machine.pushed value).memory.word address = machine.memory.word address :=
  Memory.word_congr fun _ hlow _ => memory_pushed h (.inr (Nat.le_trans haddress hlow))

/-! ### Copying the display -/

/-- The machine after one word of the display was copied. -/
def displayPushed (machine : Machine) : Machine :=
  { machine with ebp := machine.ebp - 4 }.pushed (machine.memory.word (machine.ebp - 4).toNat)

theorem copyDisplay_succ (h : 4 ≤ machine.esp.toNat) (count : Nat) :
    machine.copyDisplay (count + 1) = machine.displayPushed.copyDisplay count :=
  congrArg (Option.bind · _) (@push_eq_some { machine with ebp := machine.ebp - 4 } h _)

/-- Words of a display were copied to the top of the stack. -/
structure CopiesDisplay (count : Nat) (before after : Machine) : Prop where
  esp : after.esp.toNat + 4 * count = before.esp.toNat
  trace : after.trace = before.trace
  words : ∀ index, 1 ≤ index → index ≤ count →
    after.memory.word (before.esp.toNat - 4 * index) =
      before.memory.word (before.ebp.toNat - 4 * index)
  memory : ∀ byte, byte < after.esp.toNat ∨ before.esp.toNat ≤ byte →
    after.memory byte = before.memory byte

theorem CopiesDisplay.word_eq (h : CopiesDisplay count before after) {address : Nat}
    (haddress : before.esp.toNat ≤ address) :
    after.memory.word address = before.memory.word address :=
  Memory.word_congr fun byte hlow _ => h.memory byte (.inr (Nat.le_trans haddress hlow))

/-- The display that is copied lies above the stack, so it stays as it is meanwhile. -/
theorem exists_copiesDisplay (hroom : 4 * count ≤ before.esp.toNat)
    (habove : ∀ index, 1 ≤ index → index ≤ count →
      before.esp.toNat + 4 * index ≤ before.ebp.toNat) :
    ∃ after, before.copyDisplay count = some after ∧ CopiesDisplay count before after := by
  induction count generalizing before with
  | zero =>
      refine ⟨before, rfl, ⟨rfl, rfl, ?_, fun _ _ => rfl⟩⟩
      intro index hlow hhigh
      omega
  | succ count ih =>
      have hold := habove 1 (Nat.le_refl 1) (Nat.succ_le_succ (Nat.zero_le count))
      have hfour : 4 ≤ before.esp.toNat := by omega
      have hebp : before.displayPushed.ebp.toNat = before.ebp.toNat - 4 :=
        toNat_sub_word (by omega)
      have hesp : before.displayPushed.esp.toNat = before.esp.toNat - 4 := toNat_sub_word hfour
      obtain ⟨after, hcopy, copies⟩ := @ih before.displayPushed (by omega) (by
        intro index hlow hhigh
        have hnext := habove (index + 1) (by omega) (by omega)
        omega)
      have hdown := copies.esp
      refine ⟨after, (copyDisplay_succ hfour count).trans hcopy, ⟨by omega, copies.trace, ?_, ?_⟩⟩
      · intro index hlow hhigh
        have habove := habove index hlow hhigh
        by_cases hone : index = 1
        · subst hone
          rw [Nat.mul_one, ← hesp, copies.word_eq (Nat.le_refl _), ← hebp]
          exact word_pushed _ _
        · have hword := copies.words (index - 1) (by omega) (by omega)
          have htarget : before.displayPushed.esp.toNat - 4 * (index - 1) =
              before.esp.toNat - 4 * index := by omega
          have hsource : before.displayPushed.ebp.toNat - 4 * (index - 1) =
              before.ebp.toNat - 4 * index := by omega
          rw [htarget, hsource] at hword
          rw [hword]
          exact @word_pushed_of_le { before with ebp := before.ebp - 4 } _ hfour _
            (Nat.le_sub_of_add_le habove)
      · intro byte hbyte
        rw [copies.memory byte (by omega)]
        exact @memory_pushed { before with ebp := before.ebp - 4 } _ hfour byte (by
          change byte + 4 < before.esp.toNat ∨ before.esp.toNat ≤ byte
          omega)

/-! ### Frames -/

/-- A frame of a level was made, with room for a number of bytes. -/
structure Enters (size level : Nat) (before after : Machine) : Prop where
  ebp : after.ebp = before.esp - 4
  toNat_ebp : after.ebp.toNat + 4 = before.esp.toNat
  esp : after.esp.toNat + 4 * level + size = after.ebp.toNat
  trace : after.trace = before.trace
  saved : after.memory.word after.ebp.toNat = before.ebp
  own : after.memory.word (after.ebp.toNat - 4 * level) = after.ebp
  display : ∀ index, 1 ≤ index → index < level →
    after.memory.word (after.ebp.toNat - 4 * index) =
      before.memory.word (before.ebp.toNat - 4 * index)
  memory : ∀ byte, byte < after.esp.toNat + size ∨ before.esp.toNat ≤ byte →
    after.memory byte = before.memory byte

/-- The machine after the new frame pointer was added to the display that was copied. -/
def framed (copied : Machine) (frame : Word) (size : Nat) : Machine :=
  { copied.pushed frame with
    ebp := frame
    esp := (copied.pushed frame).esp - BitVec.ofInt 32 (size : Int) }

/-- A new frame pointer is added to a display that was copied for it. -/
theorem CopiesDisplay.enters {copied : Machine} (hfour : 4 ≤ before.esp.toNat)
    (h : CopiesDisplay count (before.pushed before.ebp) copied)
    (hroom : 4 + size ≤ copied.esp.toNat)
    (habove : ∀ index, 1 ≤ index → index < count + 1 →
      before.esp.toNat + 4 * index ≤ before.ebp.toNat) :
    Enters size (count + 1) before (copied.framed (before.pushed before.ebp).esp size) := by
  have hbound := before.esp.isLt
  have hframe : (before.pushed before.ebp).esp.toNat = before.esp.toNat - 4 :=
    toNat_esp_pushed hfour
  have hdown := h.esp
  have hsize : (BitVec.ofInt 32 (size : Int)).toNat = size := by
    rw [BitVec.toNat_ofInt]
    omega
  have hpushed : (copied.pushed (before.pushed before.ebp).esp).esp.toNat =
      copied.esp.toNat - 4 := toNat_esp_pushed (by omega)
  have hesp : (copied.framed (before.pushed before.ebp).esp size).esp.toNat =
      copied.esp.toNat - 4 - size := by
    rw [framed, BitVec.toNat_sub_of_le, hsize, hpushed]
    rw [BitVec.le_def, hsize, hpushed]
    omega
  have hunder : ∀ address, copied.esp.toNat ≤ address →
      (copied.framed (before.pushed before.ebp).esp size).memory.word address =
        copied.memory.word address := fun address haddress =>
    word_pushed_of_le (by omega) haddress
  constructor
  case ebp => rfl
  case toNat_ebp =>
    change (before.pushed before.ebp).esp.toNat + 4 = _
    omega
  case esp =>
    rw [hesp]
    change _ = (before.pushed before.ebp).esp.toNat
    omega
  case trace => exact h.trace
  case saved =>
    change Memory.word _ (before.pushed before.ebp).esp.toNat = before.ebp
    rw [hunder _ (by omega), h.word_eq (Nat.le_refl _)]
    exact word_pushed before before.ebp
  case own =>
    have haddress : (before.pushed before.ebp).esp.toNat - 4 * (count + 1) =
        (copied.pushed (before.pushed before.ebp).esp).esp.toNat := by omega
    change Memory.word _ ((before.pushed before.ebp).esp.toNat - 4 * (count + 1)) = _
    rw [haddress]
    exact word_pushed copied _
  case display =>
    intro index hlow hhigh
    have hold := habove index hlow hhigh
    change Memory.word _ ((before.pushed before.ebp).esp.toNat - 4 * index) = _
    rw [hunder _ (by omega), h.words index hlow (by omega)]
    exact word_pushed_of_le hfour (Nat.le_sub_of_add_le hold)
  case memory =>
    intro byte hbyte
    rw [hesp] at hbyte
    have hlast : (copied.framed (before.pushed before.ebp).esp size).memory byte =
        copied.memory byte := memory_pushed (by omega) (by omega)
    rw [hlast, h.memory byte (by omega)]
    exact memory_pushed hfour (by omega)

/-- A frame is made when there is room for it and the old display lies above the stack. -/
theorem exists_enters (hlevel : 1 ≤ level) (hlevel' : level < 32)
    (hroom : 4 + 4 * level + size ≤ before.esp.toNat)
    (habove : ∀ index, 1 ≤ index → index < level →
      before.esp.toNat + 4 * index ≤ before.ebp.toNat) :
    ∃ after, before.enter size level = some after ∧ Enters size level before after := by
  obtain ⟨outer, rfl⟩ : ∃ outer, level = outer + 1 := ⟨level - 1, by omega⟩
  have hfour : 4 ≤ before.esp.toNat := by omega
  have hframe : (before.pushed before.ebp).esp.toNat = before.esp.toNat - 4 :=
    toNat_esp_pushed hfour
  obtain ⟨copied, hcopy, copies⟩ := @exists_copiesDisplay (before.pushed before.ebp) outer
    (by omega) (by
      intro index hlow hhigh
      have hold := habove index hlow (by omega)
      change (before.pushed before.ebp).esp.toNat + 4 * index ≤ before.ebp.toNat
      omega)
  have hdown := copies.esp
  refine ⟨_, ?_, copies.enters hfour (by omega) habove⟩
  have hbound := before.esp.isLt
  have hmod : (outer + 1) % 32 = outer + 1 := Nat.mod_eq_of_lt hlevel'
  have hfits : (BitVec.ofInt 32 (size : Int)).toNat ≤
      (copied.pushed (before.pushed before.ebp).esp).esp.toNat := by
    rw [toNat_esp_pushed (by omega), BitVec.toNat_ofInt]
    omega
  unfold enter
  rw [push_eq_some hfour, hmod]
  simp only [Option.bind_eq_bind, Option.bind_some, hcopy, @push_eq_some copied (by omega),
    if_pos hfits]
  rfl

/-- A display is copied only when there is room for it. -/
theorem esp_of_copyDisplay (h : before.copyDisplay count = some after) :
    after.esp.toNat + 4 * count = before.esp.toNat := by
  induction count generalizing before with
  | zero =>
      obtain rfl := Option.some.inj h
      rfl
  | succ count ih =>
      obtain ⟨pushed, hpush, hrest⟩ := Option.bind_eq_some_iff.mp h
      obtain ⟨hroom, rfl⟩ := push_eq_some_iff.mp hpush
      have hcopied := ih hrest
      have hdown := @toNat_esp_pushed { before with ebp := before.ebp - 4 }
        (before.memory.word (before.ebp - 4).toNat) hroom
      change 4 ≤ before.esp.toNat at hroom
      change _ = before.esp.toNat - 4 at hdown
      rw [hdown] at hcopied
      omega

/-- A frame is made only when there is room for it. -/
theorem room_of_enter (hlevel : 1 ≤ level) (hlevel' : level < 32) (hsize : size < 2 ^ 32)
    (h : before.enter size level = some after) : 4 + 4 * level + size ≤ before.esp.toNat := by
  obtain ⟨outer, rfl⟩ : ∃ outer, level = outer + 1 := ⟨level - 1, by omega⟩
  obtain ⟨saved, hsaved, h⟩ := Option.bind_eq_some_iff.mp h
  obtain ⟨hroom, rfl⟩ := push_eq_some_iff.mp hsaved
  rw [Nat.mod_eq_of_lt hlevel'] at h
  obtain ⟨copied, hcopied, h⟩ := Option.bind_eq_some_iff.mp h
  obtain ⟨displayed, hpush, h⟩ := Option.bind_eq_some_iff.mp h
  obtain ⟨hroom', rfl⟩ := push_eq_some_iff.mp hpush
  have hcopy := esp_of_copyDisplay hcopied
  rw [toNat_esp_pushed hroom] at hcopy
  simp only at h
  split at h
  · next hfits =>
      rw [toNat_esp_pushed hroom', BitVec.toNat_ofInt] at hfits
      omega
  · cases h

/-- What a frame that was made is like. -/
theorem enters_of_enter (hlevel : 1 ≤ level) (hlevel' : level < 32) (hsize : size < 2 ^ 32)
    (habove : ∀ index, 1 ≤ index → index < level →
      before.esp.toNat + 4 * index ≤ before.ebp.toNat)
    (h : before.enter size level = some after) : Enters size level before after := by
  obtain ⟨made, hmade, enters⟩ := exists_enters hlevel hlevel'
    (room_of_enter hlevel hlevel' hsize h) habove
  cases h.symm.trans hmade
  exact enters

end MiniPascal.Machine
