import Mathlib.Algebra.Group.Int.Defs
import Mathlib.Algebra.Group.Nat.Defs

/-!
# Words in memory

Memory is a byte for each address.  A word lies in four of them, the low byte
first; addresses are numbers, so that two words keep apart when their numbers do.
-/

namespace MiniPascal.Machine

abbrev Word := BitVec 32

/-- What every address holds. -/
abbrev Memory := Nat → BitVec 8

namespace Memory

variable {memory : Memory} {address other : Nat} {value : Word}

def word (memory : Memory) (address : Nat) : Word :=
  memory (address + 3) ++ memory (address + 2) ++ memory (address + 1) ++ memory address

def store (memory : Memory) (address : Nat) (value : Word) : Memory := fun byte =>
  if address ≤ byte ∧ byte < address + 4 then
    value.extractLsb' (8 * (byte - address)) 8
  else memory byte

/-- The bytes of a word make up the word. -/
theorem append_bytes (value : Word) :
    value.extractLsb' 24 8 ++ value.extractLsb' 16 8 ++ value.extractLsb' 8 8 ++
      value.extractLsb' 0 8 = value := by
  apply BitVec.eq_of_getLsbD_eq
  intro bit hbit
  simp only [BitVec.getLsbD_append, BitVec.getLsbD_extractLsb']
  split
  · simp_all
  · split
    · next hlow hnext =>
      have hbit : 8 + (bit - 8) = bit := by omega
      simp [hbit, hnext]
    · split
      · next hlow hnext hthird =>
        have hbit : 16 + (bit - 8 - 8) = bit := by omega
        simp [hbit, hthird]
      · next hlow hnext hthird =>
        have hbit' : 24 + (bit - 8 - 8 - 8) = bit := by omega
        have hlast : bit - 8 - 8 - 8 < 8 := by omega
        simp [hbit', hlast]

@[simp]
theorem word_store_self (memory : Memory) (address : Nat) (value : Word) :
    (memory.store address value).word address = value := by
  have hbyte : ∀ offset < 4,
      memory.store address value (address + offset) = value.extractLsb' (8 * offset) 8 := by
    intro offset hoffset
    rw [store, if_pos ⟨Nat.le_add_right _ _, Nat.add_lt_add_left hoffset _⟩,
      Nat.add_sub_cancel_left]
  calc (memory.store address value).word address
      = value.extractLsb' 24 8 ++ value.extractLsb' 16 8 ++ value.extractLsb' 8 8 ++
          value.extractLsb' 0 8 := by
        rw [word, hbyte 3 (by decide), hbyte 2 (by decide), hbyte 1 (by decide)]
        exact congrArg _ (hbyte 0 (by decide))
    _ = value := append_bytes value

/-- The bytes outside a stored word stay. -/
theorem store_of_notMem {byte : Nat} (h : byte < address ∨ address + 4 ≤ byte) :
    memory.store address value byte = memory byte := by
  apply if_neg
  omega

/-- A word is made of its four bytes alone. -/
theorem word_congr {memory' : Memory}
    (h : ∀ byte, address ≤ byte → byte < address + 4 → memory' byte = memory byte) :
    memory'.word address = memory.word address := by
  have hbyte : ∀ offset < 4, memory' (address + offset) = memory (address + offset) := by
    intro offset hoffset
    apply h
    · exact Nat.le_add_right _ _
    · exact Nat.add_lt_add_left hoffset _
  rw [word, word, hbyte 3 (by decide), hbyte 2 (by decide), hbyte 1 (by decide)]
  exact congrArg _ (hbyte 0 (by decide))

/-- Words that keep apart do not change each other. -/
theorem word_store_of_apart (h : address + 4 ≤ other ∨ other + 4 ≤ address) :
    (memory.store address value).word other = memory.word other := by
  apply word_congr
  intro byte hlow hhigh
  apply store_of_notMem
  omega

end Memory

/-! ### Addresses -/

/-- A small offset from a register's word is added as to a number. -/
theorem toNat_add_ofInt {base : Word} {offset : Int} {address : Nat}
    (h : (base.toNat : Int) + offset = address) (hbound : address < 2 ^ 32) :
    (base + BitVec.ofInt 32 offset).toNat = address := by
  rw [BitVec.toNat_add, BitVec.toNat_ofInt]
  omega

theorem toNat_sub_word {base : Word} (h : 4 ≤ base.toNat) :
    (base - 4).toNat = base.toNat - 4 := by
  have hbound := base.isLt
  rw [BitVec.toNat_sub]
  have hfour : (4 : Word).toNat = 4 := rfl
  rw [hfour]
  omega

theorem toNat_add_word {base : Word} (h : base.toNat + 4 < 2 ^ 32) :
    (base + 4).toNat = base.toNat + 4 := by
  rw [BitVec.toNat_add]
  have hfour : (4 : Word).toNat = 4 := rfl
  rw [hfour]
  omega

end MiniPascal.Machine
