import MiniPascal.Proofs.Binding.Exprs
import MiniPascal.Proofs.Oracle.Contract
import MiniPascal.Proofs.Tree.Lookup

/-!
# The stack of code with calls

While code runs, words wait on the stack below the words of all variables.  A call may
change any variable, but neither what waits nor the display by which variables are
reached.
-/

namespace MiniPascal

open MiniPascal.Assembly
open MiniPascal.Code
open MiniPascal.Machine

variable {vars : Variables}

/-- The variables and parameters that can be named in a block are among the variables. -/
def Variables.Cover (vars : Variables) (tree : Tree) (block : BlockId) : Prop :=
  ∀ (name : String) (id : DeclId) (decl : Decl), tree.lookup block name = some id →
    tree.decls[id]? = some decl → decl.kind.isWord = true → id ∈ vars.ids

/-- Whatever can be named in a block is in the tables of the block and those around it. -/
theorem Variables.cover_of_tables {tree : Tree} {block : BlockId}
    (h : ∀ outer ∈ tree.chain block, ∀ entry ∈ tree.tableAt outer,
      (tree.decls[entry.2]?).any (·.kind.isWord) = true → entry.2 ∈ vars.ids) :
    vars.Cover tree block := by
  intro name id decl hname hdecl hword
  rw [Tree.lookup_eq_findSome?] at hname
  obtain ⟨outer, houter, hfound⟩ := List.exists_of_findSome?_eq_some hname
  obtain ⟨before, after, htable, -⟩ := List.lookup_eq_some_iff.mp hfound
  have hentry : (name, id) ∈ tree.tableAt outer := by
    rw [htable]
    exact List.mem_append_right _ List.mem_cons_self
  apply h outer houter (name, id) hentry
  rw [hdecl, Option.any_some]
  exact hword

/-- A display word can be read and lies apart from all variables. -/
structure Variables.Displayed (vars : Variables) (machine : Machine) (level : Nat) : Prop where
  above : machine.esp.toNat ≤ machine.displayAddress level
  apart : ∀ byte, machine.displayAddress level ≤ byte → byte < machine.displayAddress level + 4 →
    ¬vars.Holds byte

/-- The words of all variables lie above the stack, and the display leads to them. -/
structure Variables.Reached (vars : Variables) (tree : Tree) (machine : Machine) : Prop where
  above : ∀ id ∈ vars.ids, machine.esp.toNat ≤ vars.address id
  display : ∀ id ∈ vars.ids, ∃ decl layout, tree.decls[id]? = some decl ∧
    decl.layout? = some layout ∧ vars.Displayed machine layout.frameLevel ∧
    (machine.memory.word (machine.displayAddress layout.frameLevel) +
      BitVec.ofInt 32 layout.offset).toNat = vars.address id

/-- Words were pushed, the first one last, and the variables have got words.  Nothing else
was changed from the top of the stack on. -/
structure Leaves (before : Machine) (pushed : List Word) (words : vars.Words) (after : Machine) :
    Prop where
  ebp : after.ebp = before.ebp
  esp : after.esp.toNat + 4 * pushed.length = before.esp.toNat
  words : vars.words after.memory = words
  memory : ∀ byte, before.esp.toNat ≤ byte → ¬vars.Holds byte →
    after.memory byte = before.memory byte
  pushed : ∀ index word, pushed[index]? = some word →
    after.memory.word (after.esp.toNat + 4 * index) = word

namespace Variables.Reached

variable {tree : Tree} {machine : Machine}

/-- No variable has its word below the stack. -/
theorem not_holds (h : vars.Reached tree machine) {byte : Nat} (hbyte : byte < machine.esp.toNat) :
    ¬vars.Holds byte := by
  rintro ⟨id, hid, hlow, -⟩
  have habove := h.above id hid
  omega

end Variables.Reached

namespace Leaves

variable {tree : Tree} {before middle after : Machine} {pushed pushed' : List Word}
variable {words words' : vars.Words} {value : Word}

theorem refl (vars : Variables) (machine : Machine) :
    Leaves machine [] (vars.words machine.memory) machine where
  ebp := rfl
  esp := rfl
  words := rfl
  memory _ _ _ := rfl
  pushed _ _ h := by cases h

/-- Other registers do not matter. -/
theorem of_eq (h : Leaves before pushed words middle) (hebp : after.ebp = middle.ebp)
    (hesp : after.esp = middle.esp) (hmemory : after.memory = middle.memory) :
    Leaves before pushed words after where
  ebp := hebp.trans h.ebp
  esp := by rw [hesp, h.esp]
  words := by rw [hmemory, h.words]
  memory := by
    rw [hmemory]
    exact h.memory
  pushed := by
    rw [hmemory, hesp]
    exact h.pushed

theorem esp_le (h : Leaves before pushed words after) : after.esp.toNat ≤ before.esp.toNat := by
  have hesp := h.esp
  omega

theorem displayAddress_eq (h : Leaves before pushed words after) (level : Nat) :
    after.displayAddress level = before.displayAddress level := by
  rw [displayAddress, displayAddress, h.ebp]

/-- The display is kept. -/
theorem word_display (h : Leaves before pushed words after) {level : Nat}
    (displayed : vars.Displayed before level) :
    after.memory.word (after.displayAddress level) =
      before.memory.word (before.displayAddress level) := by
  rw [h.displayAddress_eq]
  apply Memory.word_congr
  intro byte hlow hhigh
  exact h.memory byte (Nat.le_trans displayed.above hlow) (displayed.apart byte hlow hhigh)

/-- The display leads to the variables as before. -/
theorem reached (h : Leaves before pushed words after) (reached : vars.Reached tree before) :
    vars.Reached tree after where
  above id hid := Nat.le_trans h.esp_le (reached.above id hid)
  display id hid := by
    obtain ⟨decl, layout, hdecl, hlayout, hdisplayed, haddress⟩ := reached.display id hid
    have hsame := h.displayAddress_eq layout.frameLevel
    refine ⟨decl, layout, hdecl, hlayout, ⟨?_, ?_⟩, ?_⟩
    · rw [hsame]
      exact Nat.le_trans h.esp_le hdisplayed.above
    · rw [hsame]
      exact hdisplayed.apart
    · rw [h.word_display hdisplayed, haddress]

/-- What is pushed later lies on top. -/
theorem trans (h : Leaves before pushed words middle) (reached : vars.Reached tree before)
    (h' : Leaves middle pushed' words' after) : Leaves before (pushed' ++ pushed) words' after where
  ebp := h'.ebp.trans h.ebp
  esp := by
    have hesp := h.esp
    have hesp' := h'.esp
    rw [List.length_append]
    omega
  words := h'.words
  memory byte hbyte hfree :=
    (h'.memory byte (Nat.le_trans h.esp_le hbyte) hfree).trans (h.memory byte hbyte hfree)
  pushed index word hword := by
    have hesp := h.esp
    have hesp' := h'.esp
    rcases Nat.lt_or_ge index pushed'.length with hlt | hge
    · rw [List.getElem?_append_left hlt] at hword
      exact h'.pushed index word hword
    · rw [List.getElem?_append_right hge] at hword
      have hindex := (List.getElem?_eq_some_iff.mp hword).1
      have haddress : after.esp.toNat + 4 * index =
          middle.esp.toNat + 4 * (index - pushed'.length) := by
        omega
      rw [← h.pushed _ word hword, haddress]
      -- what was pushed before lies between the two tops of the stack
      apply Memory.word_congr
      intro byte hlow hhigh
      exact h'.memory byte (by omega) (reached.not_holds (by omega))

/-- A word is pushed if there is room for it. -/
theorem exists_push (h : Leaves before pushed words middle) (reached : vars.Reached tree before)
    (hroom : 4 ≤ middle.esp.toNat) (value : Word) :
    ∃ after, middle.push value = some after ∧ Leaves before (value :: pushed) words after := by
  have hesp := toNat_sub_word hroom
  have hle := h.esp_le
  refine ⟨_, if_pos hroom, ?_⟩
  have htop : Leaves middle [value] words
      { middle with
        esp := middle.esp - 4
        memory := middle.memory.store (middle.esp - 4).toNat value } := by
    constructor
    case ebp => rfl
    case esp =>
      rw [hesp]
      exact Nat.sub_add_cancel hroom
    case words =>
      rw [← h.words]
      funext id
      apply Memory.word_store_of_apart
      have habove := reached.above id.val id.property
      omega
    case memory =>
      intro byte hbyte _
      apply Memory.store_of_notMem
      omega
    case pushed =>
      intro index word hword
      cases index with
      | zero =>
          obtain rfl := Option.some.inj hword
          exact Memory.word_store_self _ _ _
      | succ index => cases hword
  exact h.trans reached htop

/-- The word on top is taken off. -/
theorem popped (h : Leaves before (value :: pushed) words middle) :
    middle.top = value ∧ Leaves before pushed words middle.popped := by
  have hesp := h.esp
  rw [List.length_cons] at hesp
  have hbound := before.esp.isLt
  have hsp : (middle.esp + 4).toNat = middle.esp.toNat + 4 := by
    apply toNat_add_word
    omega
  refine ⟨h.pushed 0 value rfl, ⟨h.ebp, ?_, h.words, h.memory, ?_⟩⟩
  · rw [Machine.popped, hsp]
    omega
  · intro index word hword
    have hnext := h.pushed (index + 1) word hword
    have haddress : (middle.esp + 4).toNat + 4 * index = middle.esp.toNat + 4 * (index + 1) := by
      rw [hsp]
      omega
    rw [Machine.popped, haddress]
    exact hnext

end Leaves

end MiniPascal
