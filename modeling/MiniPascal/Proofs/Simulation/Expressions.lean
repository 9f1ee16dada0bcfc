import MiniPascal.Proofs.Code.Shape
import MiniPascal.Proofs.Simulation.Stack
import MiniPascal.Proofs.Source.Agreement

/-!
# Expressions run as they mean

In the frame of a program every variable has its word, in the order of declaration.
The code of an expression that has a value leaves the value in `eax` and keeps the stack.
-/

namespace MiniPascal

open MiniPascal.Assembly
open MiniPascal.Code
open MiniPascal.Machine
open MiniPascal.Source

/-! ### The frame of a program -/

/-- Where the word of a variable is, by the address of the frame. -/
def slotAddress (frame index : Nat) : Nat :=
  frame - 36 - 4 * index

/-- The machine runs in the frame at an address, where the variables have their words. -/
structure InFrame (frame : Nat) (slots : List String) (store : Store) (machine : Machine) :
    Prop where
  ebp : machine.ebp.toNat = frame
  room : machine.esp.toNat + 36 + 4 * slots.length ≤ frame
  display : machine.memory.word (frame - 4) = machine.ebp
  words : ∀ index name, slots[index]? = some name →
    machine.memory.word (slotAddress frame index) = store name

namespace InFrame

variable {frame : Nat} {slots : List String} {store : Store} {before after : Machine}
  {word : Word}

/-- The words of a frame lie above the stack. -/
theorem esp_le_slotAddress (h : InFrame frame slots store before) {index : Nat} {name : String}
    (hslot : slots[index]? = some name) : before.esp.toNat ≤ slotAddress frame index := by
  have hindex := (List.getElem?_eq_some_iff.mp hslot).1
  have hroom := h.room
  rw [slotAddress]
  omega

theorem of_memory (h : InFrame frame slots store before) (hebp : after.ebp = before.ebp)
    (hesp : after.esp.toNat ≤ before.esp.toNat)
    (hmemory : ∀ byte, before.esp.toNat ≤ byte → after.memory byte = before.memory byte) :
    InFrame frame slots store after where
  ebp := by rw [hebp, h.ebp]
  room := by
    have hroom := h.room
    omega
  display := by
    have hroom := h.room
    rw [hebp, ← h.display]
    exact Memory.word_congr fun byte hlow _ => hmemory byte (by omega)
  words index name hslot := by
    have hroom := h.esp_le_slotAddress hslot
    rw [← h.words index name hslot]
    exact Memory.word_congr fun byte hlow _ => hmemory byte (by omega)

theorem of_writes {events : List Event} (h : InFrame frame slots store before)
    (hwrites : Writes events before after) : InFrame frame slots store after :=
  h.of_memory hwrites.ebp (Nat.le_of_eq (congrArg BitVec.toNat hwrites.esp)) hwrites.memory

theorem of_saved (h : InFrame frame slots store before) (hsaved : Saved word before after) :
    InFrame frame slots store after :=
  h.of_memory hsaved.ebp (Nat.le_of_lt (by have := hsaved.toNat_esp; omega)) hsaved.memory

/-- The display word of a program's own frame holds its frame pointer. -/
theorem read_base (h : InFrame frame slots store before) (index : Nat) :
    before.read (slotAt index).base = some before.ebp := by
  have hbound := before.ebp.isLt
  have hroom := h.room
  have hebp := h.ebp
  have haddress : (before.ebp + BitVec.ofInt 32 (Frame.displayOffset 1)).toNat = frame - 4 := by
    apply toNat_add_ofInt
    · simp only [Frame.displayOffset, Frame.wordSize]
      omega
    · omega
  change some (before.memory.word (before.ebp + BitVec.ofInt 32 (Frame.displayOffset 1)).toNat) = _
  rw [haddress, h.display]

/-- With the frame pointer in `edx`, a variable's word is at its address. -/
theorem address_slot (h : InFrame frame slots store before) {index : Nat} {name : String}
    (hslot : slots[index]? = some name) (hedx : after.edx = before.ebp) :
    after.address? (slotAt index).offset .edx = some (slotAddress frame index) := by
  have hbound := before.ebp.isLt
  have hroom := h.room
  have hebp := h.ebp
  have hindex := (List.getElem?_eq_some_iff.mp hslot).1
  have haddress : (before.ebp + BitVec.ofInt 32 (slotAt index).offset).toNat =
      slotAddress frame index := by
    apply toNat_add_ofInt
    · simp only [slotAt, Frame.firstLocalOffset, Frame.headerBytes, Frame.wordSize, slotAddress]
      omega
    · rw [slotAddress]
      omega
  change some (after.edx + BitVec.ofInt 32 (slotAt index).offset).toNat = _
  rw [hedx, haddress]

end InFrame

/-! ### Values -/

/-- The code leaves a word in `eax`, and keeps the stack. -/
def Computes (image : Image) (start : Nat) (code : List Line) (before : Machine) (word : Word) :
    Prop :=
  ∃ after, image.Runs start code before after ∧ after.eax = word ∧ before.Keeps after

section Expressions

variable {image : Image} {env : Env} {names : Names} {scope : String → Option DeclId}
  {slots : List String} {block : BlockId} {frame : Nat} {store : Store}
  {counter final start : Nat} {lines : List Line} {before : Machine}

theorem computes_number {value : Int} {comment : String}
    (placed : image.Placed start [.instruction none (.move (.immediate value) .eax) comment]) :
    Computes image start [.instruction none (.move (.immediate value) .eax) comment] before
      (BitVec.ofInt 32 value) :=
  ⟨_, .exec placed rfl, rfl, (Keeps.refl before).of_eq rfl rfl rfl rfl⟩

/-- A variable's word is loaded from the frame. -/
theorem computes_load (inFrame : InFrame frame slots store before) {index : Nat} {name : String}
    (hslot : slots[index]? = some name) {comment : String}
    (placed : image.Placed start [.instruction none (.move (slotAt index).base .edx) "",
      .instruction none (.move (slotAt index).slot .eax) comment]) :
    Computes image start [.instruction none (.move (slotAt index).base .edx) "",
      .instruction none (.move (slotAt index).slot .eax) comment] before (store name) := by
  have hbase : before.exec (.move (slotAt index).base .edx) =
      some { before with edx := before.ebp } := by
    rw [exec, inFrame.read_base]
    rfl
  have hslot : Machine.exec { before with edx := before.ebp }
      (.move (slotAt index).slot .eax) =
        some { before with edx := before.ebp, eax := store name } := by
    rw [exec, Layout.slot, Machine.read, inFrame.address_slot hslot rfl,
      ← inFrame.words index name hslot]
    rfl
  exact ⟨_, .cons placed hbase (.exec placed.tail hslot), rfl,
    (Keeps.refl before).of_eq rfl rfl rfl rfl⟩

/-- Code after code that keeps the stack. -/
theorem Computes.append {first second : List Line} {word word' : Word}
    (h : Computes image start first before word)
    (hnext : ∀ {after : Machine}, after.eax = word → before.Keeps after →
      Computes image (start + first.length) second after word') :
    Computes image start (first ++ second) before word' := by
  obtain ⟨middle, hfirst, heax, hkeeps⟩ := h
  obtain ⟨after, hsecond, heax', hkeeps'⟩ := hnext heax hkeeps
  exact ⟨after, hfirst.append hsecond, heax', hkeeps.trans hkeeps'⟩

/-- A name that has a value is that of a variable or a constant. -/
theorem Source.Denotes.of_nameValue {tree : Tree} {name : String} {id : DeclId} {word : Word}
    (h : Denotes tree slots name id (names name))
    (hvalue : Source.nameValue names store name = some word) :
    (names name = some .variable ∧ word = store name ∧ ∃ decl type index,
      tree.decls[id]? = some decl ∧ decl.kind = .variableOf type ∧
        slots[index]? = some name ∧ decl.layout? = some (slotAt index)) ∨
    ∃ path value literal?, tree.Denotes path id value literal? ∧ word = BitVec.ofInt 32 value := by
  rw [Source.nameValue] at hvalue
  cases hmeaning : names name with
  | none =>
      rw [hmeaning] at hvalue
      cases hvalue
  | some meaning =>
      rw [hmeaning] at h hvalue
      cases h with
      | word found kind slot layout =>
          exact .inl ⟨rfl, (Option.some.inj hvalue).symm, _, _, _, found, kind, slot, layout⟩
      | constant denotes => exact .inr ⟨_, _, _, denotes, (Option.some.inj hvalue).symm⟩
      | typeName | write => cases hvalue

/-- The code of a name leaves its value, after that of its index. -/
theorem computes_nameValue (agrees : Agrees env.tree slots scope names) {ref : NameRef}
    {index : Emit Unit} (hcode : NameCode env ref index counter lines final)
    (bound : env.tree.Bound scope block (.value, ref))
    (inFrame : InFrame frame slots store before) (placed : image.Placed start lines) {word : Word}
    (hvalue : Source.nameValue names store ref.name = some word)
    (hindex : ∀ {counter lines final}, index.Emits counter lines final () →
      image.Placed start lines → names ref.name = some .variable →
        ∃ word, Computes image start lines before word) :
    Computes image start lines before word := by
  obtain ⟨id, decl, hid, hscope, hdecl, -⟩ := bound
  rcases (agrees ref.name id hscope).of_nameValue hvalue with
    ⟨hmeaning, rfl, found, type, place, hfound, hkind, hslot, hlayout⟩ |
      ⟨path, value, literal?, denotes, rfl⟩
  · obtain rfl := Option.some.inj (hfound.symm.trans hdecl)
    cases hcode with
    | word hid' hdecl' _ hlayout' hemits =>
        obtain rfl := Option.some.inj (hid.symm.trans hid')
        obtain rfl := Option.some.inj (hdecl.symm.trans hdecl')
        obtain rfl := Option.some.inj (hlayout.symm.trans hlayout')
        obtain ⟨placedIndex, placedLoad⟩ := Image.placed_append.mp placed
        obtain ⟨_, hcomputes⟩ := hindex hemits placedIndex hmeaning
        exact hcomputes.append fun _ hkeeps =>
          computes_load (inFrame.of_writes hkeeps) hslot placedLoad
    | number hid' hdecl' hnumber =>
        obtain rfl := Option.some.inj (hid.symm.trans hid')
        obtain rfl := Option.some.inj (hdecl.symm.trans hdecl')
        rw [Tree.declValue, Tree.valueBy, hkind] at hnumber
        cases hnumber
    | function hid' hcalls =>
        obtain rfl := Option.some.inj (hid.symm.trans hid')
        obtain ⟨_, hroutine⟩ := hcalls.exists_routine hdecl
        cases hkind.symm.trans hroutine
  · have hconstant := denotes.kind hdecl
    cases hcode with
    | word hid' hdecl' hword =>
        obtain rfl := Option.some.inj (hid.symm.trans hid')
        obtain rfl := Option.some.inj (hdecl.symm.trans hdecl')
        rcases hconstant with ⟨_, hconstant⟩ | ⟨_, hconstant⟩ <;>
          rcases hword with ⟨_, hword⟩ | ⟨_, hword⟩ <;> cases hconstant.symm.trans hword
    | number hid' hdecl' hnumber =>
        obtain rfl := Option.some.inj (hid.symm.trans hid')
        obtain rfl := Except.ok.inj ((denotes.declValue_eq hdecl').symm.trans hnumber)
        exact computes_number placed
    | function hid' hcalls =>
        obtain rfl := Option.some.inj (hid.symm.trans hid')
        obtain ⟨_, hroutine⟩ := hcalls.exists_routine hdecl
        rcases hconstant with ⟨_, hconstant⟩ | ⟨_, hconstant⟩ <;>
          cases hconstant.symm.trans hroutine

/-! ### Operations -/

/-- Dividing the sign-extended `eax` by `ecx`. -/
theorem exec_divide (h : Divides before.eax before.ecx) :
    ({ before with edx := if before.eax.msb then -1 else 0 } : Machine).exec (.divide .ecx) =
      some { before with
        eax := before.eax.sdiv before.ecx
        edx := before.eax.srem before.ecx
        compared? := none } := by
  change (divideWords (if before.eax.msb then -1 else 0) before.eax before.ecx).bind _ = _
  rw [divideWords_signExtended h]
  rfl

theorem computes_operation {op : BinaryOp} {word : Word}
    (hword : wordOf? op before.eax before.ecx = some word)
    (placed : image.Placed start (operationLines op)) :
    Computes image start (operationLines op) before word := by
  have hkeeps := Keeps.refl before
  cases op with
  | add | subtract | or | multiply | and =>
      obtain rfl := Option.some.inj hword
      exact ⟨_, .exec placed rfl, rfl, hkeeps.of_eq rfl rfl rfl rfl⟩
  | divide =>
      rw [wordOf?] at hword
      split at hword
      · next hdivides =>
          obtain rfl := Option.some.inj hword
          exact ⟨_, .cons placed rfl (.exec placed.tail (exec_divide hdivides)), rfl,
            hkeeps.of_eq rfl rfl rfl rfl⟩
      · cases hword
  | modulo =>
      rw [wordOf?] at hword
      split at hword
      · next hdivides =>
          obtain rfl := Option.some.inj hword
          exact ⟨_, .cons placed rfl (.cons placed.tail (exec_divide hdivides)
            (.exec placed.tail.tail rfl)), rfl, hkeeps.of_eq rfl rfl rfl rfl⟩
      · cases hword

/-- The word that waits on the stack is taken off for an operation with the one in `eax`. -/
theorem runs_operation {op : BinaryOp} {saved word : Word} {middle : Machine}
    (hsaved : Saved saved before middle) (hword : wordOf? op saved middle.eax = some word)
    (placed : image.Placed start (.instruction none (.move .eax .ecx) "" ::
      .instruction none (.pop .eax) "" :: operationLines op)) :
    ∃ after, image.Runs start (.instruction none (.move .eax .ecx) "" ::
        .instruction none (.pop .eax) "" :: operationLines op) middle after ∧
      after.eax = word ∧ before.Keeps after := by
  have hpop : ({ middle with ecx := middle.eax } : Machine).exec (.pop .eax) =
      some { middle.popped with ecx := middle.eax, eax := saved } := by
    rw [← hsaved.top]
    rfl
  have hkeeps : before.Keeps { middle.popped with ecx := middle.eax, eax := saved } :=
    hsaved.keeps_of_popped.of_eq rfl rfl rfl rfl
  have hlast : Computes image (start + 1 + 1) (operationLines op)
      { middle.popped with ecx := middle.eax, eax := saved } word :=
    computes_operation hword placed.tail.tail
  obtain ⟨after, hruns, heax, hkept⟩ := hlast
  exact ⟨after, .cons placed rfl (.cons placed.tail hpop hruns), heax, hkeeps.trans hkept⟩

/-- The low byte of zero is the condition that is stored in it. -/
theorem ofBool_eq (value : Bool) :
    (0 : Word).extractLsb' 8 24 ++ (if value then 1#8 else 0#8) = ofBool value := by
  cases value <;> decide

/-- The word that waits on the stack is compared with the one in `eax`. -/
theorem runs_comparison {relation : Relation} {saved : Word} {middle : Machine}
    (hsaved : Saved saved before middle)
    (placed : image.Placed start (comparisonLines relation)) :
    ∃ after, image.Runs start (comparisonLines relation) middle after ∧
      after.eax = ofBool (holds relation saved middle.eax) ∧ before.Keeps after := by
  have hpop : middle.exec (.pop .ecx) = some { middle.popped with ecx := saved } := by
    rw [← hsaved.top]
    rfl
  exact ⟨_, .cons placed hpop (.cons placed.tail rfl (.cons placed.tail.tail rfl
    (.exec placed.tail.tail.tail rfl))), ofBool_eq _, hsaved.keeps_of_popped.of_eq rfl rfl rfl rfl⟩

/-- A value waits on the stack while another one is computed, and is taken off by the
code after that. -/
theorem Computes.saved {first second rest : List Line} {word word' result : Word}
    (placed : image.Placed start
      (first ++ .instruction none (.push .eax) "" :: (second ++ rest)))
    (hroom : 4 ≤ before.esp.toNat)
    (h : image.Placed start first → Computes image start first before word)
    (hsecond : ∀ {start : Nat} {middle : Machine}, image.Placed start second →
      Saved word before middle → Computes image start second middle word')
    (hrest : ∀ {start : Nat} {middle : Machine}, image.Placed start rest →
      Saved word before middle → middle.eax = word' →
        ∃ after, image.Runs start rest middle after ∧ after.eax = result ∧ before.Keeps after) :
    Computes image start (first ++ .instruction none (.push .eax) "" :: (second ++ rest)) before
      result := by
  obtain ⟨placedFirst, placedPush⟩ := Image.placed_append.mp placed
  obtain ⟨placedSecond, placedRest⟩ := Image.placed_append.mp placedPush.tail
  obtain ⟨middle, hfirst, rfl, hkeeps⟩ := h placedFirst
  have hroom' : 4 ≤ middle.esp.toNat := by rwa [hkeeps.esp]
  obtain ⟨pushed, hpush, hsaved, -⟩ := exists_saved_of_push hroom' middle.eax
  have hsaved := hkeeps.saved hsaved
  obtain ⟨computed, hruns, heax, hkept⟩ := hsecond placedSecond hsaved
  obtain ⟨after, hlast, hresult, hkeeps'⟩ := hrest placedRest (hsaved.keeps hkept) heax
  exact ⟨after, hfirst.append (.cons placedPush hpush (hruns.append hlast)), hresult, hkeeps'⟩

/-! ### Expressions -/

/-- The code of an expression that has a value leaves the value in `eax`, wherever it stands in
the image. -/
def LeavesValue (image : Image) (env : Env) (names : Names) (scope : String → Option DeclId)
    (slots : List String) (block : BlockId) (frame : Nat) (store : Store) (expr : Expr) : Prop :=
  ∀ ⦃counter final start : Nat⦄ ⦃lines : List Line⦄ ⦃before : Machine⦄ ⦃word : Word⦄,
    (Code.expr env expr).Emits counter lines final () →
    (∀ use ∈ expr.uses, env.tree.Bound scope block use) →
    value names store expr = some word → image.Placed start lines →
    InFrame frame slots store before → 4 * exprDepth expr ≤ before.esp.toNat →
    Computes image start lines before word

theorem leavesValue_literal (literal : Literal) (line : Nat) :
    LeavesValue image env names scope slots block frame store (.literal literal line) := by
  intro counter final start lines before word h _ hvalue placed _ _
  obtain ⟨rfl, rfl⟩ := emits_literal h
  obtain rfl := Option.some.inj hvalue
  exact computes_number placed

theorem leavesValue_name (agrees : Agrees env.tree slots scope names) (ref : NameRef) :
    LeavesValue image env names scope slots block frame store (.name ref) := by
  intro counter final start lines before word h bound hvalue placed inFrame _
  apply computes_nameValue agrees (emits_name h) (bound _ List.mem_cons_self) inFrame placed hvalue
  intro counter lines final hemits _ _
  obtain ⟨rfl, -, -⟩ := Emit.emits_pure_iff.mp hemits
  exact ⟨before.eax, before, .nil before, rfl, .refl before⟩

theorem leavesValue_element (agrees : Agrees env.tree slots scope names) (ref : NameRef)
    {index : Expr}
    (hindex : LeavesValue image env names scope slots block frame store index) :
    LeavesValue image env names scope slots block frame store (.element ref index) := by
  intro counter final start lines before word h bound hvalue placed inFrame hroom
  obtain ⟨hbound, hbounds⟩ := List.forall_mem_cons.mp bound
  have hname : Source.nameValue names store ref.name = some word := by
    rw [value] at hvalue
    split at hvalue
    · next hvariable =>
        obtain ⟨_, -, hstored⟩ := Option.bind_eq_some_iff.mp hvalue
        rw [Source.nameValue, hvariable]
        exact hstored
    · exact hvalue
  apply computes_nameValue agrees (emits_element h) hbound inFrame placed hname
  intro counter lines final hemits placedIndex hvariable
  rw [value, hvariable] at hvalue
  obtain ⟨word', hword', -⟩ := Option.bind_eq_some_iff.mp hvalue
  exact ⟨word', hindex hemits hbounds hword' placedIndex inFrame hroom⟩

theorem leavesValue_negation {operand : Expr} {line : Nat}
    (hoperand : LeavesValue image env names scope slots block frame store operand) :
    LeavesValue image env names scope slots block frame store (.negation operand line) := by
  intro counter final start lines before word h bound hvalue placed inFrame hroom
  obtain ⟨front, hemits, rfl⟩ := emits_negation h
  obtain ⟨placedFront, placedBack⟩ := Image.placed_append.mp placed
  obtain ⟨word', hword, hresult⟩ := Option.bind_eq_some_iff.mp hvalue
  obtain rfl := Option.some.inj hresult
  apply (hoperand hemits bound hword placedFront inFrame hroom).append
  rintro after rfl -
  exact ⟨_, .exec placedBack rfl, rfl, (Keeps.refl after).of_eq rfl rfl rfl rfl⟩

theorem leavesValue_minus {operand : Expr} {line : Nat}
    (hoperand : LeavesValue image env names scope slots block frame store operand) :
    LeavesValue image env names scope slots block frame store (.signed .minus operand line) := by
  intro counter final start lines before word h bound hvalue placed inFrame hroom
  obtain ⟨front, hemits, rfl⟩ := emits_minus h
  obtain ⟨placedFront, placedBack⟩ := Image.placed_append.mp placed
  obtain ⟨word', hword, hresult⟩ := Option.bind_eq_some_iff.mp hvalue
  obtain rfl := Option.some.inj hresult
  apply (hoperand hemits bound hword placedFront inFrame hroom).append
  rintro after rfl -
  exact ⟨_, .exec placedBack rfl, rfl, (Keeps.refl after).of_eq rfl rfl rfl rfl⟩

/-- The left operand waits on the stack for the right one, and the code after them makes one
word of both. -/
theorem computes_operands {left right : Expr}
    (hleft : LeavesValue image env names scope slots block frame store left)
    (hright : LeavesValue image env names scope slots block frame store right)
    {middle : Nat} {first second rest : List Line} {leftWord rightWord word : Word}
    (hfirst : (Code.expr env left).Emits counter first middle ())
    (hsecond : (Code.expr env right).Emits middle second final ())
    (bound : ∀ use ∈ left.uses ++ right.uses, env.tree.Bound scope block use)
    (hleftValue : value names store left = some leftWord)
    (hrightValue : value names store right = some rightWord)
    (placed : image.Placed start
      (first ++ .instruction none (.push .eax) "" :: (second ++ rest)))
    (inFrame : InFrame frame slots store before)
    (hroom : 4 * max (exprDepth left) (exprDepth right + 1) ≤ before.esp.toNat)
    (hrest : ∀ {start : Nat} {middle : Machine}, image.Placed start rest →
      Saved leftWord before middle → middle.eax = rightWord →
        ∃ after, image.Runs start rest middle after ∧ after.eax = word ∧ before.Keeps after) :
    Computes image start (first ++ .instruction none (.push .eax) "" :: (second ++ rest)) before
      word := by
  obtain ⟨hboundLeft, hboundRight⟩ := List.forall_mem_append.mp bound
  apply Computes.saved placed (by omega) _ _ hrest
  · intro placedLeft
    exact hleft hfirst hboundLeft hleftValue placedLeft inFrame (by omega)
  · intro start middle placedRight hsaved
    have hesp := hsaved.toNat_esp
    exact hright hsecond hboundRight hrightValue placedRight (inFrame.of_saved hsaved) (by omega)

theorem leavesValue_binary (op : BinaryOp) {left right : Expr}
    (hleft : LeavesValue image env names scope slots block frame store left)
    (hright : LeavesValue image env names scope slots block frame store right) :
    LeavesValue image env names scope slots block frame store (.binary op left right) := by
  intro counter final start lines before word h bound hvalue placed inFrame hroom
  obtain ⟨first, middle, second, hfirst, hsecond, rfl⟩ := emits_binary h
  obtain ⟨leftWord, hleftValue, hvalue'⟩ := Option.bind_eq_some_iff.mp hvalue
  obtain ⟨rightWord, hrightValue, hword⟩ := Option.bind_eq_some_iff.mp hvalue'
  apply computes_operands hleft hright hfirst hsecond bound hleftValue hrightValue placed inFrame
    hroom
  rintro start middle placedRest hsaved rfl
  exact runs_operation hsaved hword placedRest

theorem leavesValue_comparison (relation : Relation) {left right : Expr}
    (hleft : LeavesValue image env names scope slots block frame store left)
    (hright : LeavesValue image env names scope slots block frame store right) :
    LeavesValue image env names scope slots block frame store
      (.comparison relation left right) := by
  intro counter final start lines before word h bound hvalue placed inFrame hroom
  obtain ⟨first, middle, second, hfirst, hsecond, rfl⟩ := emits_comparison h
  obtain ⟨leftWord, hleftValue, hvalue'⟩ := Option.bind_eq_some_iff.mp hvalue
  obtain ⟨rightWord, hrightValue, hword⟩ := Option.bind_eq_some_iff.mp hvalue'
  obtain rfl := Option.some.inj hword
  apply computes_operands hleft hright hfirst hsecond bound hleftValue hrightValue placed inFrame
    hroom
  rintro start middle placedRest hsaved rfl
  exact runs_comparison hsaved placedRest

/-- The code of an expression that has a value leaves the value in `eax`. -/
theorem computes_expr (agrees : Agrees env.tree slots scope names) (expr : Expr) :
    LeavesValue image env names scope slots block frame store expr := by
  cases expr with
  | literal literal line => exact leavesValue_literal literal line
  | name ref => exact leavesValue_name agrees ref
  | element ref index => exact leavesValue_element agrees ref (computes_expr agrees index)
  | call ref args => exact fun _ _ _ _ _ _ _ _ hvalue => nomatch hvalue
  | group inner line =>
      intro counter final start lines before word h
      rw [Code.expr] at h
      exact computes_expr agrees inner h
  | negation operand line => exact leavesValue_negation (computes_expr agrees operand)
  | signed sign operand line =>
      cases sign with
      | plus =>
          intro counter final start lines before word h
          rw [Code.expr] at h
          exact computes_expr agrees operand h
      | minus => exact leavesValue_minus (computes_expr agrees operand)
  | binary op left right =>
      exact leavesValue_binary op (computes_expr agrees left) (computes_expr agrees right)
  | comparison relation left right =>
      exact leavesValue_comparison relation (computes_expr agrees left)
        (computes_expr agrees right)

end Expressions

end MiniPascal
