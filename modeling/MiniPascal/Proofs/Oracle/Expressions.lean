import MiniPascal.Proofs.Check.WellFormed
import MiniPascal.Proofs.Code.Calls
import MiniPascal.Proofs.Code.Written
import MiniPascal.Proofs.Oracle.Stack
import MiniPascal.Proofs.Simulation.Expressions

/-!
# Expressions with calls run as they mean

The code of an expression that has a value leaves the value in `eax` and the words of the
variables as the calls in the expression leave them, and keeps the rest.  This goes by
recursion over expressions and arguments; while one operand is computed the other one
waits on the stack, where no call reaches it.
-/

namespace MiniPascal

open MiniPascal.Assembly
open MiniPascal.Code
open MiniPascal.Machine
open MiniPascal.Source

/-- Code leaves a word in `eax` and words for the variables, and keeps the rest. -/
def Yields (tree : Tree) (labels : RoutineLabels) {vars : Variables} (oracle : Oracle vars)
    (lines : List Line) (before : Machine) (value : Word) (words : vars.Words) : Prop :=
  Ensures tree labels oracle lines before fun after =>
    after.eax = value ∧ Leaves before [] words after

/-- What code of a block is written against fits the program: constants have their numbers,
labels lead to their routines, and the variables of the block are among the given ones. -/
structure Code.Env.Fits (env : Env) (labels : RoutineLabels) (vars : Variables)
    (number : DeclId → Int) (block : BlockId) : Prop where
  settled : ∀ id < env.tree.decls.size, env.tree.Settled id
  numbers : env.tree.Numbers number
  builtin : ∀ (id : DeclId) (decl : Decl) (heading : Routine), env.tree.decls[id]? = some decl →
    decl.kind = .routine heading → heading.isFunction = true → heading.isBuiltin = false
  named : ∀ id label, env.labels.lookup id = some label → labels.routineOf? label = some id
  visible : vars.Cover env.tree block

section Parts

variable {tree : Tree} {labels : RoutineLabels} {vars : Variables} {oracle : Oracle vars}
variable {before middle : Machine} {pushed : List Word} {words words' : vars.Words}

/-! ### Words in registers -/

/-- Code that follows other code, which has not left anything on the stack. -/
theorem Yields.of_leaves {lines : List Line} {value : Word}
    (hyields : Yields tree labels oracle lines middle value words')
    (h : Leaves before pushed words middle) (reached : vars.Reached tree before) :
    Ensures tree labels oracle lines middle fun after =>
      after.eax = value ∧ Leaves before pushed words' after :=
  hyields.mono fun _ hafter => ⟨hafter.1, h.trans reached hafter.2⟩

theorem yields_number (number : Int) (comment : String) :
    Yields tree labels oracle [.instruction none (.move (.immediate number) .eax) comment] before
      (BitVec.ofInt 32 number) (vars.words before.memory) :=
  .exec rfl (.done ⟨rfl, (Leaves.refl vars before).of_eq rfl rfl rfl⟩)

/-- The word of a variable is reached through the display. -/
theorem yields_load (reached : vars.Reached tree before) {id : DeclId} (hid : id ∈ vars.ids)
    {decl : Decl} {layout : Layout} (hdecl : tree.decls[id]? = some decl)
    (hlayout : decl.layout? = some layout) (comment : String) :
    Yields tree labels oracle [.instruction none (.move layout.base .edx) "",
      .instruction none (.move layout.slot .eax) comment] before
      (vars.words before.memory ⟨id, hid⟩) (vars.words before.memory) := by
  obtain ⟨decl', layout', hdecl', hlayout', -, haddress⟩ := reached.display id hid
  obtain rfl := Option.some.inj (hdecl.symm.trans hdecl')
  obtain rfl := Option.some.inj (hlayout.symm.trans hlayout')
  have hslot : Machine.exec
      { before with edx := before.memory.word (before.displayAddress layout.frameLevel) }
      (.move layout.slot .eax) = some
        { before with
          edx := before.memory.word (before.displayAddress layout.frameLevel)
          eax := before.memory.word (vars.address id) } := by
    rw [← haddress]
    rfl
  exact .exec rfl (.exec hslot (.done ⟨rfl, (Leaves.refl vars before).of_eq rfl rfl rfl⟩))

/-! ### Operations -/

/-- An operation of the words in `eax` and `ecx`. -/
theorem yields_operation {op : BinaryOp} {value : Word}
    (hvalue : wordOf? op before.eax before.ecx = some value) :
    Yields tree labels oracle (operationLines op) before value (vars.words before.memory) := by
  have hleaves := Leaves.refl vars before
  cases op with
  | add | subtract | or | multiply | and =>
      obtain rfl := Option.some.inj hvalue
      exact .exec rfl (.done ⟨rfl, hleaves.of_eq rfl rfl rfl⟩)
  | divide =>
      rw [wordOf?] at hvalue
      split at hvalue
      · next hdivides =>
          obtain rfl := Option.some.inj hvalue
          exact .exec rfl (.exec (exec_divide hdivides) (.done ⟨rfl, hleaves.of_eq rfl rfl rfl⟩))
      · cases hvalue
  | modulo =>
      rw [wordOf?] at hvalue
      split at hvalue
      · next hdivides =>
          obtain rfl := Option.some.inj hvalue
          exact .exec rfl (.exec (exec_divide hdivides)
            (.exec rfl (.done ⟨rfl, hleaves.of_eq rfl rfl rfl⟩)))
      · cases hvalue

/-- The word that waits on the stack is the left operand. -/
theorem Leaves.yields_operation {op : BinaryOp} {left value : Word}
    (h : Leaves before [left] words middle) (reached : vars.Reached tree before)
    (hvalue : wordOf? op left middle.eax = some value) :
    Ensures tree labels oracle (.instruction none (.move .eax .ecx) "" ::
      .instruction none (.pop .eax) "" :: operationLines op) middle fun after =>
        after.eax = value ∧ Leaves before [] words after := by
  obtain ⟨htop, hpopped⟩ := h.popped
  have hpop : ({ middle with ecx := middle.eax } : Machine).exec (.pop .eax) =
      some { middle.popped with ecx := middle.eax, eax := left } := by
    rw [← htop]
    rfl
  have hleaves : Leaves before [] words
      { middle.popped with ecx := middle.eax, eax := left } := hpopped.of_eq rfl rfl rfl
  have hlast : Yields tree labels oracle (operationLines op)
      { middle.popped with ecx := middle.eax, eax := left } value (vars.words middle.memory) :=
    MiniPascal.yields_operation hvalue
  rw [h.words] at hlast
  exact .exec rfl (.exec hpop (hlast.of_leaves hleaves reached))

/-- The word that waits on the stack is compared with the one in `eax`. -/
theorem Leaves.yields_comparison {relation : Relation} {left : Word}
    (h : Leaves before [left] words middle) :
    Ensures tree labels oracle (comparisonLines relation) middle fun after =>
      after.eax = ofBool (holds relation left middle.eax) ∧ Leaves before [] words after := by
  obtain ⟨htop, hpopped⟩ := h.popped
  have hpop : middle.exec (.pop .ecx) = some { middle.popped with ecx := left } := by
    rw [← htop]
    rfl
  exact .exec hpop (.exec rfl (.exec rfl (.exec rfl
    (.done ⟨ofBool_eq _, hpopped.of_eq rfl rfl rfl⟩))))

/-- A value waits on the stack while another one is computed, and is taken off by the code
after that. -/
theorem Yields.operands {first second rest : List Line} {left right : Word}
    {post : Machine → Prop} (reached : vars.Reached tree before) (hroom : 4 ≤ before.esp.toNat)
    (hleft : Yields tree labels oracle first before left words)
    (hright : ∀ middle, vars.words middle.memory = words → vars.Reached tree middle →
      middle.esp.toNat + 4 = before.esp.toNat →
        Yields tree labels oracle second middle right words')
    (hrest : ∀ middle, Leaves before [left] words' middle → middle.eax = right →
      Ensures tree labels oracle rest middle post) :
    Ensures tree labels oracle (first ++ .instruction none (.push .eax) "" :: (second ++ rest))
      before post := by
  apply hleft.append
  rintro middle ⟨rfl, hmiddle⟩
  have hroom' : 4 ≤ middle.esp.toNat := Nat.le_trans hroom (Nat.le_of_eq hmiddle.esp.symm)
  obtain ⟨pushed, hpush, hpushed⟩ := hmiddle.exists_push reached hroom' middle.eax
  have hexec : middle.exec (.push .eax) = some pushed := hpush
  apply Ensures.exec hexec
  have hsecond := hright pushed hpushed.words (hpushed.reached reached) hpushed.esp
  apply (hsecond.of_leaves hpushed reached).append
  exact fun last hlast => hrest last hlast.2 hlast.1

/-! ### Calls -/

/-- The arguments of a call are the words that were pushed for it. -/
theorem Leaves.arguments_eq (h : Leaves before pushed words middle) :
    middle.arguments pushed.length = pushed := by
  apply List.ext_getElem
  · exact middle.length_arguments pushed.length
  · intro index hindex hindex'
    rw [getElem_arguments]
    exact h.pushed index _ (List.getElem?_eq_getElem hindex')

/-- A routine keeps what was pushed, its arguments included. -/
theorem Leaves.returned (h : Leaves before pushed words middle)
    (reached : vars.Reached tree before) {id : DeclId} {args : Nat} {after : Machine}
    (hreturns : Returns oracle id args middle after) :
    Leaves before pushed (oracle id (middle.arguments args) words).2 after where
  ebp := hreturns.ebp.trans h.ebp
  esp := by rw [hreturns.esp, h.esp]
  words := by rw [hreturns.words, h.words]
  memory byte hbyte hfree :=
    (hreturns.memory byte (Nat.le_trans h.esp_le hbyte) hfree).trans (h.memory byte hbyte hfree)
  pushed index word hword := by
    have hindex := (List.getElem?_eq_some_iff.mp hword).1
    have hesp := h.esp
    rw [hreturns.esp, ← h.pushed index word hword]
    apply Memory.word_congr
    intro byte hlow hhigh
    exact hreturns.memory byte (by omega) (reached.not_holds (by omega))

/-- Arguments are taken off the stack together. -/
theorem Leaves.ensures_popLines (h : Leaves before pushed words middle) :
    Ensures tree labels oracle (popLines pushed.length) middle fun after =>
      after.eax = middle.eax ∧ Leaves before [] words after := by
  rw [popLines]
  split
  · next hnone =>
      obtain rfl := List.eq_nil_of_length_eq_zero hnone
      exact .done ⟨rfl, h⟩
  · have hesp := h.esp
    have hsp : (middle.esp + BitVec.ofInt 32 (Frame.wordSize * pushed.length)).toNat =
        before.esp.toNat := by
      apply toNat_add_ofInt
      · rw [Frame.wordSize]
        omega
      · exact before.esp.isLt
    exact .exec rfl (.done ⟨rfl, ⟨h.ebp, hsp, h.words, h.memory, fun _ _ hword => by cases hword⟩⟩)

end Parts

/-! ### Expressions -/

section Expressions

variable {env : Env} {labels : RoutineLabels} {vars : Variables} {number : DeclId → Int}
variable {oracle : Oracle vars} {block : BlockId} {counter final : Nat} {lines : List Line}
variable {before : Machine} {value : Word} {words words' : vars.Words}

theorem Routine.isFunction_of_class {heading : Routine} (h : heading.routineClass = .function) :
    heading.isFunction = true := by
  rw [Routine.routineClass] at h
  split at h
  · assumption
  · cases h

/-- A function that is called is the library's, or has as many parameters as there are
arguments. -/
theorem NameUse.Allows.of_call {tree : Tree} {use : NameUse} {kind : DeclKind}
    (h : use.Allows tree block kind) {args : Nat} (huse : use = .call .function args)
    {heading : Routine} (hkind : kind = .routine heading) :
    heading.isFunction = true ∧ (heading.isBuiltin = true ∨ heading.params.length = args) := by
  cases h with
  | call count =>
      obtain rfl := DeclKind.routine.inj hkind
      obtain ⟨hclass, rfl⟩ := NameUse.call.inj huse
      exact ⟨Routine.isFunction_of_class hclass, .inr count⟩
  | callBuiltin builtin =>
      obtain rfl := DeclKind.routine.inj hkind
      exact ⟨Routine.isFunction_of_class (NameUse.call.inj huse).1, .inl builtin⟩
  | type | constant | literal | assignVariable | assignParameter | assignResult | readVariable
  | readParameter | readConstant | readLiteral | readFunction => cases huse

theorem ensures_pure {counter final : Nat} {lines : List Line}
    (h : Emit.Emits (pure ()) counter lines final ()) :
    Ensures env.tree labels oracle lines before (Leaves before [] (vars.words before.memory)) := by
  obtain ⟨rfl, -, -⟩ := Emit.emits_pure_iff.mp h
  exact .done (Leaves.refl vars before)

/-- A call gives the arguments to the routine and takes them off again. -/
theorem ensures_calls (fits : env.Fits labels vars number block) {id : DeclId} {args : Nat}
    {pushed written : Emit Unit} (h : Calls env id args pushed written counter lines final)
    {decl : Decl} {heading : Routine} (hdecl : env.tree.decls[id]? = some decl)
    (hkind : decl.kind = .routine heading) (hfunction : heading.isFunction = true)
    (hparams : heading.params.length = args) (reached : vars.Reached env.tree before)
    {values : List Word} (hargs : values.length = args)
    (hpushed : ∀ {counter lines final}, pushed.Emits counter lines final () →
      Ensures env.tree labels oracle lines before (Leaves before values words)) :
    Yields env.tree labels oracle lines before (oracle id values words).1
      (oracle id values words).2 := by
  cases h with
  | builtin hdecl' hkind' hbuiltin =>
      obtain rfl := Option.some.inj (hdecl.symm.trans hdecl')
      obtain rfl := DeclKind.routine.inj (hkind.symm.trans hkind')
      rw [fits.builtin id decl heading hdecl hkind hfunction] at hbuiltin
      cases hbuiltin
  | routine _ _ _ hlabel hemits =>
      apply (hpushed hemits).append
      intro middle hmiddle
      apply Ensures.call (fits.named id _ hlabel) hdecl hkind
      intro after hreturns
      have harguments : middle.arguments heading.params.length = values := by
        rw [hparams, ← hargs]
        exact hmiddle.arguments_eq
      have heax := hreturns.eax
      have hleaves := hmiddle.returned reached hreturns
      rw [harguments, hmiddle.words] at heax
      rw [harguments] at hleaves
      rw [← hargs]
      exact hleaves.ensures_popLines.mono fun _ hlast => ⟨hlast.1.trans heax, hlast.2⟩

/-- A variable or a parameter that is in scope is among the given ones, and its value is its
word. -/
theorem exists_declared_word (fits : env.Fits labels vars number block) {id : DeclId}
    {decl : Decl} {name : String} (hname : env.tree.lookup block name = some id)
    (hdecl : env.tree.decls[id]? = some decl)
    (hkind : (∃ type, decl.kind = .variableOf type) ∨ ∃ type, decl.kind = .parameter type) :
    ∃ hvars : id ∈ vars.ids, ∀ words : vars.Words,
      declared? number oracle id decl.kind words = some (words ⟨id, hvars⟩, words) := by
  have hvars : id ∈ vars.ids := by
    apply fits.visible _ id decl hname hdecl
    rcases hkind with ⟨type, hkind⟩ | ⟨type, hkind⟩ <;> rw [hkind] <;> rfl
  refine ⟨hvars, fun words => ?_⟩
  rcases hkind with ⟨type, hkind⟩ | ⟨type, hkind⟩ <;> rw [hkind] <;> exact dif_pos hvars

/-- What has a number in the source is no word, and its value is its number. -/
theorem declared?_number (fits : env.Fits labels vars number block) {id : DeclId} {decl : Decl}
    (hdecl : env.tree.decls[id]? = some decl) {given : Int}
    (hgiven : env.tree.declValue decl = .ok given) (words : vars.Words) :
    decl.kind.isWord = false ∧
      declared? number oracle id decl.kind words = some (BitVec.ofInt 32 given, words) := by
  obtain ⟨decl', hdecl', hsettled⟩ := fits.settled id (Array.getElem?_eq_some_iff.mp hdecl).1
  obtain rfl := Option.some.inj (hdecl.symm.trans hdecl')
  cases hkind : decl.kind with
  | constant | enumLiteral =>
      rw [hkind] at hsettled
      obtain ⟨path, value, literal?, hdenotes⟩ := hsettled
      obtain rfl := Except.ok.inj ((hdenotes.declValue_eq hdecl).symm.trans hgiven)
      rw [← fits.numbers _ _ _ _ hdenotes]
      exact ⟨rfl, rfl⟩
  | type | variableOf | parameter | routine =>
      rw [Tree.declValue, Tree.valueBy, hkind] at hgiven
      cases hgiven

/-- The value of a name, after its index. -/
theorem yields_nameValue (fits : env.Fits labels vars number block) {ref : NameRef}
    {index : Emit Unit} (h : NameCode env ref index counter lines final)
    (bound : env.tree.Bound (env.tree.lookup block) block (.value, ref))
    (reached : vars.Reached env.tree before)
    (hvalue : nameValue? env.tree number oracle ref words = some (value, words'))
    (hindex : ∀ {counter lines final}, index.Emits counter lines final () →
      Ensures env.tree labels oracle lines before (Leaves before [] words))
    (hword : env.tree.isWord ref = true ∨ words = vars.words before.memory) :
    Yields env.tree labels oracle lines before value words' := by
  obtain ⟨id, decl, hid, hname, hdecl, hobjection⟩ := bound
  change ref.decl? = some id at hid
  have hallows : NameUse.Allows env.tree block .value decl.kind :=
    NameUse.objection?_eq_none_iff.mp hobjection
  rw [nameValue?_eq hid hdecl] at hvalue
  rw [Tree.isWord_eq hid hdecl] at hword
  cases h with
  | word hid' hdecl' hkind hlayout hemits =>
      obtain rfl := Option.some.inj (hid.symm.trans hid')
      obtain rfl := Option.some.inj (hdecl.symm.trans hdecl')
      obtain ⟨hvars, hstored⟩ := exists_declared_word fits hname hdecl hkind
      obtain ⟨rfl, rfl⟩ := Prod.mk.inj (Option.some.inj ((hstored words).symm.trans hvalue))
      apply (hindex hemits).append
      intro middle hmiddle
      have hload := @yields_load env.tree labels vars oracle middle (hmiddle.reached reached) id
        hvars decl _ hdecl hlayout decl.name
      rw [hmiddle.words] at hload
      exact hload.of_leaves hmiddle reached
  | number hid' hdecl' hgiven =>
      obtain rfl := Option.some.inj (hid.symm.trans hid')
      obtain rfl := Option.some.inj (hdecl.symm.trans hdecl')
      obtain ⟨hnoWord, hnumber⟩ := declared?_number fits hdecl hgiven words
      obtain ⟨rfl, rfl⟩ := Prod.mk.inj (Option.some.inj (hnumber.symm.trans hvalue))
      rw [hword.resolve_left (by rw [hnoWord]; exact Bool.false_ne_true)]
      exact yields_number _ _
  | function hid' hcalls =>
      obtain rfl := Option.some.inj (hid.symm.trans hid')
      obtain ⟨heading, hkind⟩ := hcalls.exists_routine hdecl
      rw [hkind] at hallows hvalue hword
      obtain ⟨rfl, rfl⟩ := Prod.mk.inj (Option.some.inj hvalue)
      cases hallows with
      | readFunction isFunction noParams =>
          rw [hword.resolve_left Bool.false_ne_true]
          apply ensures_calls fits hcalls hdecl hkind (Routine.isFunction_of_class isFunction)
            (congrArg List.length noParams) reached rfl
          exact ensures_pure

/-- The value of a call of a function, after its arguments. -/
theorem yields_call (fits : env.Fits labels vars number block) {ref : NameRef} {args : List Expr}
    (h : (Code.expr env (.call ref args)).Emits counter lines final ())
    (bound : env.tree.Bound (env.tree.lookup block) block (.call .function args.length, ref))
    (reached : vars.Reached env.tree before)
    (hvalue : evaluate? env.tree number oracle (.call ref args) (vars.words before.memory) =
      some (value, words'))
    (hargs : ∀ {counter lines final}, (pushAll env args).Emits counter lines final () →
      ∀ values words, evaluateAll? env.tree number oracle args (vars.words before.memory) =
        some (values, words) →
          Ensures env.tree labels oracle lines before (Leaves before values words)) :
    Yields env.tree labels oracle lines before value words' := by
  obtain ⟨id, decl, hid, -, hdecl, hobjection⟩ := bound
  obtain ⟨id', hid', hcalls⟩ := emits_callExpr h
  obtain rfl := Option.some.inj (hid.symm.trans hid')
  obtain ⟨heading, hkind⟩ := hcalls.exists_routine hdecl
  obtain ⟨⟨values, words⟩, hvalues, hanswer⟩ := Option.bind_eq_some_iff.mp hvalue
  obtain ⟨id', hid', hresult⟩ := Option.bind_eq_some_iff.mp hanswer
  obtain rfl := Option.some.inj (hid.symm.trans hid')
  obtain ⟨rfl, rfl⟩ := Prod.mk.inj (Option.some.inj hresult)
  have hallows : NameUse.Allows env.tree block (.call .function args.length) decl.kind :=
    NameUse.objection?_eq_none_iff.mp hobjection
  have hheading := hallows.of_call rfl hkind
  have hparams : heading.params.length = args.length := by
    apply hheading.2.resolve_left
    rw [fits.builtin id decl heading hdecl hkind hheading.1]
    exact Bool.false_ne_true
  exact ensures_calls fits hcalls hdecl hkind hheading.1 hparams reached
    (length_of_evaluateAll? hvalues) fun hemits => hargs hemits values words hvalues

/-! ### The constructors -/

/-- The code of an expression that has a value leaves the value in `eax`, and the words of
the variables as its calls leave them. -/
def YieldsValue (env : Env) (labels : RoutineLabels) {vars : Variables} (number : DeclId → Int)
    (oracle : Oracle vars) (block : BlockId) (expr : Expr) : Prop :=
  ∀ ⦃counter final : Nat⦄ ⦃lines : List Line⦄ ⦃before : Machine⦄ ⦃value : Word⦄
    ⦃words : vars.Words⦄, (Code.expr env expr).Emits counter lines final () →
    (∀ use ∈ expr.uses, env.tree.Bound (env.tree.lookup block) block use) →
    (∀ ref ∈ expr.indexed, env.tree.isWord ref = true) →
    evaluate? env.tree number oracle expr (vars.words before.memory) = some (value, words) →
    vars.Reached env.tree before → 4 * expr.stackWords ≤ before.esp.toNat →
    Yields env.tree labels oracle lines before value words

/-- The code of arguments that have values leaves them on the stack, the first one on top. -/
def PushesValues (env : Env) (labels : RoutineLabels) {vars : Variables} (number : DeclId → Int)
    (oracle : Oracle vars) (block : BlockId) (args : List Expr) : Prop :=
  ∀ ⦃counter final : Nat⦄ ⦃lines : List Line⦄ ⦃before : Machine⦄ ⦃values : List Word⦄
    ⦃words : vars.Words⦄, (pushAll env args).Emits counter lines final () →
    (∀ use ∈ Expr.usesAll args, env.tree.Bound (env.tree.lookup block) block use) →
    (∀ ref ∈ Expr.indexedAll args, env.tree.isWord ref = true) →
    evaluateAll? env.tree number oracle args (vars.words before.memory) = some (values, words) →
    vars.Reached env.tree before → 4 * Expr.stackWordsAll args ≤ before.esp.toNat →
    Ensures env.tree labels oracle lines before (Leaves before values words)

theorem yieldsValue_literal (literal : Literal) (line : Nat) :
    YieldsValue env labels number oracle block (.literal literal line) := by
  intro counter final lines before value words h _ _ hvalue _ _
  obtain ⟨rfl, rfl⟩ := emits_literal h
  obtain ⟨rfl, rfl⟩ := Prod.mk.inj (Option.some.inj hvalue)
  exact yields_number _ _

theorem yieldsValue_name (fits : env.Fits labels vars number block) (ref : NameRef) :
    YieldsValue env labels number oracle block (.name ref) := by
  intro counter final lines before value words h bound _ hvalue reached _
  exact yields_nameValue fits (emits_name h) (bound _ List.mem_cons_self) reached hvalue
    ensures_pure (.inr rfl)

theorem yieldsValue_element (fits : env.Fits labels vars number block) (ref : NameRef)
    {index : Expr} (hindex : YieldsValue env labels number oracle block index) :
    YieldsValue env labels number oracle block (.element ref index) := by
  intro counter final lines before value words h bound indexed hvalue reached hroom
  obtain ⟨hbound, hbounds⟩ := List.forall_mem_cons.mp bound
  obtain ⟨hword, hindexed⟩ := List.forall_mem_cons.mp indexed
  obtain ⟨⟨skipped, middle⟩, hskipped, hname⟩ := Option.bind_eq_some_iff.mp hvalue
  apply yields_nameValue fits (emits_element h) hbound reached hname _ (.inl hword)
  intro counter lines final hemits
  exact (hindex hemits hbounds hindexed hskipped reached hroom).mono fun _ hafter => hafter.2

theorem yieldsValue_call (fits : env.Fits labels vars number block) (ref : NameRef)
    {args : List Expr} (hargs : PushesValues env labels number oracle block args) :
    YieldsValue env labels number oracle block (.call ref args) := by
  intro counter final lines before value words h bound indexed hvalue reached hroom
  obtain ⟨hbound, hbounds⟩ := List.forall_mem_cons.mp bound
  apply yields_call fits h hbound reached hvalue
  intro counter lines final hemits values words hvalues
  exact hargs hemits hbounds indexed hvalues reached hroom

theorem yieldsValue_negation {operand : Expr} {line : Nat}
    (hoperand : YieldsValue env labels number oracle block operand) :
    YieldsValue env labels number oracle block (.negation operand line) := by
  intro counter final lines before value words h bound indexed hvalue reached hroom
  obtain ⟨front, hemits, rfl⟩ := emits_negation h
  obtain ⟨⟨given, middle⟩, hgiven, hresult⟩ := Option.bind_eq_some_iff.mp hvalue
  obtain ⟨rfl, rfl⟩ := Prod.mk.inj (Option.some.inj hresult)
  apply (hoperand hemits bound indexed hgiven reached hroom).append
  rintro after ⟨rfl, hleaves⟩
  exact .exec rfl (.done ⟨rfl, hleaves.of_eq rfl rfl rfl⟩)

theorem yieldsValue_minus {operand : Expr} {line : Nat}
    (hoperand : YieldsValue env labels number oracle block operand) :
    YieldsValue env labels number oracle block (.signed .minus operand line) := by
  intro counter final lines before value words h bound indexed hvalue reached hroom
  obtain ⟨front, hemits, rfl⟩ := emits_minus h
  obtain ⟨⟨given, middle⟩, hgiven, hresult⟩ := Option.bind_eq_some_iff.mp hvalue
  obtain ⟨rfl, rfl⟩ := Prod.mk.inj (Option.some.inj hresult)
  apply (hoperand hemits bound indexed hgiven reached hroom).append
  rintro after ⟨rfl, hleaves⟩
  exact .exec rfl (.done ⟨rfl, hleaves.of_eq rfl rfl rfl⟩)

/-- The left operand waits on the stack for the right one, and the code after them takes both. -/
theorem ensures_operands {left right : Expr}
    (hleft : YieldsValue env labels number oracle block left)
    (hright : YieldsValue env labels number oracle block right)
    {middle : Nat} {first second rest : List Line} {leftWord rightWord : Word}
    {wordsLeft wordsRight : vars.Words}
    (hfirst : (Code.expr env left).Emits counter first middle ())
    (hsecond : (Code.expr env right).Emits middle second final ())
    (bound : ∀ use ∈ left.uses ++ right.uses, env.tree.Bound (env.tree.lookup block) block use)
    (indexed : ∀ ref ∈ left.indexed ++ right.indexed, env.tree.isWord ref = true)
    (hleftValue : evaluate? env.tree number oracle left (vars.words before.memory) =
      some (leftWord, wordsLeft))
    (hrightValue : evaluate? env.tree number oracle right wordsLeft =
      some (rightWord, wordsRight))
    (reached : vars.Reached env.tree before)
    (hroom : 4 * max left.stackWords (right.stackWords + 1) ≤ before.esp.toNat)
    {post : Machine → Prop} (hrest : ∀ middle, Leaves before [leftWord] wordsRight middle →
      middle.eax = rightWord → Ensures env.tree labels oracle rest middle post) :
    Ensures env.tree labels oracle (first ++ .instruction none (.push .eax) "" :: (second ++ rest))
      before post := by
  obtain ⟨hboundLeft, hboundRight⟩ := List.forall_mem_append.mp bound
  obtain ⟨hindexedLeft, hindexedRight⟩ := List.forall_mem_append.mp indexed
  apply Yields.operands reached (by omega)
    (hleft hfirst hboundLeft hindexedLeft hleftValue reached (by omega)) _ hrest
  rintro middle rfl hmiddle hesp
  exact hright hsecond hboundRight hindexedRight hrightValue hmiddle (by omega)

theorem yieldsValue_binary (op : BinaryOp) {left right : Expr}
    (hleft : YieldsValue env labels number oracle block left)
    (hright : YieldsValue env labels number oracle block right) :
    YieldsValue env labels number oracle block (.binary op left right) := by
  intro counter final lines before value words h bound indexed hvalue reached hroom
  obtain ⟨first, middle, second, hfirst, hsecond, rfl⟩ := emits_binary h
  obtain ⟨⟨leftWord, wordsLeft⟩, hleftValue, hvalue'⟩ := Option.bind_eq_some_iff.mp hvalue
  obtain ⟨⟨rightWord, wordsRight⟩, hrightValue, hvalue''⟩ := Option.bind_eq_some_iff.mp hvalue'
  obtain ⟨word, hword, hresult⟩ := Option.bind_eq_some_iff.mp hvalue''
  obtain ⟨rfl, rfl⟩ := Prod.mk.inj (Option.some.inj hresult)
  apply ensures_operands hleft hright hfirst hsecond bound indexed hleftValue hrightValue reached
    hroom
  rintro middle hmiddle rfl
  exact hmiddle.yields_operation reached hword

theorem yieldsValue_comparison (relation : Relation) {left right : Expr}
    (hleft : YieldsValue env labels number oracle block left)
    (hright : YieldsValue env labels number oracle block right) :
    YieldsValue env labels number oracle block (.comparison relation left right) := by
  intro counter final lines before value words h bound indexed hvalue reached hroom
  obtain ⟨first, middle, second, hfirst, hsecond, rfl⟩ := emits_comparison h
  obtain ⟨⟨leftWord, wordsLeft⟩, hleftValue, hvalue'⟩ := Option.bind_eq_some_iff.mp hvalue
  obtain ⟨⟨rightWord, wordsRight⟩, hrightValue, hresult⟩ := Option.bind_eq_some_iff.mp hvalue'
  obtain ⟨rfl, rfl⟩ := Prod.mk.inj (Option.some.inj hresult)
  apply ensures_operands hleft hright hfirst hsecond bound indexed hleftValue hrightValue reached
    hroom
  rintro middle hmiddle rfl
  exact hmiddle.yields_comparison

theorem pushesValues_nil : PushesValues env labels number oracle block [] := by
  intro counter final lines before values words h _ _ hvalues _ _
  obtain ⟨rfl, rfl⟩ := emits_pushAll_nil h
  obtain ⟨rfl, rfl⟩ := Prod.mk.inj (Option.some.inj hvalues)
  exact .done (Leaves.refl vars before)

theorem pushesValues_cons {arg : Expr} {others : List Expr}
    (harg : YieldsValue env labels number oracle block arg)
    (hothers : PushesValues env labels number oracle block others) :
    PushesValues env labels number oracle block (arg :: others) := by
  intro counter final lines before values words h bound indexed hvalues reached hroom
  obtain ⟨first, middle, second, hemitsOthers, hemitsArg, rfl⟩ := emits_pushAll_cons h
  obtain ⟨hboundArg, hboundOthers⟩ := List.forall_mem_append.mp bound
  obtain ⟨hindexedArg, hindexedOthers⟩ := List.forall_mem_append.mp indexed
  obtain ⟨⟨rest, wordsRest⟩, hrest, hvalues'⟩ := Option.bind_eq_some_iff.mp hvalues
  obtain ⟨⟨first, wordsFirst⟩, hfirst, hresult⟩ := Option.bind_eq_some_iff.mp hvalues'
  obtain ⟨rfl, rfl⟩ := Prod.mk.inj (Option.some.inj hresult)
  rw [Expr.stackWordsAll] at hroom
  have hlength := length_of_evaluateAll? hrest
  apply (hothers hemitsOthers hboundOthers hindexedOthers hrest reached (by omega)).append
  rintro middle hmiddle
  have hesp := hmiddle.esp
  have hvalue := hmiddle.words ▸ hfirst
  have hyields := harg hemitsArg hboundArg hindexedArg hvalue (hmiddle.reached reached) (by omega)
  apply (hyields.of_leaves hmiddle reached).append
  rintro last ⟨rfl, hlast⟩
  have hesp' := hlast.esp
  obtain ⟨pushed, hpush, hpushed⟩ := hlast.exists_push reached (by omega) last.eax
  have hexec : last.exec (.push .eax) = some pushed := hpush
  exact .exec hexec (.done hpushed)

mutual

/-- The code of an expression that has a value leaves the value in `eax`, and the words of
the variables as its calls leave them. -/
theorem yields_expr (fits : env.Fits labels vars number block) (expr : Expr) :
    YieldsValue env labels number oracle block expr := by
  cases expr with
  | literal literal line => exact yieldsValue_literal literal line
  | name ref => exact yieldsValue_name fits ref
  | element ref index => exact yieldsValue_element fits ref (yields_expr fits index)
  | call ref args => exact yieldsValue_call fits ref (ensures_pushAll fits args)
  | group inner line =>
      intro counter final lines before value words h
      rw [Code.expr] at h
      exact yields_expr fits inner h
  | negation operand line => exact yieldsValue_negation (yields_expr fits operand)
  | signed sign operand line =>
      cases sign with
      | plus =>
          intro counter final lines before value words h
          rw [Code.expr] at h
          exact yields_expr fits operand h
      | minus => exact yieldsValue_minus (yields_expr fits operand)
  | binary op left right =>
      exact yieldsValue_binary op (yields_expr fits left) (yields_expr fits right)
  | comparison relation left right =>
      exact yieldsValue_comparison relation (yields_expr fits left) (yields_expr fits right)

/-- Arguments are computed from the last to the first, so that the first one lies on top. -/
theorem ensures_pushAll (fits : env.Fits labels vars number block) (args : List Expr) :
    PushesValues env labels number oracle block args := by
  cases args with
  | nil => exact pushesValues_nil
  | cons arg others => exact pushesValues_cons (yields_expr fits arg) (ensures_pushAll fits others)

end

end Expressions

end MiniPascal
