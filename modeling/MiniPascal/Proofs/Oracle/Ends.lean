import MiniPascal.Proofs.Oracle.Expressions

/-!
# Code that ends has a value

The code of an expression runs to its end only if the expression has a value.  What has
none is a division whose quotient is no word, and there the machine faults.
-/

namespace MiniPascal

open MiniPascal.Assembly
open MiniPascal.Code
open MiniPascal.Machine
open MiniPascal.Source

section Parts

variable {tree : Tree} {labels : RoutineLabels} {vars : Variables} {oracle : Oracle vars}
variable {before middle : Machine} {words : vars.Words} {post : Machine → Prop}

/-- A quotient that is computed is a word. -/
theorem divides_of_ensures {lines : List Line} {comment comment' : String}
    (ends : Ensures tree labels oracle (.instruction none .signExtend comment ::
      .instruction none (.divide .ecx) comment' :: lines) before post) :
    Divides before.eax before.ecx := by
  have hdivide := ends.of_exec rfl
  cases hdivide with
  | exec hexec =>
      by_contra hnone
      change (divideWords (if before.eax.msb then -1 else 0) before.eax before.ecx).bind _ = _
        at hexec
      rw [divideWords_eq_none hnone] at hexec
      cases hexec

theorem exists_word_of_operation {op : BinaryOp}
    (ends : Ensures tree labels oracle (operationLines op) before post) :
    ∃ value, wordOf? op before.eax before.ecx = some value := by
  cases op with
  | add | subtract | or | multiply | and => exact ⟨_, rfl⟩
  | divide | modulo => exact ⟨_, if_pos (divides_of_ensures ends)⟩

/-- The word that waits on the stack and the one in `eax` have a result. -/
theorem Leaves.exists_word {op : BinaryOp} {left : Word} (h : Leaves before [left] words middle)
    (ends : Ensures tree labels oracle (.instruction none (.move .eax .ecx) "" ::
      .instruction none (.pop .eax) "" :: operationLines op) middle post) :
    ∃ value, wordOf? op left middle.eax = some value := by
  obtain ⟨rfl, -⟩ := h.popped
  have hmoved := ends.of_exec rfl
  exact exists_word_of_operation (hmoved.of_exec rfl)

/-- The code after a value goes on with the value on the stack. -/
theorem Yields.exists_pushed {first rest : List Line} {left : Word}
    (reached : vars.Reached tree before) (hroom : 4 ≤ before.esp.toNat)
    (hleft : Yields tree labels oracle first before left words)
    (ends : Ensures tree labels oracle (first ++ .instruction none (.push .eax) "" :: rest)
      before post) :
    ∃ middle, Leaves before [left] words middle ∧ Ensures tree labels oracle rest middle post := by
  obtain ⟨middle, ⟨rfl, hmiddle⟩, hrest⟩ := hleft.exists_middle ends
  have hroom' : 4 ≤ middle.esp.toNat := Nat.le_trans hroom (Nat.le_of_eq hmiddle.esp.symm)
  obtain ⟨pushed, hpush, hpushed⟩ := hmiddle.exists_push reached hroom' middle.eax
  have hexec : middle.exec (.push .eax) = some pushed := hpush
  exact ⟨pushed, hpushed, hrest.of_exec hexec⟩

end Parts

/-! ### Expressions -/

section Expressions

variable {env : Env} {labels : RoutineLabels} {vars : Variables} {number : DeclId → Int}
variable {oracle : Oracle vars} {block : BlockId}

/-- The index of a variable or parameter is computed first. -/
theorem emits_indexed {counter final : Nat} {lines : List Line} {ref : NameRef} {index : Expr}
    (h : (Code.expr env (.element ref index)).Emits counter lines final ())
    (hword : env.tree.isWord ref = true) :
    ∃ front middle back, (Code.expr env index).Emits counter front middle () ∧
      lines = front ++ back := by
  cases emits_element h with
  | word _ _ _ _ hindex => exact ⟨_, _, _, hindex, rfl⟩
  | @number _ decl _ _ hid hdecl hvalue =>
      rw [Tree.isWord_eq hid hdecl] at hword
      cases hkind : decl.kind with
      | variableOf | parameter =>
          rw [Tree.declValue, Tree.valueBy, hkind] at hvalue
          cases hvalue
      | constant | type | enumLiteral | routine =>
          rw [hkind] at hword
          cases hword
  | @function id _ _ _ hid hcalls =>
      obtain ⟨decl, hdecl⟩ := hcalls.exists_decl
      obtain ⟨heading, hkind⟩ := hcalls.exists_routine hdecl
      rw [Tree.isWord_eq hid hdecl, hkind] at hword
      cases hword

/-- The arguments of a function are computed before it is called. -/
theorem emits_called (fits : env.Fits labels vars number block) {counter final : Nat}
    {lines : List Line} {ref : NameRef} {args : List Expr}
    (h : (Code.expr env (.call ref args)).Emits counter lines final ())
    (bound : env.tree.Bound (env.tree.lookup block) block (.call .function args.length, ref)) :
    ∃ id front back, ref.decl? = some id ∧ (pushAll env args).Emits counter front final () ∧
      lines = front ++ back := by
  obtain ⟨id, decl, hid, -, hdecl, hobjection⟩ := bound
  obtain ⟨id', hid', hcalls⟩ := emits_callExpr h
  obtain rfl := Option.some.inj (hid.symm.trans hid')
  have hallows : NameUse.Allows env.tree block (.call .function args.length) decl.kind :=
    NameUse.objection?_eq_none_iff.mp hobjection
  cases hcalls with
  | builtin hdecl' hkind hbuiltin =>
      obtain rfl := Option.some.inj (hdecl.symm.trans hdecl')
      have hfunction := (hallows.of_call rfl hkind).1
      rw [fits.builtin id decl _ hdecl hkind hfunction] at hbuiltin
      cases hbuiltin
  | routine _ _ _ _ hpushed => exact ⟨id, _, _, hid, hpushed, rfl⟩

/-- A name that is used as a value has one. -/
theorem exists_nameValue (fits : env.Fits labels vars number block) {ref : NameRef}
    (bound : env.tree.Bound (env.tree.lookup block) block (.value, ref)) (words : vars.Words) :
    ∃ value words', nameValue? env.tree number oracle ref words = some (value, words') := by
  obtain ⟨id, decl, hid, hname, hdecl, hobjection⟩ := bound
  have hallows : NameUse.Allows env.tree block .value decl.kind :=
    NameUse.objection?_eq_none_iff.mp hobjection
  rw [nameValue?_eq hid hdecl]
  cases hkind : decl.kind with
  | variableOf | parameter =>
      have hvars : id ∈ vars.ids := by
        apply fits.visible _ id decl hname hdecl
        rw [hkind]
        rfl
      exact ⟨_, _, dif_pos hvars⟩
  | constant | enumLiteral | routine => exact ⟨_, _, rfl⟩
  | type =>
      rw [hkind] at hallows
      cases hallows

/-! ### The constructors -/

/-- An expression whose code runs to its end has a value. -/
def EndsWithValue (env : Env) (labels : RoutineLabels) {vars : Variables} (number : DeclId → Int)
    (oracle : Oracle vars) (block : BlockId) (expr : Expr) : Prop :=
  ∀ ⦃counter final : Nat⦄ ⦃lines : List Line⦄ ⦃before : Machine⦄ ⦃post : Machine → Prop⦄,
    (Code.expr env expr).Emits counter lines final () →
    (∀ use ∈ expr.uses, env.tree.Bound (env.tree.lookup block) block use) →
    (∀ ref ∈ expr.indexed, env.tree.isWord ref = true) →
    vars.Reached env.tree before → 4 * expr.stackWords ≤ before.esp.toNat →
    Ensures env.tree labels oracle lines before post →
    ∃ value words, evaluate? env.tree number oracle expr (vars.words before.memory) =
      some (value, words)

/-- Arguments whose code runs to its end have values. -/
def EndsWithValues (env : Env) (labels : RoutineLabels) {vars : Variables}
    (number : DeclId → Int) (oracle : Oracle vars) (block : BlockId) (args : List Expr) : Prop :=
  ∀ ⦃counter final : Nat⦄ ⦃lines : List Line⦄ ⦃before : Machine⦄ ⦃post : Machine → Prop⦄,
    (pushAll env args).Emits counter lines final () →
    (∀ use ∈ Expr.usesAll args, env.tree.Bound (env.tree.lookup block) block use) →
    (∀ ref ∈ Expr.indexedAll args, env.tree.isWord ref = true) →
    vars.Reached env.tree before → 4 * Expr.stackWordsAll args ≤ before.esp.toNat →
    Ensures env.tree labels oracle lines before post →
    ∃ values words, evaluateAll? env.tree number oracle args (vars.words before.memory) =
      some (values, words)

theorem endsWithValue_element (fits : env.Fits labels vars number block) (ref : NameRef)
    {index : Expr} (hindex : EndsWithValue env labels number oracle block index) :
    EndsWithValue env labels number oracle block (.element ref index) := by
  intro counter final lines before post h bound indexed reached hroom ends
  obtain ⟨hbound, hbounds⟩ := List.forall_mem_cons.mp bound
  obtain ⟨hword, hindexed⟩ := List.forall_mem_cons.mp indexed
  obtain ⟨front, middle, back, hemits, rfl⟩ := emits_indexed h hword
  obtain ⟨skipped, words, hskipped⟩ := hindex hemits hbounds hindexed reached hroom ends.of_append
  obtain ⟨value, words', hvalue⟩ := exists_nameValue fits hbound words
  exact ⟨value, words', Option.bind_eq_some_iff.mpr ⟨_, hskipped, hvalue⟩⟩

theorem endsWithValue_call (fits : env.Fits labels vars number block) (ref : NameRef)
    {args : List Expr} (hargs : EndsWithValues env labels number oracle block args) :
    EndsWithValue env labels number oracle block (.call ref args) := by
  intro counter final lines before post h bound indexed reached hroom ends
  obtain ⟨hbound, hbounds⟩ := List.forall_mem_cons.mp bound
  obtain ⟨id, front, back, hid, hemits, rfl⟩ := emits_called fits h hbound
  obtain ⟨values, words, hvalues⟩ := hargs hemits hbounds indexed reached hroom ends.of_append
  exact ⟨_, _, Option.bind_eq_some_iff.mpr ⟨_, hvalues,
    Option.bind_eq_some_iff.mpr ⟨id, hid, rfl⟩⟩⟩

theorem endsWithValue_negation {operand : Expr} {line : Nat}
    (hoperand : EndsWithValue env labels number oracle block operand) :
    EndsWithValue env labels number oracle block (.negation operand line) := by
  intro counter final lines before post h bound indexed reached hroom ends
  obtain ⟨front, hemits, rfl⟩ := emits_negation h
  obtain ⟨given, words, hgiven⟩ := hoperand hemits bound indexed reached hroom ends.of_append
  exact ⟨_, _, Option.bind_eq_some_iff.mpr ⟨_, hgiven, rfl⟩⟩

theorem endsWithValue_minus {operand : Expr} {line : Nat}
    (hoperand : EndsWithValue env labels number oracle block operand) :
    EndsWithValue env labels number oracle block (.signed .minus operand line) := by
  intro counter final lines before post h bound indexed reached hroom ends
  obtain ⟨front, hemits, rfl⟩ := emits_minus h
  obtain ⟨given, words, hgiven⟩ := hoperand hemits bound indexed reached hroom ends.of_append
  exact ⟨_, _, Option.bind_eq_some_iff.mpr ⟨_, hgiven, rfl⟩⟩

/-- Both operands have values, and the code after them goes on with the left one on the stack. -/
theorem exists_operands (fits : env.Fits labels vars number block) {left right : Expr}
    (hleft : EndsWithValue env labels number oracle block left)
    (hright : EndsWithValue env labels number oracle block right)
    {counter middle final : Nat} {first second rest : List Line}
    (hfirst : (Code.expr env left).Emits counter first middle ())
    (hsecond : (Code.expr env right).Emits middle second final ())
    (bound : ∀ use ∈ left.uses ++ right.uses, env.tree.Bound (env.tree.lookup block) block use)
    (indexed : ∀ ref ∈ left.indexed ++ right.indexed, env.tree.isWord ref = true)
    {before : Machine} (reached : vars.Reached env.tree before)
    (hroom : 4 * max left.stackWords (right.stackWords + 1) ≤ before.esp.toNat)
    {post : Machine → Prop} (ends : Ensures env.tree labels oracle
      (first ++ .instruction none (.push .eax) "" :: (second ++ rest)) before post) :
    ∃ leftWord wordsLeft rightWord wordsRight last,
      evaluate? env.tree number oracle left (vars.words before.memory) =
        some (leftWord, wordsLeft) ∧
      evaluate? env.tree number oracle right wordsLeft = some (rightWord, wordsRight) ∧
      last.eax = rightWord ∧ Leaves before [leftWord] wordsRight last ∧
      Ensures env.tree labels oracle rest last post := by
  obtain ⟨hboundLeft, hboundRight⟩ := List.forall_mem_append.mp bound
  obtain ⟨hindexedLeft, hindexedRight⟩ := List.forall_mem_append.mp indexed
  obtain ⟨leftWord, wordsLeft, hleftValue⟩ :=
    hleft hfirst hboundLeft hindexedLeft reached (by omega) ends.of_append
  have hyields := yields_expr fits left hfirst hboundLeft hindexedLeft hleftValue reached
    (by omega)
  obtain ⟨pushed, hpushed, hrest⟩ := hyields.exists_pushed reached (by omega) ends
  have hesp : pushed.esp.toNat + 4 = before.esp.toNat := hpushed.esp
  have hreached := hpushed.reached reached
  obtain ⟨rightWord, wordsRight, hrightValue⟩ :=
    hright hsecond hboundRight hindexedRight hreached (by omega) hrest.of_append
  have hyields' := yields_expr fits right hsecond hboundRight hindexedRight hrightValue hreached
    (by omega)
  obtain ⟨last, ⟨heax, hlast⟩, hends⟩ :=
    (hyields'.of_leaves hpushed reached).exists_middle hrest
  rw [hpushed.words] at hrightValue
  exact ⟨leftWord, wordsLeft, rightWord, wordsRight, last, hleftValue, hrightValue, heax, hlast,
    hends⟩

theorem endsWithValue_binary (fits : env.Fits labels vars number block) (op : BinaryOp)
    {left right : Expr} (hleft : EndsWithValue env labels number oracle block left)
    (hright : EndsWithValue env labels number oracle block right) :
    EndsWithValue env labels number oracle block (.binary op left right) := by
  intro counter final lines before post h bound indexed reached hroom ends
  obtain ⟨first, middle, second, hfirst, hsecond, rfl⟩ := emits_binary h
  obtain ⟨leftWord, wordsLeft, rightWord, wordsRight, last, hleftValue, hrightValue, rfl, hlast,
    hends⟩ := exists_operands fits hleft hright hfirst hsecond bound indexed reached hroom ends
  obtain ⟨value, hvalue⟩ := hlast.exists_word hends
  exact ⟨value, wordsRight, Option.bind_eq_some_iff.mpr ⟨_, hleftValue,
    Option.bind_eq_some_iff.mpr ⟨_, hrightValue,
      Option.bind_eq_some_iff.mpr ⟨_, hvalue, rfl⟩⟩⟩⟩

theorem endsWithValue_comparison (fits : env.Fits labels vars number block) (relation : Relation)
    {left right : Expr} (hleft : EndsWithValue env labels number oracle block left)
    (hright : EndsWithValue env labels number oracle block right) :
    EndsWithValue env labels number oracle block (.comparison relation left right) := by
  intro counter final lines before post h bound indexed reached hroom ends
  obtain ⟨first, middle, second, hfirst, hsecond, rfl⟩ := emits_comparison h
  obtain ⟨leftWord, wordsLeft, rightWord, wordsRight, last, hleftValue, hrightValue, -, -, -⟩ :=
    exists_operands fits hleft hright hfirst hsecond bound indexed reached hroom ends
  exact ⟨_, wordsRight, Option.bind_eq_some_iff.mpr ⟨_, hleftValue,
    Option.bind_eq_some_iff.mpr ⟨_, hrightValue, rfl⟩⟩⟩

theorem endsWithValues_cons (fits : env.Fits labels vars number block) {arg : Expr}
    {others : List Expr} (harg : EndsWithValue env labels number oracle block arg)
    (hothers : EndsWithValues env labels number oracle block others) :
    EndsWithValues env labels number oracle block (arg :: others) := by
  intro counter final lines before post h bound indexed reached hroom ends
  obtain ⟨first, middle, second, hemitsOthers, hemitsArg, rfl⟩ := emits_pushAll_cons h
  obtain ⟨hboundArg, hboundOthers⟩ := List.forall_mem_append.mp bound
  obtain ⟨hindexedArg, hindexedOthers⟩ := List.forall_mem_append.mp indexed
  rw [Expr.stackWordsAll] at hroom
  obtain ⟨rest, wordsRest, hrest⟩ :=
    hothers hemitsOthers hboundOthers hindexedOthers reached (by omega) ends.of_append
  have hpushed := ensures_pushAll fits others hemitsOthers hboundOthers hindexedOthers hrest
    reached (by omega)
  obtain ⟨between, hbetween, hends⟩ := hpushed.exists_middle ends
  have hesp := hbetween.esp
  have hlength := length_of_evaluateAll? hrest
  obtain ⟨value, words, hvalue⟩ :=
    harg hemitsArg hboundArg hindexedArg (hbetween.reached reached) (by omega) hends.of_append
  rw [hbetween.words] at hvalue
  exact ⟨value :: rest, words, Option.bind_eq_some_iff.mpr ⟨_, hrest,
    Option.bind_eq_some_iff.mpr ⟨_, hvalue, rfl⟩⟩⟩

mutual

/-- An expression whose code runs to its end has a value. -/
theorem exists_value (fits : env.Fits labels vars number block) (expr : Expr) :
    EndsWithValue env labels number oracle block expr := by
  cases expr with
  | literal literal line => exact fun _ _ _ _ _ _ _ _ _ _ _ => ⟨_, _, rfl⟩
  | name ref =>
      intro counter final lines before post _ bound
      exact fun _ _ _ _ => exists_nameValue fits (bound _ List.mem_cons_self) _
  | element ref index => exact endsWithValue_element fits ref (exists_value fits index)
  | call ref args => exact endsWithValue_call fits ref (exists_values fits args)
  | group inner line =>
      intro counter final lines before post h
      rw [Code.expr] at h
      exact exists_value fits inner h
  | negation operand line => exact endsWithValue_negation (exists_value fits operand)
  | signed sign operand line =>
      cases sign with
      | plus =>
          intro counter final lines before post h
          rw [Code.expr] at h
          exact exists_value fits operand h
      | minus => exact endsWithValue_minus (exists_value fits operand)
  | binary op left right =>
      exact endsWithValue_binary fits op (exists_value fits left) (exists_value fits right)
  | comparison relation left right =>
      exact endsWithValue_comparison fits relation (exists_value fits left)
        (exists_value fits right)

/-- Arguments that are pushed have values. -/
theorem exists_values (fits : env.Fits labels vars number block) (args : List Expr) :
    EndsWithValues env labels number oracle block args := by
  cases args with
  | nil => exact fun _ _ _ _ _ _ _ _ _ _ _ => ⟨_, _, rfl⟩
  | cons arg others =>
      exact endsWithValues_cons fits (exists_value fits arg) (exists_values fits others)

end

end Expressions

end MiniPascal
