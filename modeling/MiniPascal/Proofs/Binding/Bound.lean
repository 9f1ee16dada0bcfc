import MiniPascal.Proofs.Tree.Lookup

/-!
# Bound uses

A use of a name is bound when it carries the declaration that its name stands
for in its block and nothing speaks against using that declaration so.  Binding
the uses of a piece of a program one after another ends with all of them bound,
or with a diagnostic that the program's author can act on.
-/

namespace MiniPascal

/-- Whether a diagnostic tells the author of a program what is wrong with it.
The others are about files, or would be faults of the compiler itself. -/
def Diagnostic.isUserLevel : Diagnostic → Bool
  | illegalCharacter .. | unterminatedComment _ | unterminatedString _ | invalidNumber ..
  | unexpectedToken .. | duplicateDeclaration .. | undefinedSymbol .. | notAssignable ..
  | notARoutine .. | routineKindMismatch .. | procedureAsValue .. | notAValue .. | notAType ..
  | notAConstant .. | argumentCountMismatch .. | nestingTooDeep .. => true
  | fileRead _ | fileWrite _ | io _ | layoutAlreadyAssigned .. | codeGeneration .. | misuse ..
  | danglingId _ => false

/-- A use in a block can be bound: its name stands for a declaration that may be used so. -/
def Tree.Bindable (tree : Tree) (names : String → Option DeclId) (block : BlockId) (use : Use) :
    Prop :=
  ∃ id decl, names use.2.name = some id ∧ tree.decls[id]? = some decl ∧
    use.1.objection? tree block use.2 decl = none

/-- A use in a block carries what its name stands for, and may use it so. -/
def Tree.Bound (tree : Tree) (names : String → Option DeclId) (block : BlockId) (use : Use) :
    Prop :=
  ∃ id decl, use.2.decl? = some id ∧ names use.2.name = some id ∧
    tree.decls[id]? = some decl ∧ use.1.objection? tree block use.2 decl = none

namespace NameUse

/-- The binding that a use carries does not matter for what speaks against it. -/
theorem objection?_decl? (tree : Tree) (block : BlockId) (ref : NameRef) (decl : Decl)
    (id? : Option DeclId) (use : NameUse) :
    use.objection? tree block { ref with decl? := id? } decl =
      use.objection? tree block ref decl := by
  cases use <;> rfl

/-- The annotations of a declaration do not matter either. -/
theorem objection?_erased (tree : Tree) (block : BlockId) (ref : NameRef) (decl : Decl)
    (use : NameUse) :
    use.objection? tree block ref decl.erased = use.objection? tree block ref decl := by
  obtain ⟨name, line, kind, level?, layout?⟩ := decl
  cases kind with
  | routine heading =>
      obtain ⟨result, params, body⟩ := heading
      cases result <;> cases use <;> rfl
  | constant | type | variableOf | parameter | enumLiteral => cases use <;> rfl

/-- Nor do those of the tree. -/
theorem objection?_of_erased_eq {tree other : Tree} (h : other.erased = tree.erased)
    (block : BlockId) (ref : NameRef) (decl : Decl) (use : NameUse) :
    use.objection? other block ref decl = use.objection? tree block ref decl := by
  have hassignable : isAssignable other block = isAssignable tree block := by
    funext kind
    unfold isAssignable
    simp only [Tree.isWithin_of_erased_eq h]
  cases use with
  | target => simp only [objection?, hassignable]
  | typeName | constant | value | call => rfl

theorem isUserLevel_valueObjection? {ref : NameRef} {decl : Decl} {diagnostic : Diagnostic}
    (h : valueObjection? ref decl = some diagnostic) : diagnostic.isUserLevel = true := by
  unfold valueObjection? at h
  repeat' split at h
  all_goals cases h
  all_goals rfl

theorem isUserLevel_callObjection? {ref : NameRef} {decl : Decl} {routineClass : RoutineClass}
    {args : Nat} {diagnostic : Diagnostic}
    (h : callObjection? ref decl routineClass args = some diagnostic) :
    diagnostic.isUserLevel = true := by
  unfold callObjection? at h
  repeat' split at h
  all_goals cases h
  all_goals rfl

/-- Whatever speaks against a use is for the author of the program. -/
theorem isUserLevel_objection? {tree : Tree} {block : BlockId} {ref : NameRef} {decl : Decl}
    {use : NameUse} {diagnostic : Diagnostic}
    (h : use.objection? tree block ref decl = some diagnostic) :
    diagnostic.isUserLevel = true := by
  cases use with
  | value => exact isUserLevel_valueObjection? h
  | call => exact isUserLevel_callObjection? h
  | typeName | constant | target =>
      unfold objection? at h
      simp only at h
      split at h
      all_goals cases h
      all_goals rfl

end NameUse

/-- A bound use stays bound, whatever is annotated afterwards. -/
theorem Tree.Bound.of_erased_eq {tree other : Tree} {names : String → Option DeclId}
    {block : BlockId} {use : Use} (h : other.erased = tree.erased)
    (bound : tree.Bound names block use) : other.Bound names block use := by
  obtain ⟨id, decl, hid, hname, hdecl, hobjection⟩ := bound
  have herased := Tree.decl_of_erased_eq h id
  rw [hdecl, Option.map_some] at herased
  obtain ⟨decl', hdecl', hsame⟩ := Option.map_eq_some_iff.mp herased
  refine ⟨id, decl', hid, hname, hdecl', ?_⟩
  rw [NameUse.objection?_of_erased_eq h, ← NameUse.objection?_erased, hsame,
    NameUse.objection?_erased, hobjection]

/-- A parameter without its binding is still a parameter. -/
theorem DeclKind.eq_parameter_of_erased_eq {kind : DeclKind} {ref : NameRef}
    (h : kind.erased = (DeclKind.parameter ref).erased) : ∃ ref', kind = .parameter ref' := by
  cases kind with
  | parameter ref' => exact ⟨ref', rfl⟩
  | constant | type | variableOf | enumLiteral | routine => cases h

/-! ### Uses that can be bound -/

namespace Tree

variable {tree other : Tree} {names : String → Option DeclId} {block : BlockId} {use : Use}

theorem Bound.bindable (bound : tree.Bound names block use) : tree.Bindable names block use := by
  obtain ⟨id, decl, -, hname, hdecl, hobjection⟩ := bound
  exact ⟨id, decl, hname, hdecl, hobjection⟩

/-- Neither the binding that a use carries nor the annotations of the tree matter. -/
theorem Bindable.of_erased_eq {use' : Use} (h : other.erased = tree.erased)
    (huse : Use.erased use' = Use.erased use) (bindable : tree.Bindable names block use) :
    other.Bindable names block use' := by
  obtain ⟨id, decl, hname, hdecl, hobjection⟩ := bindable
  obtain ⟨kind, ref⟩ := use
  obtain ⟨kind', ref'⟩ := use'
  obtain ⟨rfl, href⟩ := Prod.mk.inj huse
  obtain ⟨href, hline, -⟩ := NameRef.mk.inj href
  have hsame : ref' = { ref with decl? := ref'.decl? } := by
    rw [← href, ← hline]
  have herased := Tree.decl_of_erased_eq h id
  rw [hdecl, Option.map_some] at herased
  obtain ⟨decl', hdecl', heq⟩ := Option.map_eq_some_iff.mp herased
  refine ⟨id, decl', ?_, hdecl', ?_⟩
  · rw [← hname]
    exact congrArg names href
  · rw [NameUse.objection?_of_erased_eq h, ← NameUse.objection?_erased, heq,
      NameUse.objection?_erased]
    change kind'.objection? tree block ref' decl = none
    rw [hsame, NameUse.objection?_decl?]
    exact hobjection

def AllBindable (tree : Tree) (names : String → Option DeclId) (block : BlockId)
    (uses : List Use) : Prop :=
  ∀ use ∈ uses, tree.Bindable names block use

theorem AllBindable.of_erased_eq {uses uses' : List Use} (h : other.erased = tree.erased)
    (huses : uses'.map Use.erased = uses.map Use.erased)
    (bindable : tree.AllBindable names block uses) : other.AllBindable names block uses' := by
  intro use' huse'
  have hmem : Use.erased use' ∈ uses.map Use.erased := by
    rw [← huses]
    exact List.mem_map_of_mem huse'
  obtain ⟨use, huse, heq⟩ := List.mem_map.mp hmem
  exact (bindable use huse).of_erased_eq h heq.symm

/-- The uses of names in the declaration with the given number. -/
def usesAt (tree : Tree) (id : DeclId) : List Use :=
  (tree.decls[id]?.map fun decl => decl.kind.uses).getD []

/-- The uses of names in what is declared, those in the parameters of a routine included. -/
def usesOf (tree : Tree) (kind : DeclKind) : List Use :=
  kind.uses ++ kind.params.flatMap tree.usesAt

theorem map_erased_usesAt (tree : Tree) (id : DeclId) :
    (tree.usesAt id).map Use.erased =
      ((tree.decls[id]?.map Decl.erased).map fun decl => decl.kind.uses).getD [] := by
  unfold usesAt
  cases tree.decls[id]? with
  | none => rfl
  | some decl => exact (DeclKind.uses_erased decl.kind).symm

theorem map_erased_usesAt_of_erased_eq (h : other.erased = tree.erased) (id : DeclId) :
    (other.usesAt id).map Use.erased = (tree.usesAt id).map Use.erased := by
  rw [map_erased_usesAt, map_erased_usesAt, decl_of_erased_eq h]

theorem map_erased_flatMap_usesAt (h : other.erased = tree.erased) (params : List DeclId) :
    (params.flatMap other.usesAt).map Use.erased = (params.flatMap tree.usesAt).map Use.erased := by
  rw [List.map_flatMap, List.map_flatMap]
  congr 1
  funext param
  exact map_erased_usesAt_of_erased_eq h param

theorem map_erased_usesOf (h : other.erased = tree.erased) {kind kind' : DeclKind}
    (hkind : kind'.erased = kind.erased) :
    (other.usesOf kind').map Use.erased = (tree.usesOf kind).map Use.erased := by
  have hparams : kind'.params = kind.params := by
    rw [← DeclKind.params_erased, hkind, DeclKind.params_erased]
  rw [usesOf, usesOf, List.map_append, List.map_append, ← DeclKind.uses_erased,
    ← DeclKind.uses_erased, hkind, hparams, map_erased_flatMap_usesAt h]

/-- The declaration with the given number is that of a parameter. -/
def IsParameter (tree : Tree) (id : DeclId) : Prop :=
  ∃ decl ref, tree.decls[id]? = some decl ∧ decl.kind = .parameter ref

theorem IsParameter.of_erased_eq (h : other.erased = tree.erased) {id : DeclId}
    (isParameter : tree.IsParameter id) : other.IsParameter id := by
  obtain ⟨decl, ref, hdecl, hkind⟩ := isParameter
  have herased := decl_of_erased_eq h id
  rw [hdecl, Option.map_some] at herased
  obtain ⟨decl', hdecl', heq⟩ := Option.map_eq_some_iff.mp herased
  have hkinds : decl'.kind.erased = decl.kind.erased := congrArg Decl.kind heq
  rw [hkind] at hkinds
  obtain ⟨ref', hkind'⟩ := DeclKind.eq_parameter_of_erased_eq hkinds
  exact ⟨decl', ref', hdecl', hkind'⟩

end Tree

/-! ### Binding uses one after another -/

namespace Binding

variable {tree : Tree} {block : BlockId}

theorem keepsUses_visit (tree : Tree) (block : BlockId) : KeepsUses (visit tree block) := by
  intro use ref binding
  simp only [visit, StateT.run]
  repeat' split
  all_goals rfl

/-- After a failure nothing is bound any more. -/
theorem visitUses_of_failure {binding : Binding} {diagnostic : Diagnostic}
    (h : binding.failure? = some diagnostic) (uses : List Use) :
    (visitUses (visit tree block) uses).run binding = (uses, binding) := by
  induction uses with
  | nil => rfl
  | cons head others ih =>
      obtain ⟨use, ref⟩ := head
      have same : (visit tree block use ref).run binding = (ref, binding) := by
        simp [visit, StateT.run, h]
      have tail : (visitUses (visit tree block) others).run
          ((visit tree block use ref).run binding).2 = (others, binding) := by
        rw [same]
        exact ih
      rw [visitUses_cons tail, same]

/-- What visiting one use ends with: the use is bound, or it can not be and the failure
is one for the author. -/
theorem visit_outcome (inRange : ∀ name id, tree.lookup block name = some id →
      id < tree.decls.size)
    (use : NameUse) (ref : NameRef) (log : Log) :
    let result := (visit tree block use ref).run { log, failure? := none }
    match result.2.failure? with
    | none => tree.Bound (tree.lookup block) block (use, result.1)
    | some diagnostic => diagnostic.isUserLevel = true ∧
        ¬tree.Bindable (tree.lookup block) block (use, ref) := by
  simp only [visit, StateT.run]
  cases found : tree.lookup block ref.name with
  | none =>
      refine ⟨rfl, ?_⟩
      rintro ⟨id, decl, hname, -⟩
      cases found.symm.trans hname
  | some id =>
      have bound := inRange _ _ found
      have declared : tree.decls[id]? = some tree.decls[id] := Array.getElem?_eq_getElem bound
      simp only [declared]
      cases objection : use.objection? tree block ref tree.decls[id] with
      | none =>
          refine ⟨id, tree.decls[id], rfl, found, declared, ?_⟩
          exact (NameUse.objection?_decl? ..).trans objection
      | some diagnostic =>
          refine ⟨NameUse.isUserLevel_objection? objection, ?_⟩
          rintro ⟨id', decl, hname, hdecl, hnone⟩
          obtain rfl := Option.some.inj (found.symm.trans hname)
          obtain rfl := Option.some.inj (declared.symm.trans hdecl)
          cases objection.symm.trans hnone

/-- What visiting uses ends with: all of them are bound, or one of them can not be and
the failure is one for the author. -/
theorem visitUses_outcome (inRange : ∀ name id, tree.lookup block name = some id →
      id < tree.decls.size)
    (uses : List Use) (log : Log) :
    let result := (visitUses (visit tree block) uses).run { log, failure? := none }
    match result.2.failure? with
    | none => ∀ use ∈ result.1, tree.Bound (tree.lookup block) block use
    | some diagnostic => diagnostic.isUserLevel = true ∧
        ¬∀ use ∈ uses, tree.Bindable (tree.lookup block) block use := by
  induction uses generalizing log with
  | nil => exact fun _ h => absurd h (List.not_mem_nil)
  | cons head others ih =>
      obtain ⟨use, ref⟩ := head
      have first := visit_outcome inRange use ref log
      obtain ⟨ref', binding, hvisit⟩ :
          ∃ ref' binding, (visit tree block use ref).run { log, failure? := none } =
            (ref', binding) := ⟨_, _, rfl⟩
      obtain ⟨others', final, hothers⟩ :
          ∃ others' final, (visitUses (visit tree block) others).run binding =
            (others', final) := ⟨_, _, rfl⟩
      have tail : (visitUses (visit tree block) others).run
          ((visit tree block use ref).run { log, failure? := none }).2 = (others', final) := by
        rw [hvisit]
        exact hothers
      have whole := visitUses_cons tail
      rw [hvisit] at first whole
      simp only [whole]
      cases hfailure : binding.failure? with
      | some diagnostic =>
          rw [visitUses_of_failure hfailure] at hothers
          obtain ⟨rfl, rfl⟩ := Prod.mk.inj hothers
          simp only [hfailure] at first ⊢
          exact ⟨first.1, fun hall => first.2 (hall _ List.mem_cons_self)⟩
      | none =>
          simp only [hfailure] at first
          have again : binding = { log := binding.log, failure? := none } := by
            rw [← hfailure]
          have tail := ih binding.log
          rw [← again, hothers] at tail
          simp only at tail
          cases hlast : final.failure? with
          | some diagnostic =>
              simp only [hlast] at tail ⊢
              exact ⟨tail.1, fun hall => tail.2 fun use huse =>
                hall use (List.mem_cons_of_mem _ huse)⟩
          | none =>
              simp only [hlast] at tail
              intro visited hmem
              rcases List.mem_cons.mp hmem with rfl | hmem
              · exact first
              · exact tail visited hmem

/-! ### What succeeded could be bound -/

theorem bindable_of_visit {use : NameUse} {ref : NameRef} {log : Log}
    (h : ((visit tree block use ref).run { log, failure? := none }).2.failure? = none) :
    tree.Bindable (tree.lookup block) block (use, ref) := by
  simp only [visit, StateT.run] at h
  cases hname : tree.lookup block ref.name with
  | none =>
      rw [hname] at h
      cases h
  | some id =>
      cases hdecl : tree.decls[id]? with
      | none =>
          simp only [hname, hdecl] at h
          cases h
      | some decl =>
          simp only [hname, hdecl] at h
          exact ⟨id, decl, hname, hdecl, h⟩

/-- When uses are visited without a failure, so is the first of them, and then the others. -/
theorem exists_of_visitUses_cons {use : NameUse} {ref : NameRef} {others : List Use} {log : Log}
    (h : ((visitUses (visit tree block) ((use, ref) :: others)).run
      { log, failure? := none }).2.failure? = none) :
    ∃ ref' middle others' final,
      (visit tree block use ref).run { log, failure? := none } =
        (ref', { log := middle, failure? := none }) ∧
      (visitUses (visit tree block) others).run { log := middle, failure? := none } =
        (others', { log := final, failure? := none }) ∧
      (visitUses (visit tree block) ((use, ref) :: others)).run { log, failure? := none } =
        ((use, ref') :: others', { log := final, failure? := none }) := by
  obtain ⟨ref', ⟨middle, failure?⟩, hvisit⟩ :
      ∃ ref' middle, (visit tree block use ref).run { log, failure? := none } = (ref', middle) :=
    ⟨_, _, rfl⟩
  obtain ⟨others', ⟨final, final?⟩, hothers⟩ :
      ∃ others' final, (visitUses (visit tree block) others).run { log := middle, failure? } =
        (others', final) := ⟨_, _, rfl⟩
  have htail : (visitUses (visit tree block) others).run
      ((visit tree block use ref).run { log, failure? := none }).2 =
        (others', { log := final, failure? := final? }) := by
    rw [hvisit]
    exact hothers
  have hcons := visitUses_cons htail
  rw [hcons] at h
  obtain rfl : final? = none := h
  cases failure? with
  | none => exact ⟨ref', middle, others', final, hvisit, hothers, by rw [hcons, hvisit]⟩
  | some diagnostic =>
      -- a failure of the first use would have lasted to the end
      rw [visitUses_of_failure rfl] at hothers
      cases hothers

theorem allBindable_of_visitUses {uses : List Use} {log : Log}
    (h : ((visitUses (visit tree block) uses).run { log, failure? := none }).2.failure? = none) :
    tree.AllBindable (tree.lookup block) block uses := by
  induction uses generalizing log with
  | nil => exact fun _ hmem => absurd hmem List.not_mem_nil
  | cons head others ih =>
      obtain ⟨use, ref⟩ := head
      obtain ⟨ref', middle, others', final, hvisit, hothers, -⟩ := exists_of_visitUses_cons h
      have hfirst :
          ((visit tree block use ref).run { log, failure? := none }).2.failure? = none := by
        rw [hvisit]
      have hrest : ((visitUses (visit tree block) others).run
          { log := middle, failure? := none }).2.failure? = none := by
        rw [hothers]
      exact List.forall_mem_cons.mpr ⟨bindable_of_visit hfirst, ih hrest⟩

/-- A traversal that ends without a failure has visited uses that could all be bound. -/
theorem allBindable_of_visited {α : Type} {uses : α → List Use} {erased : α → α} {before : α}
    {log : Log} {result : α × Binding}
    (h : Visited (visit tree block) uses erased before { log, failure? := none } result)
    (hfailure : result.2.failure? = none) :
    tree.AllBindable (tree.lookup block) block (uses before) := by
  have hnone : ((visitUses (visit tree block) (uses before)).run
      { log, failure? := none }).2.failure? = none := by
    rw [h.visits]
    exact hfailure
  exact allBindable_of_visitUses hnone

end Binding

end MiniPascal
