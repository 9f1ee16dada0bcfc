import MiniPascal.Proofs.Check.Advance
import MiniPascal.Proofs.Check.Outcome

/-!
# Binding while checking

A step that binds names ends with all of them bound to what they stand for at
that moment, or with a refusal: a diagnostic for the author of the program, and a
tree that differs in annotations alone.
-/

namespace MiniPascal

namespace Check

/-- A check is refused when a demand on the program is not met: its diagnostic is for
the author of the program, and nothing but annotations was written. -/
def Refused (tree : Tree) (demand : Prop) (diagnostic : Diagnostic) (state : Checking) : Prop :=
  diagnostic.isUserLevel = true ∧ state.tree.erased = tree.erased ∧ ¬demand

/-- What refuses a part of a program refuses the whole, which demands more. -/
theorem Ends.refused {α : Type} {step : Check α} {start : Checking} {done : α → Checking → Prop}
    {tree other : Tree} {demand demand' : Prop} (h : step.Ends start done (Refused other demand))
    (herased : other.erased = tree.erased) (hdemand : demand' → demand) :
    step.Ends start done (Refused tree demand') := by
  apply h.mono_failed
  intro diagnostic state refused
  exact ⟨refused.1, refused.2.1.trans herased, fun met => refused.2.2 (hdemand met)⟩

variable {state : Checking} {block : BlockId}

/-- What names stand for in a block are declarations. -/
def InRange (tree : Tree) (names : String → Option DeclId) : Prop :=
  ∀ name id, names name = some id → id < tree.decls.size

theorem InRange.of_erased_eq {tree other : Tree} {names : String → Option DeclId}
    (h : InRange tree names) (herased : other.erased = tree.erased) : InRange other names := by
  rw [InRange, Tree.size_decls_of_erased_eq herased]
  exact h

/-- The traversal of a piece of a program binds its names, or finds one that can
not be bound. -/
theorem ends_bindNames {α : Type} {uses : α → List Use} {erased : α → α} {value : α}
    {traversal : (NameUse → NameRef → StateM Binding NameRef) → StateM Binding α}
    (inRange : InRange state.tree (state.tree.lookup block))
    (visited : Visited (Binding.visit state.tree block) uses erased value
      { log := state.log, failure? := none }
      ((traversal (Binding.visit state.tree block)).run { log := state.log, failure? := none }))
    {failed : Diagnostic → Checking → Prop} :
    Ends (Check.bind block traversal) state
      (fun result final => final.tree = state.tree ∧ final.scope = state.scope ∧
        erased result.1 = erased value ∧
        match result.2 with
        | none => ∀ use ∈ uses result.1, state.tree.Bound (state.tree.lookup block) block use
        | some diagnostic => diagnostic.isUserLevel = true ∧
            ¬state.tree.AllBindable (state.tree.lookup block) block (uses value))
      failed := by
  have outcome := Binding.visitUses_outcome inRange (uses value) state.log
  rw [visited.visits] at outcome
  exact ⟨rfl, rfl, visited.erased_eq, outcome⟩

/-- The result of binding names, all of which must be bound. -/
structure AllBound {α : Type} (uses : α → List Use) (erased : α → α) (value : α)
    (block : BlockId) (state : Checking) (result : α) (final : Checking) : Prop where
  tree_eq : final.tree = state.tree
  scope_eq : final.scope = state.scope
  erased_eq : erased result = erased value
  bound : ∀ use ∈ uses result, state.tree.Bound (state.tree.lookup block) block use

/-- What is bound could be bound. -/
theorem AllBound.bindable {α : Type} {uses : α → List Use} {erased : α → α} {value result : α}
    {final : Checking} (h : AllBound uses erased value block state result final)
    (huses : ∀ piece, (uses (erased piece)) = (uses piece).map Use.erased) :
    state.tree.AllBindable (state.tree.lookup block) block (uses value) := by
  have bindable : state.tree.AllBindable (state.tree.lookup block) block (uses result) :=
    fun use huse => (h.bound use huse).bindable
  apply bindable.of_erased_eq rfl
  rw [← huses, ← huses, h.erased_eq]

theorem ends_bindAll {α : Type} {uses : α → List Use} {erased : α → α} {value : α}
    {traversal : (NameUse → NameRef → StateM Binding NameRef) → StateM Binding α}
    (inRange : InRange state.tree (state.tree.lookup block))
    (visited : Visited (Binding.visit state.tree block) uses erased value
      { log := state.log, failure? := none }
      ((traversal (Binding.visit state.tree block)).run { log := state.log, failure? := none })) :
    Ends (bindAll block traversal) state (AllBound uses erased value block state)
      (Refused state.tree
        (state.tree.AllBindable (state.tree.lookup block) block (uses value))) := by
  unfold bindAll
  refine Check.ends_bind ((ends_bindNames inRange visited).mono ?_)
  rintro ⟨result, failure?⟩ final ⟨htree, hscope, herased, houtcome⟩
  cases failure? with
  | none => exact ends_pure ⟨htree, hscope, herased, houtcome⟩
  | some diagnostic => exact ends_throw ⟨houtcome.1, congrArg Tree.erased htree, houtcome.2⟩

/-- A single use is visited as itself. -/
theorem visited_single (tree : Tree) (block : BlockId) (use : NameUse) (ref : NameRef)
    (start : Binding) :
    Visited (Binding.visit tree block) (fun ref => [(use, ref)]) NameRef.erased ref start
      ((Binding.visit tree block use ref).run start) :=
  ⟨rfl, Binding.keepsUses_visit tree block use ref start⟩

/-- Binding a single name binds it, or finds that it can not be bound. -/
theorem ends_bindName (inRange : InRange state.tree (state.tree.lookup block)) (use : NameUse)
    (ref : NameRef) :
    Ends (bindAll block fun visit => visit use ref) state
      (AllBound (fun ref => [(use, ref)]) NameRef.erased ref block state)
      (Refused state.tree
        (state.tree.AllBindable (state.tree.lookup block) block [(use, ref)])) := by
  have visited := visited_single state.tree block use ref { log := state.log, failure? := none }
  exact ends_bindAll inRange visited

/-- A bound use carries a binding. -/
theorem isResolved_of_bound {tree : Tree} {names : String → Option DeclId} {kind : DeclKind}
    (bound : ∀ use ∈ kind.uses, tree.Bound names block use) : kind.IsResolved := by
  intro use huse
  obtain ⟨id, -, hid, -⟩ := bound use huse
  rw [hid]
  rfl

/-- Binding the type of a parameter annotates the parameter alone. -/
theorem ends_bindParam {param : DeclId} (inRange : InRange state.tree (state.tree.lookup block))
    (hparam : state.tree.IsParameter param) :
    Ends (bindParam block param) state
      (fun _ final => final.scope = state.scope ∧
        state.tree.Advances final.tree [] [] [param] ∧ final.tree.ResolvedAt param ∧
        state.tree.AllBindable (state.tree.lookup block) block (state.tree.usesAt param))
      (Refused state.tree
        (state.tree.AllBindable (state.tree.lookup block) block (state.tree.usesAt param))) := by
  obtain ⟨decl, ref, hdecl, hkind⟩ := hparam
  have hasked : state.tree.decl param = .ok decl := by
    rw [Tree.decl, hdecl]
  have huses : state.tree.usesAt param = [(.typeName, ref)] := by
    rw [Tree.usesAt, hdecl, Option.map_some, hkind]
    rfl
  unfold bindParam
  rw [huses]
  refine ends_bind (ends_ask hasked ?_)
  rw [hkind]
  refine ends_bind ((ends_bindName inRange .typeName ref).mono ?_)
  intro ref' final hbound
  have hresolved : (DeclKind.parameter ref').IsResolved := isResolved_of_bound hbound.bound
  refine ends_onTree rfl ⟨hbound.scope_eq, ?_, ?_, hbound.bindable fun _ => rfl⟩
  · rw [hbound.tree_eq]
    refine Tree.Advances.modifyKind state.tree param ?_ (fun _ => ⟨rfl, rfl⟩) fun _ _ => hresolved
    intro found hfound
    rw [hdecl] at hfound
    obtain rfl := Option.some.inj hfound
    simp only [Decl.erased, hkind, DeclKind.erased, hbound.erased_eq]
  · rw [hbound.tree_eq]
    refine ⟨{ decl with kind := .parameter ref' }, ?_, hresolved⟩
    rw [Tree.getElem?_decls_modifyDecl, if_pos rfl, hdecl, Option.map_some]

/-- Binding the types of parameters annotates the parameters alone. -/
theorem ends_bindParams {params : List DeclId} (descends : state.tree.Descends)
    (inRange : InRange state.tree (state.tree.lookup block))
    (hparams : ∀ param ∈ params, state.tree.IsParameter param) :
    Ends (params.forM (bindParam block)) state
      (fun _ final => final.scope = state.scope ∧
        state.tree.Advances final.tree [] [] params ∧
        (∀ param ∈ params, final.tree.ResolvedAt param) ∧
        state.tree.AllBindable (state.tree.lookup block) block (params.flatMap state.tree.usesAt))
      (Refused state.tree (state.tree.AllBindable (state.tree.lookup block) block
        (params.flatMap state.tree.usesAt))) := by
  induction params generalizing state with
  | nil =>
      exact ends_pure ⟨rfl, .refl _, fun _ h => absurd h List.not_mem_nil,
        fun _ h => absurd h List.not_mem_nil⟩
  | cons param others ih =>
      obtain ⟨hparam, hothers⟩ := List.forall_mem_cons.mp hparams
      rw [List.flatMap_cons]
      refine ends_bind (((ends_bindParam inRange hparam).mono ?_).refused rfl fun all =>
        (List.forall_mem_append.mp all).1)
      rintro _ middle ⟨hscope, advances, hresolved, hbindable⟩
      have hnames : middle.tree.lookup block = state.tree.lookup block :=
        advances.lookup_eq descends fun _ h => absurd h List.not_mem_nil
      have herased := advances.erased_eq
      have rest := @ih middle (descends.of_erased_eq herased)
        (hnames ▸ inRange.of_erased_eq herased)
        (fun other hother => (hothers other hother).of_erased_eq herased)
      rw [hnames] at rest
      refine (rest.mono ?_).refused herased fun all =>
        Tree.AllBindable.of_erased_eq herased (Tree.map_erased_flatMap_usesAt herased others)
          (List.forall_mem_append.mp all).2
      rintro _ final ⟨hscope', advances', hresolved', hbindable'⟩
      refine ⟨hscope'.trans hscope, ?_, ?_, ?_⟩
      · exact (advances.mono (List.nil_subset _) (List.nil_subset _)
          (List.cons_subset.mpr ⟨List.mem_cons_self, List.nil_subset _⟩)).trans
          (advances'.mono (List.nil_subset _) (List.nil_subset _) (List.subset_cons_self _ _))
      · exact List.forall_mem_cons.mpr ⟨advances'.resolved _ hresolved, hresolved'⟩
      · exact List.forall_mem_append.mpr ⟨hbindable, hbindable'.of_erased_eq herased.symm
          (Tree.map_erased_flatMap_usesAt herased.symm others)⟩

/-- Binding the names in a declaration leaves its kind but for bindings, and
annotates its parameters alone. -/
structure KindBoundBy (block : BlockId) (state : Checking) (kind : DeclKind) (result : DeclKind)
    (final : Checking) : Prop where
  scope_eq : final.scope = state.scope
  erased_eq : result.erased = kind.erased
  bound : ∀ use ∈ result.uses, state.tree.Bound (state.tree.lookup block) block use
  advances : state.tree.Advances final.tree [] [] kind.params
  params : ∀ param ∈ kind.params, final.tree.ResolvedAt param
  bindable : state.tree.AllBindable (state.tree.lookup block) block (state.tree.usesOf kind)

theorem KindBoundBy.of_allBound {α : Type} {uses : α → List Use} {erased : α → α} {value result : α}
    {final : Checking} (h : AllBound uses erased value block state result final)
    {kind : α → DeclKind} (herased : (kind result).erased = (kind value).erased)
    (huses : ∀ piece, (kind piece).uses = uses piece) (hparams : (kind value).params = [])
    (hmap : ∀ piece, uses (erased piece) = (uses piece).map Use.erased) :
    KindBoundBy block state (kind value) (kind result) final where
  scope_eq := h.scope_eq
  erased_eq := herased
  bound := by
    rw [huses]
    exact h.bound
  advances := by
    rw [h.tree_eq]
    exact (Tree.Advances.refl _).mono (List.nil_subset _) (List.nil_subset _) (List.nil_subset _)
  params := by
    rw [hparams]
    exact fun _ h => absurd h List.not_mem_nil
  bindable := by
    rw [Tree.usesOf, hparams, huses, List.flatMap_nil, List.append_nil]
    exact h.bindable hmap

/-- The result of a routine is bound before its parameters. -/
theorem ends_bindRoutine {heading : Routine} (descends : state.tree.Descends)
    (inRange : InRange state.tree (state.tree.lookup block))
    (hparams : ∀ param ∈ heading.params, state.tree.IsParameter param) :
    Ends (bindKind block (.routine heading)) state (KindBoundBy block state (.routine heading))
      (Refused state.tree (state.tree.AllBindable (state.tree.lookup block) block
        (state.tree.usesOf (.routine heading)))) := by
  obtain ⟨result?, params, body⟩ := heading
  cases result? with
  | none =>
      refine ends_bind (ends_pure (ends_bind (((ends_bindParams descends inRange hparams).mono
        ?_).refused rfl fun all => (List.forall_mem_append.mp all).2)))
      rintro _ final ⟨hscope, advances, hresolved, hbindable⟩
      exact ends_pure ⟨hscope, rfl, fun _ h => absurd h List.not_mem_nil, advances, hresolved,
        hbindable⟩
  | some ref =>
      have htheirs : state.tree.AllBindable (state.tree.lookup block) block
          (state.tree.usesOf (.routine { result := some ref, params, body })) →
          state.tree.AllBindable (state.tree.lookup block) block
            (params.flatMap state.tree.usesAt) := fun all => (List.forall_mem_append.mp all).2
      refine ends_bind (ends_map (((ends_bindName inRange .typeName ref).mono ?_).refused rfl
        fun all => (List.forall_mem_append.mp all).1))
      intro result middle h
      refine ends_bind ?_
      have hresult := h.bindable fun _ => rfl
      rw [← h.tree_eq] at descends inRange hparams htheirs hresult ⊢
      refine ((ends_bindParams descends inRange hparams).mono ?_).refused rfl htheirs
      rintro _ final ⟨hscope, advances, hresolved, hbindable⟩
      refine ends_pure ⟨hscope.trans h.scope_eq, ?_, ?_, ?_, hresolved, ?_⟩
      · exact congrArg (fun ref => DeclKind.routine { result := some ref, params, body })
          h.erased_eq
      · exact h.bound
      · rw [← h.tree_eq]
        exact advances
      · rw [← h.tree_eq]
        exact List.forall_mem_append.mpr ⟨hresult, hbindable⟩

theorem ends_bindKind {kind : DeclKind} (descends : state.tree.Descends)
    (inRange : InRange state.tree (state.tree.lookup block))
    (hparams : ∀ param ∈ kind.params, state.tree.IsParameter param)
    (hkind : ∀ ref, kind ≠ .parameter ref) :
    Ends (bindKind block kind) state (KindBoundBy block state kind)
      (Refused state.tree
        (state.tree.AllBindable (state.tree.lookup block) block (state.tree.usesOf kind))) := by
  have keeps := Binding.keepsUses_visit state.tree block
  have hown : state.tree.AllBindable (state.tree.lookup block) block (state.tree.usesOf kind) →
      state.tree.AllBindable (state.tree.lookup block) block kind.uses :=
    fun all => (List.forall_mem_append.mp all).1
  cases kind with
  | constant value =>
      refine ends_bind (((ends_bindAll inRange (value.visited_traverse keeps _)).mono ?_).refused
        rfl hown)
      intro result final h
      exact ends_pure (.of_allBound h (congrArg DeclKind.constant h.erased_eq) (fun _ => rfl) rfl
        Constant.uses_erased)
  | type content =>
      refine ends_bind (((ends_bindAll inRange (content.visited_traverse keeps _)).mono ?_).refused
        rfl hown)
      intro result final h
      exact ends_pure (.of_allBound h (congrArg DeclKind.type h.erased_eq) (fun _ => rfl) rfl
        TypeExpr.uses_erased)
  | variableOf content =>
      refine ends_bind (((ends_bindAll inRange (content.visited_traverse keeps _)).mono ?_).refused
        rfl hown)
      intro result final h
      exact ends_pure (.of_allBound h (congrArg DeclKind.variableOf h.erased_eq) (fun _ => rfl) rfl
        TypeExpr.uses_erased)
  | parameter ref => exact absurd rfl (hkind ref)
  | enumLiteral code =>
      exact ends_pure ⟨rfl, rfl, fun _ h => absurd h List.not_mem_nil, .refl _,
        fun _ h => absurd h List.not_mem_nil, fun _ h => absurd h List.not_mem_nil⟩
  | routine heading => exact ends_bindRoutine descends inRange hparams

end Check

end MiniPascal
