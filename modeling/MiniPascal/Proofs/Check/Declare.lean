import MiniPascal.Proofs.Check.Bind
import MiniPascal.Proofs.Check.Legal
import Mathlib.Data.List.Nodup

/-!
# Checking the declarations of a block

Parameters, declarations and enumeration literals enter the table of a block one
after another.  Each gets its level and its storage, the names in it are bound to
what was declared before it, and nothing but a diagnostic for the author of the
program can stop this.
-/

namespace MiniPascal

/-! ### What erasing keeps of a kind -/

theorem TypeExpr.literals_erased {Lit : Type} (type : TypeExpr Lit) :
    type.erased.literals = type.literals := by
  induction type with
  | array index element line ihIndex ihElement =>
      exact congrArg₂ (· ++ ·) ihIndex ihElement
  | named | enumeration | range | builtin => rfl

namespace DeclKind

@[simp]
theorem literalsOf_erased (kind : DeclKind) :
    Check.literalsOf kind.erased = Check.literalsOf kind := by
  cases kind with
  | type content => exact content.literals_erased
  | variableOf content => exact content.literals_erased
  | constant | parameter | enumLiteral | routine => rfl

@[simp]
theorem layoutFor_erased (level : ScopeLevel Int) (kind : DeclKind) :
    level.layoutFor kind.erased = level.layoutFor kind := by
  cases kind with
  | routine heading =>
      obtain ⟨result?, params, body⟩ := heading
      cases result? <;> rfl
  | constant | type | variableOf | parameter | enumLiteral => rfl

@[simp]
theorem takesWord_erased (kind : DeclKind) : kind.erased.takesWord = kind.takesWord := by
  cases kind with
  | routine heading =>
      obtain ⟨result?, params, body⟩ := heading
      cases result? <;> rfl
  | constant | type | variableOf | parameter | enumLiteral => rfl

end DeclKind

/-- A declaration is still to be checked. -/
def Tree.Awaits (tree : Tree) (x : Numbered) : Prop :=
  ∃ decl, tree.decls[x.id]? = some decl ∧ decl.erased = x.decl.erased ∧
    decl.level? = none ∧ decl.layout? = none

theorem Tree.Awaits.id_lt {tree : Tree} {x : Numbered} (h : tree.Awaits x) :
    x.id < tree.decls.size := by
  obtain ⟨decl, hdecl, -⟩ := h
  exact (Array.getElem?_eq_some_iff.mp hdecl).1

theorem Tree.Awaits.isParameter {tree : Tree} {x : Numbered} {ref : NameRef} (h : tree.Awaits x)
    (hx : x.decl.kind = .parameter ref) : tree.IsParameter x.id := by
  obtain ⟨decl, hdecl, herased, -⟩ := h
  have hkind : decl.kind.erased = x.decl.kind.erased := congrArg Decl.kind herased
  rw [hx] at hkind
  obtain ⟨ref', hkind'⟩ := DeclKind.eq_parameter_of_erased_eq hkind
  exact ⟨decl, ref', hdecl, hkind'⟩

theorem Tree.Advances.awaits {before after : Tree} {blocks : List BlockId}
    {laidOut bound : List DeclId} (advances : before.Advances after blocks laidOut bound)
    {x : Numbered} (hx : x.id ∉ laidOut) (h : before.Awaits x) : after.Awaits x := by
  obtain ⟨decl, hdecl, herased, hlevel, hlayout⟩ := h
  have hsame := advances.storage x.id hx
  rw [hdecl, Option.map_some] at hsame
  obtain ⟨decl', hdecl', heq⟩ := Option.map_eq_some_iff.mp hsame
  obtain ⟨hlevel', hlayout'⟩ := Prod.mk.inj heq
  have herased' := Tree.decl_of_erased_eq advances.erased_eq x.id
  rw [hdecl, hdecl', Option.map_some, Option.map_some] at herased'
  exact ⟨decl', hdecl', (Option.some.inj herased').trans herased, hlevel'.trans hlevel,
    hlayout'.trans hlayout⟩

/-! ### Single steps on a tree -/

namespace Tree

variable {tree : Tree} {id : DeclId} {decl : Decl}

theorem decl_eq_ok (h : tree.decls[id]? = some decl) : tree.decl id = .ok decl := by
  rw [Tree.decl, h]

theorem block_eq_ok {id : BlockId} {block : Block} (h : tree.blocks[id]? = some block) :
    tree.block id = .ok block := by
  rw [Tree.block, h]

/-- The declaration is replaced. -/
def setDecl (id : DeclId) (decl : Decl) (tree : Tree) : Tree :=
  tree.modifyDecl id fun _ => decl

theorem getElem?_decls_setDecl (h : tree.decls[id]? = some decl) (decl' : Decl) :
    (tree.setDecl id decl').decls[id]? = some decl' := by
  rw [setDecl, getElem?_decls_modifyDecl, if_pos rfl, h, Option.map_some]

@[simp]
theorem setDecl_setDecl (decl decl' : Decl) :
    (tree.setDecl id decl).setDecl id decl' = tree.setDecl id decl' := by
  simp only [setDecl, modifyDecl]
  congr 1
  apply Array.ext_getElem?
  intro index
  simp only [Array.getElem?_modify]
  by_cases hid : id = index
  · simp only [if_pos hid, Option.map_map]
    rfl
  · simp only [if_neg hid]

theorem modifyDecl_eq_setDecl (h : tree.decls[id]? = some decl) (change : Decl → Decl) :
    tree.modifyDecl id change = tree.setDecl id (change decl) := by
  simp only [setDecl, modifyDecl]
  congr 1
  apply Array.ext_getElem?
  intro index
  simp only [Array.getElem?_modify]
  by_cases hid : id = index
  · subst hid
    simp only [if_pos, h, Option.map_some]
  · simp only [if_neg hid]

theorem assignLevel_eq_ok (h : tree.decls[id]? = some decl) (hlevel : decl.level? = none)
    (level : Nat) :
    tree.assignLevel id level = .ok (tree.setDecl id { decl with level? := some level }) := by
  rw [assignLevel, decl_eq_ok h]
  simp [Decl.assignLevel, hlevel, setDecl, bind, Except.bind, pure, Except.pure]

theorem assignLayout_eq_ok (h : tree.decls[id]? = some decl) (hlayout : decl.layout? = none)
    (layout : Layout) :
    tree.assignLayout id layout =
      .ok (tree.setDecl id { decl with layout? := some layout }) := by
  rw [assignLayout, decl_eq_ok h]
  simp [Decl.assignLayout, hlayout, setDecl, bind, Except.bind, pure, Except.pure]

/-- A declaration enters a table if its name is not in it yet. -/
theorem declare_eq (hdecl : tree.decls[id]? = some decl) {outer : BlockId} {block : Block}
    (hblock : tree.blocks[outer]? = some block) :
    tree.declare outer id =
      if (block.table.lookup decl.name).isSome then
        .error (.duplicateDeclaration decl.name decl.line)
      else
        .ok (tree.modifyBlock outer fun block =>
          { block with table := (decl.name, id) :: block.table }) := by
  rw [declare, decl_eq_ok hdecl, block_eq_ok hblock]
  simp only [bind, Except.bind, pure, Except.pure, throw, throwThe, MonadExceptOf.throw]

/-- What is fixed of a declaration was found and agreed to. -/
theorem exists_of_assign_eq_ok {after : Tree} {found : Except Diagnostic Decl}
    {assign : Decl → Except Diagnostic Decl}
    (h : (do let decl ← assign (← found); return tree.modifyDecl id fun _ => decl) = .ok after) :
    ∃ decl assigned, found = .ok decl ∧ assign decl = .ok assigned ∧
      after = tree.modifyDecl id fun _ => assigned := by
  cases found with
  | error diagnostic => cases h
  | ok decl =>
      change (assign decl >>= fun decl => pure (tree.modifyDecl id fun _ => decl)) = _ at h
      cases hassign : assign decl with
      | error diagnostic =>
          rw [hassign] at h
          cases h
      | ok assigned =>
          rw [hassign] at h
          cases h
          exact ⟨decl, assigned, rfl, hassign, rfl⟩

/-- A declaration that entered a table has a name that was not in it. -/
theorem exists_of_declare_eq_ok {after : Tree} {outer : BlockId}
    (h : tree.declare outer id = .ok after) :
    ∃ decl block, tree.decls[id]? = some decl ∧ tree.blocks[outer]? = some block ∧
      ¬(block.table.lookup decl.name).isSome = true ∧
      after = tree.modifyBlock outer fun block =>
        { block with table := (decl.name, id) :: block.table } := by
  cases hdecl : tree.decls[id]? with
  | none =>
      rw [declare, Tree.decl, hdecl] at h
      cases h
  | some decl =>
      cases hblock : tree.blocks[outer]? with
      | none =>
          rw [declare, decl_eq_ok hdecl, Tree.block, hblock] at h
          cases h
      | some block =>
          rw [declare_eq hdecl hblock] at h
          split at h
          · cases h
          · next hfresh =>
              cases h
              exact ⟨decl, block, rfl, rfl, hfresh, rfl⟩

end Tree

/-! ### Progress inside a block -/

namespace Check

/-- A block can be checked: all that is declared in it is still to be checked,
and the names around it are those of its site. -/
structure Begins (start : Checking) (site : Site) (node : Node) (inside : List DeclId) : Prop where
  level_eq : site.level = start.scope.current
  names_eq : start.tree.lookupAround node.id = site.names
  descends : start.tree.Descends
  inRange : InRange start.tree site.names
  block_eq : start.tree.blocks[node.id]? = some node.block
  awaits : ∀ x ∈ node.declared, start.tree.Awaits x
  ids_nodup : (node.declared.map Numbered.id).Nodup
  wellFormed : node.WellFormed
  params : ∀ entry ∈ node.entries, ∀ id ∈ entry.declared.decl.kind.params,
    start.tree.IsParameter id ∧ id ∈ inside
  notMem_inside : ∀ x ∈ node.declared, x.id ∉ inside

/-- Some declarations of a block are checked, the rest is still to come; `inside`
is what is declared in the bodies inside the block. -/
structure Progress (start : Checking) (site : Site) (node : Node) (inside : List DeclId)
    (level : ScopeLevel Int) (done rest : List Numbered) (state : Checking) : Prop where
  split : node.declared = done ++ rest
  advances : start.tree.Advances state.tree [node.id] (done.map Numbered.id)
    (done.map Numbered.id ++ inside)
  scope_eq : state.scope =
    { current := level, outer := start.scope.current :: start.scope.outer }
  block_eq : state.tree.blocks[node.id]? =
    some (node.blockAt (site.entered node) (tableOf done))
  names_nodup : (done.map (·.decl.name)).Nodup

namespace Progress

variable {start state : Checking} {site : Site} {node : Node} {inside : List DeclId}
variable {level : ScopeLevel Int} {done rest : List Numbered} {x : Numbered}

theorem descends (begins : Begins start site node inside)
    (progress : Progress start site node inside level done rest state) : state.tree.Descends :=
  begins.descends.of_erased_eq progress.advances.erased_eq

/-- Names stand for what was declared so far, or for what they stand for around. -/
theorem lookup_eq (begins : Begins start site node inside)
    (progress : Progress start site node inside level done rest state) :
    state.tree.lookup node.id = namesIn done site.names := by
  funext name
  have htable : state.tree.tableAt node.id = tableOf done := by
    rw [Tree.tableAt, progress.block_eq]
    rfl
  have haround : state.tree.lookupAround node.id = site.names := by
    rw [progress.advances.lookupAround_eq begins.descends fun block hblock =>
      Nat.le_of_eq (List.mem_singleton.mp hblock).symm, begins.names_eq]
  rw [Tree.lookup_eq (progress.descends begins), htable, haround, namesIn]

theorem inRange (begins : Begins start site node inside)
    (progress : Progress start site node inside level done rest state) :
    InRange state.tree (namesIn done site.names) := by
  intro name id hname
  rw [Tree.size_decls_of_erased_eq progress.advances.erased_eq]
  rcases Option.or_eq_some_iff.mp hname with hdone | ⟨-, haround⟩
  · obtain ⟨x, hx, -, rfl⟩ := exists_of_lookup_tableOf hdone
    refine (begins.awaits x ?_).id_lt
    rw [progress.split]
    exact List.mem_append_left _ hx
  · exact begins.inRange name id haround

/-- What comes next is still to be checked. -/
theorem awaits (begins : Begins start site node inside)
    (progress : Progress start site node inside level done (x :: rest) state) :
    state.tree.Awaits x := by
  have hnodup := begins.ids_nodup
  rw [progress.split, List.map_append, List.map_cons] at hnodup
  refine progress.advances.awaits ?_ (begins.awaits x ?_)
  · intro hmem
    exact (List.nodup_append'.mp hnodup).2.2 hmem List.mem_cons_self
  · rw [progress.split]
    exact List.mem_append_right _ List.mem_cons_self

/-- A declaration whose name is new, annotated and put in the table, is one more that is
checked. -/
theorem entered (progress : Progress start site node inside level done (x :: rest) state)
    {decl' : Decl} (hname : decl'.name = x.decl.name)
    (hnew : (tableOf done).lookup decl'.name = none) {bound : List DeclId}
    (hsubset : bound ⊆ x.id :: inside)
    (step : state.tree.Advances ((state.tree.setDecl x.id decl').modifyBlock node.id fun block =>
      { block with table := (decl'.name, x.id) :: block.table }) [node.id] [x.id] bound) :
    Progress start site node inside level (done ++ [x]) rest
      { state with tree := (state.tree.setDecl x.id decl').modifyBlock node.id fun block =>
          { block with table := (decl'.name, x.id) :: block.table } } := by
  constructor
  case split => rw [progress.split, List.append_assoc, List.singleton_append]
  case advances =>
    rw [List.map_append]
    refine (progress.advances.mono (List.Subset.refl _) (List.subset_append_left _ _) ?_).trans
      (step.mono (List.Subset.refl _) (List.subset_append_right _ _) ?_)
    · exact List.append_subset.mpr ⟨List.subset_append_of_subset_left _
        (List.subset_append_left _ _), List.subset_append_right _ _⟩
    · intro id hid
      rcases List.mem_cons.mp (hsubset hid) with rfl | hid
      · exact List.mem_append_left _ (List.mem_append_right _ List.mem_cons_self)
      · exact List.mem_append_right _ hid
  case scope_eq => exact progress.scope_eq
  case block_eq =>
    have hblock : (state.tree.setDecl x.id decl').blocks[node.id]? =
        some (node.blockAt (site.entered node) (tableOf done)) := progress.block_eq
    rw [Tree.getElem?_blocks_modifyBlock, if_pos rfl, hblock, tableOf_append_singleton, hname]
    rfl
  case names_nodup =>
    rw [List.map_append, List.map_cons, List.map_nil]
    refine List.Nodup.append progress.names_nodup (List.nodup_singleton _) ?_
    rw [List.disjoint_singleton, ← hname]
    exact lookup_tableOf_eq_none_iff.mp hnew

/-- Where the name of the next declaration is in the table, the names of the block are not
distinct. -/
theorem not_nodup_names (progress : Progress start site node inside level done (x :: rest) state)
    {id : DeclId} (hlookup : (tableOf done).lookup x.decl.name = some id) :
    ¬(node.declared.map (·.decl.name)).Nodup := by
  intro hnodup
  rw [progress.split, List.map_append, List.map_cons] at hnodup
  obtain ⟨y, hy, hsame, -⟩ := exists_of_lookup_tableOf hlookup
  refine (List.nodup_append'.mp hnodup).2.2 (List.mem_map_of_mem hy) ?_
  rw [hsame]
  exact List.mem_cons_self

/-- The next declaration, annotated, enters the table. -/
theorem ends_declare (progress : Progress start site node inside level done (x :: rest) state)
    {decl decl' : Decl} (hdecl : state.tree.decls[x.id]? = some decl)
    (hsame : decl'.erased = decl.erased) (hx : decl.erased = x.decl.erased) {bound : List DeclId}
    (hbound : decl'.kind = decl.kind ∨ x.id ∈ bound ∧ decl'.kind.IsResolved)
    (hsubset : bound ⊆ x.id :: inside) :
    Ends (onTree (·.declare node.id x.id))
      { state with tree := state.tree.setDecl x.id decl' }
      (fun _ final => Progress start site node inside level (done ++ [x]) rest final ∧
        state.tree.Advances final.tree [node.id] [x.id] bound ∧
        final.tree.decls[x.id]? = some decl')
      (Refused start.tree (node.declared.map (·.decl.name)).Nodup) := by
  have keeps : ∀ found, state.tree.decls[x.id]? = some found → found = decl :=
    fun found hfound => (Option.some.inj (hdecl.symm.trans hfound)).symm
  have replaced : state.tree.Advances (state.tree.setDecl x.id decl') [] [x.id] bound := by
    refine Tree.Advances.modifyDecl state.tree x.id ?_ (hbound.imp ?_ ?_)
    · exact fun found hfound => keeps found hfound ▸ hsame
    · exact fun hkind found hfound => keeps found hfound ▸ hkind
    · exact fun hresolved => ⟨hresolved.1, fun _ _ => hresolved.2⟩
  have hname : decl'.erased.name = x.decl.erased.name := congrArg Decl.name (hsame.trans hx)
  change decl'.name = x.decl.name at hname
  have hdecl' := Tree.getElem?_decls_setDecl hdecl decl'
  have hstep := Tree.declare_eq hdecl' progress.block_eq
  cases hlookup : (tableOf done).lookup decl'.name with
  | some id =>
      refine ends_onTree_error (hstep.trans (if_pos ?_)) ⟨rfl, ?_, ?_⟩
      · exact Option.isSome_iff_exists.mpr ⟨id, hlookup⟩
      · exact replaced.erased_eq.trans progress.advances.erased_eq
      · exact progress.not_nodup_names (hname ▸ hlookup)
  | none =>
      have hfresh : ¬((tableOf done).lookup decl'.name).isSome := by
        rw [hlookup]
        exact Bool.false_ne_true
      refine ends_onTree (hstep.trans (if_neg hfresh)) ?_
      have inTable : (state.tree.setDecl x.id decl').Advances
          ((state.tree.setDecl x.id decl').modifyBlock node.id fun block =>
            { block with table := (decl'.name, x.id) :: block.table }) [node.id] [] [] :=
        Tree.Advances.modifyBlock _ _ fun _ _ => rfl
      have step :=
        (replaced.mono (List.nil_subset _) (List.Subset.refl _) (List.Subset.refl _)).trans
          (inTable.mono (List.Subset.refl _) (List.nil_subset _) (List.nil_subset _))
      exact ⟨progress.entered hname hlookup hsubset step, step, hdecl'⟩

/-- An enumeration literal gets its level and no storage. -/
theorem ends_enter (begins : Begins start site node inside)
    (progress : Progress start site node inside level done (x :: rest) state) (number : Nat) :
    Ends (enter node.id number x.id) state
      (fun _ final => Progress start site node inside level (done ++ [x]) rest final ∧
        state.tree.Advances final.tree [node.id] [x.id] [] ∧
        final.tree.LaidOut x.id number none)
      (Refused start.tree (node.declared.map (·.decl.name)).Nodup) := by
  obtain ⟨decl, hdecl, herased, hlevel, hlayout⟩ := progress.awaits begins
  refine ends_bind (ends_onTree (Tree.assignLevel_eq_ok hdecl hlevel number) ?_)
  have hsame : Decl.erased { decl with level? := some number } = decl.erased := rfl
  refine (progress.ends_declare hdecl hsame herased (.inl rfl) (List.nil_subset _)).mono ?_
  intro _ final h
  exact ⟨h.1, h.2.1, _, h.2.2, rfl, hlayout⟩

/-- The same for several enumeration literals. -/
theorem ends_enterAll (begins : Begins start site node inside) (literals : List Numbered)
    (progress : Progress start site node inside level done (literals ++ rest) state)
    (number : Nat) :
    Ends ((literals.map Numbered.id).forM (enter node.id number)) state
      (fun _ final => Progress start site node inside level (done ++ literals) rest final ∧
        state.tree.Advances final.tree [node.id] (literals.map Numbered.id) [] ∧
        ∀ x ∈ literals, final.tree.LaidOut x.id number none)
      (Refused start.tree (node.declared.map (·.decl.name)).Nodup) := by
  induction literals generalizing state done with
  | nil =>
      rw [List.append_nil]
      exact ends_pure ⟨progress, (Tree.Advances.refl _).mono (List.nil_subset _)
        (List.nil_subset _) (List.nil_subset _), fun _ h => absurd h List.not_mem_nil⟩
  | cons x literals ih =>
      refine ends_bind ((progress.ends_enter begins number).mono ?_)
      rintro _ middle ⟨hprogress, hfirst, hlaidOut⟩
      have hnodup := begins.ids_nodup
      rw [progress.split, List.map_append, List.cons_append, List.map_cons,
        List.map_append] at hnodup
      have hfresh : x.id ∉ literals.map Numbered.id := fun hmem =>
        (List.nodup_cons.mp (List.nodup_append'.mp hnodup).2.1).1 (List.mem_append_left _ hmem)
      refine (ih hprogress).mono ?_
      rintro _ final ⟨hdone, hothers, hlaidOuts⟩
      rw [List.append_assoc, List.singleton_append] at hdone
      refine ⟨hdone, ?_, ?_⟩
      · exact (hfirst.mono (List.Subset.refl _) (List.cons_subset.mpr
          ⟨List.mem_cons_self, List.nil_subset _⟩) (List.nil_subset _)).trans
          (hothers.mono (List.Subset.refl _) (List.subset_cons_self _ _) (List.nil_subset _))
      · exact List.forall_mem_cons.mpr ⟨hothers.laidOut_of_notMem hfresh hlaidOut, hlaidOuts⟩

end Progress

/-! ### Parameters -/

namespace Progress

variable {start state : Checking} {site : Site} {node : Node} {inside : List DeclId}
variable {level : ScopeLevel Int} {done rest : List Numbered}

/-- The parameters of a body get words above its frame pointer. -/
theorem ends_declareParams (begins : Begins start site node inside) (params : List Numbered)
    (progress : Progress start site node inside level done (params ++ rest) state)
    (hdone : ParamsChecked state.tree (site.entered node) done) :
    Ends (declareParams node.id (site.entered node).level (site.entered node).frameLevel
        done.length (params.map Numbered.id)) state
      (fun _ final => Progress start site node inside level (done ++ params) rest final ∧
        ParamsChecked final.tree (site.entered node) (done ++ params))
      (Refused start.tree (node.declared.map (·.decl.name)).Nodup) := by
  induction params generalizing state done with
  | nil =>
      rw [List.append_nil]
      exact ends_pure ⟨progress, hdone⟩
  | cons x params ih =>
      obtain ⟨decl, hdecl, herased, hlevel, hlayout⟩ := progress.awaits begins
      have hfresh : ∀ y ∈ done, y.id ∉ [x.id] := by
        intro y hy hmem
        have hnodup := begins.ids_nodup
        rw [progress.split, List.map_append] at hnodup
        rw [List.mem_singleton] at hmem
        have hleft : y.id ∈ done.map Numbered.id := List.mem_map_of_mem hy
        rw [hmem] at hleft
        exact (List.nodup_append'.mp hnodup).2.2 hleft List.mem_cons_self
      refine ends_bind (ends_onTree (Tree.assignLevel_eq_ok hdecl hlevel _) ?_)
      have hleveled := Tree.getElem?_decls_setDecl hdecl
        { decl with level? := some (site.entered node).level }
      refine ends_bind (ends_onTree (Tree.assignLayout_eq_ok hleveled hlayout _) ?_)
      rw [Tree.setDecl_setDecl]
      have hsame : Decl.erased { decl with
          level? := some (site.entered node).level
          layout? := some { frameLevel := (site.entered node).frameLevel,
                            offset := Frame.paramOffset done.length } } = decl.erased := rfl
      refine ends_bind ((progress.ends_declare hdecl hsame herased (.inl rfl)
        (List.nil_subset _)).mono ?_)
      rintro _ middle ⟨hprogress, hadvances, hfound⟩
      have hchecked := ParamsChecked.append_singleton (hadvances.paramsChecked hfresh hdone)
        ⟨_, hfound, rfl, rfl⟩
      have tail := ih hprogress hchecked
      rw [List.length_append, List.length_singleton, List.append_assoc,
        List.singleton_append] at tail
      exact tail

end Progress

/-! ### Entries -/

variable {start state : Checking} {site : Site} {node : Node} {inside : List DeclId}
variable {level : ScopeLevel Int} {done rest : List Numbered}

/-- Storage is handed out as the kind of the declaration wants it. -/
theorem ends_layoutOf (kind : DeclKind) {failed : Diagnostic → Checking → Prop} :
    Ends (layoutOf kind) state
      (fun layout? final => layout? = state.scope.current.layoutFor kind ∧
        final.tree = state.tree ∧
        final.scope = { state.scope with
          current := state.scope.current.allocated (if kind.takesWord then 1 else 0) })
      failed := by
  have unchanged : state.scope = { state.scope with
      current := state.scope.current.allocated 0 } := by
    rw [ScopeLevel.allocated_zero]
  cases kind with
  | variableOf content => exact ⟨rfl, rfl, rfl⟩
  | routine heading =>
      obtain ⟨result?, params, body⟩ := heading
      cases result? with
      | none => exact ⟨rfl, rfl, unchanged⟩
      | some result =>
          cases params with
          | nil => exact ⟨rfl, rfl, rfl⟩
          | cons => exact ⟨rfl, rfl, unchanged⟩
  | constant | type | parameter | enumLiteral => exact ⟨rfl, rfl, unchanged⟩

namespace Progress

/-- What is annotated in bodies inside the block does not matter to it. -/
theorem stepInside (progress : Progress start site node inside level done rest state)
    {final : Checking} {bound : List DeclId} {level' : ScopeLevel Int}
    (advances : state.tree.Advances final.tree [] [] bound) (hbound : bound ⊆ inside)
    (hscope : final.scope =
      { current := level', outer := start.scope.current :: start.scope.outer }) :
    Progress start site node inside level' done rest final where
  split := progress.split
  advances := progress.advances.trans (advances.mono (List.nil_subset _) (List.nil_subset _)
    (List.subset_append_of_subset_right _ hbound))
  scope_eq := hscope
  block_eq := (advances.block node.id List.not_mem_nil).trans progress.block_eq
  names_nodup := progress.names_nodup

/-- A declaration, annotated, and its enumeration literals enter the table. -/
theorem ends_enterEntry (begins : Begins start site node inside) {entry : DeclEntry}
    (hentry : entry ∈ node.entries)
    (progress : Progress start site node inside level done (entry.all ++ rest) state)
    {decl decl' : Decl} {number : Nat} (hdecl : state.tree.decls[entry.declared.id]? = some decl)
    (herased : decl.erased = entry.declared.decl.erased) (hsame : decl'.erased = decl.erased)
    (hlevel : decl'.level? = some number) (hresolved : decl'.kind.IsResolved) :
    Ends (do
        onTree (·.declare node.id entry.declared.id)
        (literalsOf decl'.kind).forM (enter node.id number))
      { state with tree := state.tree.setDecl entry.declared.id decl' }
      (fun _ final =>
        Progress start site node inside level (done ++ entry.all) rest final ∧
        state.tree.Advances final.tree [node.id] (entry.all.map Numbered.id)
          [entry.declared.id] ∧
        final.tree.LaidOut entry.declared.id number decl'.layout? ∧
        (∀ x ∈ entry.literals, final.tree.LaidOut x.id number none) ∧
        ∀ names, (∀ use ∈ decl'.kind.uses, state.tree.Bound names node.id use) →
          final.tree.KindBound names node.id entry.declared.id)
      (Refused start.tree (node.declared.map (·.decl.name)).Nodup) := by
  have hliterals : literalsOf decl'.kind = entry.literals.map Numbered.id := by
    have hkind : decl'.kind.erased = entry.declared.decl.kind.erased :=
      congrArg Decl.kind (hsame.trans herased)
    rw [← DeclKind.literalsOf_erased, hkind, DeclKind.literalsOf_erased]
    exact begins.wellFormed.literals_eq entry hentry
  refine ends_bind ((progress.ends_declare hdecl hsame herased
    (.inr ⟨List.mem_singleton_self _, hresolved⟩)
    (List.cons_subset.mpr ⟨List.mem_cons_self, List.nil_subset _⟩)).mono ?_)
  rintro _ middle ⟨hprogress, hfirst, hfound⟩
  rw [hliterals]
  refine (hprogress.ends_enterAll begins entry.literals number).mono ?_
  rintro _ final ⟨hdone, hothers, hlaidOuts⟩
  have hfresh : entry.declared.id ∉ entry.literals.map Numbered.id := by
    intro hmem
    have hnodup := begins.ids_nodup
    rw [progress.split, DeclEntry.all, List.cons_append, List.map_append, List.map_cons,
      List.map_append] at hnodup
    exact (List.nodup_cons.mp (List.nodup_append'.mp hnodup).2.1).1 (List.mem_append_left _ hmem)
  have advances : state.tree.Advances final.tree [node.id] (entry.all.map Numbered.id)
      [entry.declared.id] :=
    (hfirst.mono (List.Subset.refl _)
      (List.cons_subset.mpr ⟨List.mem_cons_self, List.nil_subset _⟩) (List.Subset.refl _)).trans
      (hothers.mono (List.Subset.refl _) (List.subset_cons_self _ _) (List.nil_subset _))
  refine ⟨?_, advances, ?_, hlaidOuts, ?_⟩
  · rw [List.append_assoc, List.singleton_append] at hdone
    exact hdone
  · exact hothers.laidOut_of_notMem hfresh ⟨decl', hfound, hlevel, rfl⟩
  · intro names huses
    refine hothers.kindBound_of_notMem List.not_mem_nil ⟨decl', hfound, fun use huse => ?_⟩
    exact (huses use huse).of_erased_eq hfirst.erased_eq

/-- A declaration whose names were bound, once it is annotated and entered, is checked. -/
theorem entryChecked_of_kindBoundBy {entry : DeclEntry} {kind result : DeclKind}
    {bound : Checking} {tree : Tree} {ids bodies : List DeclId}
    (h : KindBoundBy level.block state kind result bound)
    (hkind : kind.erased = entry.declared.decl.kind.erased)
    (advances : bound.tree.Advances tree [level.block] ids bodies)
    (hbound : tree.KindBound (state.tree.lookup level.block) level.block entry.declared.id)
    (hlaidOut : tree.LaidOut entry.declared.id level.level (level.layoutFor result))
    (hliterals : ∀ x ∈ entry.literals, tree.LaidOut x.id level.level none) :
    EntryChecked tree level (state.tree.lookup level.block) entry where
  bound := hbound
  params := by
    have hparams : kind.params = entry.declared.decl.kind.params := by
      rw [← DeclKind.params_erased, hkind, DeclKind.params_erased]
    exact fun param hparam => advances.resolved param (h.params param (hparams.symm ▸ hparam))
  bindable := by
    have herased := advances.erased_eq.trans h.advances.erased_eq
    exact h.bindable.of_erased_eq herased (Tree.map_erased_usesOf herased hkind.symm)
  laidOut := by
    have hlayout : level.layoutFor result = level.layoutFor entry.declared.decl.kind := by
      rw [← DeclKind.layoutFor_erased, h.erased_eq, hkind, DeclKind.layoutFor_erased]
    rw [← hlayout]
    exact hlaidOut
  literals := hliterals

/-- The kind, the level and the storage of a declaration are set down one after another. -/
theorem ends_annotate {α : Type} {id : DeclId} {found : Decl} {kind : DeclKind} {number : Nat}
    {layout? : Option Layout} (hfound : state.tree.decls[id]? = some found)
    (hlevel : found.level? = none) (hlayout : found.layout? = none) {next : Check α}
    {reached : α → Checking → Prop} {failed : Diagnostic → Checking → Prop}
    (tail : Ends next
      { state with
        tree := state.tree.setDecl id { found with kind, level? := some number, layout? } }
      reached failed) :
    Ends (do
        onTree fun tree => .ok (tree.modifyDecl id fun decl => { decl with kind })
        onTree (·.assignLevel id number)
        match layout? with
        | some layout => onTree (·.assignLayout id layout)
        | none => pure ()
        next)
      state reached failed := by
  refine ends_bind (ends_onTree rfl ?_)
  rw [Tree.modifyDecl_eq_setDecl hfound]
  have hfound' := Tree.getElem?_decls_setDecl hfound { found with kind }
  refine ends_bind (ends_onTree (Tree.assignLevel_eq_ok hfound' hlevel _) ?_)
  rw [Tree.setDecl_setDecl]
  have hleveled := Tree.getElem?_decls_setDecl hfound { found with kind, level? := some number }
  cases layout? with
  | none =>
      rw [← hlayout] at tail
      exact tail
  | some layout =>
      refine ends_bind (ends_onTree (Tree.assignLayout_eq_ok hleveled hlayout _) ?_)
      rw [Tree.setDecl_setDecl]
      exact tail

/-- The names in a declaration are bound where those before it are declared. -/
theorem ends_bindEntry (begins : Begins start site node inside) {entry : DeclEntry}
    (hentry : entry ∈ node.entries)
    (progress : Progress start site node inside level done rest state) {decl : Decl}
    (hkind : decl.kind.erased = entry.declared.decl.kind.erased) :
    Ends (bindKind node.id decl.kind) state (KindBoundBy node.id state decl.kind)
      (Refused start.tree ((node.declared.map (·.decl.name)).Nodup ∧
        start.tree.AllBindable (namesIn done site.names) node.id
          (start.tree.usesOf entry.declared.decl.kind))) := by
  have hstart := progress.advances.erased_eq
  have hparams : decl.kind.params = entry.declared.decl.kind.params := by
    rw [← DeclKind.params_erased, hkind, DeclKind.params_erased]
  have hnoParameter : ∀ ref, decl.kind ≠ .parameter ref := by
    intro ref heq
    rw [heq] at hkind
    have hnone := begins.wellFormed.entry_kind' entry hentry
    generalize entry.declared.decl.kind = kind at hkind hnone
    cases kind with
    | parameter => exact hnone _ rfl
    | _ => cases hkind
  have hnames := progress.lookup_eq begins
  have hparameters : ∀ id ∈ decl.kind.params, state.tree.IsParameter id := fun id hid =>
    (begins.params entry hentry id (hparams ▸ hid)).1.of_erased_eq hstart
  have hinRange : InRange state.tree (state.tree.lookup node.id) := by
    rw [hnames]
    exact progress.inRange begins
  apply (ends_bindKind (progress.descends begins) hinRange hparameters hnoParameter).refused hstart
  rintro ⟨-, bindable⟩
  rw [hnames]
  exact bindable.of_erased_eq hstart (Tree.map_erased_usesOf hstart hkind)

/-- A declaration is checked where those before it are declared. -/
theorem ends_declareEntry (begins : Begins start site node inside) {entry : DeclEntry}
    (hentry : entry ∈ node.entries)
    (progress : Progress start site node inside level done (entry.all ++ rest) state)
    (hblock : level.block = node.id) :
    Ends (declare node.id entry.declared.id) state
      (fun _ final =>
        Progress start site node inside
          (level.allocated (if entry.declared.decl.kind.takesWord then 1 else 0))
          (done ++ entry.all) rest final ∧
        state.tree.Advances final.tree [node.id] (entry.all.map Numbered.id)
          (entry.declared.id :: inside) ∧
        EntryChecked final.tree level (namesIn done site.names) entry)
      (Refused start.tree ((node.declared.map (·.decl.name)).Nodup ∧
        start.tree.AllBindable (namesIn done site.names) node.id
          (start.tree.usesOf entry.declared.decl.kind))) := by
  obtain ⟨decl, hdecl, herased, -, -⟩ := progress.awaits begins
  have hkind : decl.kind.erased = entry.declared.decl.kind.erased := congrArg Decl.kind herased
  refine ends_bind (ends_get (ends_bind (ends_ask (Tree.decl_eq_ok hdecl) (ends_bind ?_))))
  refine (progress.ends_bindEntry begins hentry hkind).mono ?_
  intro kind middle hbound
  refine ends_bind ((ends_layoutOf kind).mono ?_)
  rintro layout? later ⟨hlayout?, htree, hscope⟩
  rw [hbound.scope_eq, progress.scope_eq] at hlayout? hscope
  have htaken : kind.takesWord = entry.declared.decl.kind.takesWord := by
    rw [← DeclKind.takesWord_erased, hbound.erased_eq, hkind, DeclKind.takesWord_erased]
  have hnumber : state.scope.current.level = level.level := by rw [progress.scope_eq]
  have hinside : decl.kind.params ⊆ inside := by
    have hparams : decl.kind.params = entry.declared.decl.kind.params := by
      rw [← DeclKind.params_erased, hkind, DeclKind.params_erased]
    exact fun id hid => (begins.params entry hentry id (hparams ▸ hid)).2
  have advances : state.tree.Advances later.tree [] [] decl.kind.params := htree ▸ hbound.advances
  have progress' := progress.stepInside advances hinside hscope
  obtain ⟨found, hfound, herased', hnoLevel, hnoLayout⟩ := progress'.awaits begins
  have hsame : Decl.erased { found with kind, level? := some level.level, layout? } =
      found.erased := by
    have hkind' : kind.erased = found.kind.erased :=
      (hbound.erased_eq.trans hkind).trans (congrArg Decl.kind herased').symm
    simp only [Decl.erased, hkind']
  rw [hnumber]
  apply ends_annotate hfound hnoLevel hnoLayout
  apply ((progress'.ends_enterEntry begins hentry hfound herased' hsame rfl
    (isResolved_of_bound hbound.bound)).mono ?_).refused rfl And.left
  rintro _ final ⟨hprogress, hadvances, hlaidOut, hlaidOuts, huses⟩
  refine ⟨htaken ▸ hprogress, ?_, ?_⟩
  · exact (advances.mono (List.nil_subset _) (List.nil_subset _)
      (List.subset_cons_of_subset _ hinside)).trans
      (hadvances.mono (List.Subset.refl _) (List.Subset.refl _)
        (List.cons_subset.mpr ⟨List.mem_cons_self, List.nil_subset _⟩))
  · rw [htree, ← hblock] at hadvances
    rw [← progress.lookup_eq begins, ← hblock]
    rw [← hblock] at hbound huses
    rw [hlayout?] at hlaidOut
    refine entryChecked_of_kindBoundBy hbound hkind hadvances (huses _ fun use huse => ?_)
      hlaidOut hlaidOuts
    exact (hbound.bound use huse).of_erased_eq advances.erased_eq

/-- The declarations of a block are checked in order. -/
theorem ends_declareEntries (begins : Begins start site node inside)
    {before after : List DeclEntry} (hsplit : node.entries = before ++ after)
    (progress : Progress start site node inside
      ((site.entered node).allocated (wordsOf before).length)
      (node.params ++ before.flatMap DeclEntry.all) (after.flatMap DeclEntry.all) state)
    (hparams : ParamsChecked state.tree (site.entered node) node.params)
    (hentries : EntriesChecked state.tree (site.entered node) site.names node.params before) :
    Ends ((after.map (·.declared.id)).forM (declare node.id)) state
      (fun _ final =>
        Progress start site node inside ((site.entered node).allocated node.words.length)
          node.declared [] final ∧
        ParamsChecked final.tree (site.entered node) node.params ∧
        EntriesChecked final.tree (site.entered node) site.names node.params node.entries)
      (Refused start.tree ((node.declared.map (·.decl.name)).Nodup ∧
        EntriesLegal start.tree node.id site.names node.params node.entries)) := by
  induction after generalizing state before with
  | nil =>
      rw [List.append_nil] at hsplit
      subst hsplit
      exact ends_pure ⟨progress, hparams, hentries⟩
  | cons entry after ih =>
      have hentry : entry ∈ node.entries := by
        rw [hsplit]
        exact List.mem_append_right _ List.mem_cons_self
      rw [List.flatMap_cons] at progress
      refine ends_bind (((progress.ends_declareEntry begins hentry rfl).mono ?_).refused rfl
        fun demand => ⟨demand.1, demand.2 before entry after hsplit⟩)
      rintro _ middle ⟨hprogress, hadvances, hchecked⟩
      have hfresh : ∀ x ∈ node.params ++ before.flatMap DeclEntry.all,
          x.id ∉ entry.all.map Numbered.id := by
        intro x hx hmem
        have hnodup := begins.ids_nodup
        rw [progress.split, List.map_append] at hnodup
        refine (List.nodup_append'.mp hnodup).2.2 (List.mem_map_of_mem hx) ?_
        rw [List.map_append]
        exact List.mem_append_left _ hmem
      have hbound : ∀ earlier ∈ before, earlier.declared.id ∉ entry.declared.id :: inside := by
        intro earlier hearlier hmem
        have hmem' : earlier.declared ∈ node.params ++ before.flatMap DeclEntry.all :=
          List.mem_append_right _ (List.mem_flatMap.mpr ⟨earlier, hearlier, List.mem_cons_self⟩)
        rcases List.mem_cons.mp hmem with heq | hmem
        · exact hfresh _ hmem' (heq ▸ List.mem_cons_self)
        · refine begins.notMem_inside earlier.declared ?_ hmem
          rw [progress.split]
          exact List.mem_append_left _ hmem'
      refine @ih middle (before ++ [entry]) ?_ ?_ ?_ ?_
      · rw [hsplit, List.append_assoc, List.singleton_append]
      · rw [ScopeLevel.allocated_allocated, List.append_assoc] at hprogress
        rw [wordsOf_append_singleton, List.flatMap_append, List.flatMap_singleton]
        exact hprogress
      · exact hadvances.paramsChecked (fun x hx => hfresh x (List.mem_append_left _ hx)) hparams
      · refine EntriesChecked.append_singleton ?_ hchecked
        exact hadvances.entriesChecked (fun x hx => hfresh x (List.mem_append_right _ hx)) hbound
          hentries

end Progress

end Check

end MiniPascal
