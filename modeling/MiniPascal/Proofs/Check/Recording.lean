import MiniPascal.Proofs.Check.Recorded

/-!
# What a whole check records

Binding a name adds its line, and storing what was bound records the passage it stands in.  A
declaration records its own passage before those of its parameters, and a block those of its
declarations before those inside it and the one of its statements.  So a check that ends well
records the passages of a program in the order in which its references are met.
-/

namespace MiniPascal

namespace Check

variable {α β : Type}

/-! ### Steps that bind names -/

section Binding

variable {state start : Checking} {block : BlockId}

/-- The traversal of a piece of a program adds the lines on its uses, if all can be bound. -/
theorem ends_bind_notes {uses : α → List Use} {erased : α → α} {value : α}
    {traversal : (NameUse → NameRef → StateM Binding NameRef) → StateM Binding α}
    (hswitch : state.log.binding = true)
    (visited : Visited (Binding.visit state.tree block) uses erased value
      { log := state.log, failure? := none }
      ((traversal (Binding.visit state.tree block)).run { log := state.log, failure? := none })) :
    Ends (Check.bind block traversal) state
      (fun result final => final.tree = state.tree ∧ erased result.1 = erased value ∧
        (result.2 = none → Records (uses result.1) [] state final))
      anyFailure := by
  refine ⟨rfl, visited.erased_eq, fun hnone => ⟨rfl, ?_, fun _ _ => rfl⟩⟩
  obtain ⟨lines, hlog, hnotes⟩ := Binding.exists_notes_of_visited hswitch visited hnone
  exact ⟨lines, hlog, by rwa [List.flatMap_nil, List.append_nil]⟩

theorem ends_bindAll_notes {uses : α → List Use} {erased : α → α} {value : α}
    {traversal : (NameUse → NameRef → StateM Binding NameRef) → StateM Binding α}
    (hswitch : state.log.binding = true)
    (visited : Visited (Binding.visit state.tree block) uses erased value
      { log := state.log, failure? := none }
      ((traversal (Binding.visit state.tree block)).run { log := state.log, failure? := none })) :
    Ends (bindAll block traversal) state
      (fun result final => final.tree = state.tree ∧ erased result = erased value ∧
        Records (uses result) [] state final)
      anyFailure := by
  refine ends_bind ((ends_bind_notes hswitch visited).mono ?_)
  rintro ⟨result, failure?⟩ final ⟨htree, herased, hrecords⟩
  cases failure? with
  | none => exact ends_pure ⟨htree, herased, hrecords rfl⟩
  | some diagnostic => exact ends_throw trivial

/-- The passage of a declaration is recorded when its kind is stored. -/
theorem Records.storeKind {passages : List Passage} {before middle : Checking} {id : DeclId}
    {kind : DeclKind} {decl : Decl} (h : Records kind.uses passages before middle)
    (hid : .decl id ∉ passages) (hdecl : middle.tree.decls[id]? = some decl)
    (hkind : kind.erased = decl.kind.erased) :
    Records [] (.decl id :: passages) before
      { middle with tree := middle.tree.modifyDecl id fun decl => { decl with kind } } := by
  refine h.store hid ?_ rfl ?_ ?_
  · refine Tree.erased_modifyDecl fun found hfound => ?_
    obtain rfl := Option.some.inj (hdecl.symm.trans hfound)
    exact congrArg (Decl.bare decl.name decl.line) hkind
  · change Tree.usesAt _ id = kind.uses
    rw [Tree.usesAt, Tree.getElem?_decls_modifyDecl, if_pos rfl, hdecl]
    rfl
  · intro other hother
    cases other with
    | statements => rfl
    | decl other =>
        have hne : id ≠ other := fun heq => hother (congrArg Passage.decl heq.symm)
        change Tree.usesAt _ other = Tree.usesAt _ other
        rw [Tree.usesAt, Tree.usesAt, Tree.getElem?_decls_modifyDecl, if_neg hne]

/-- The type of a parameter is recorded. -/
theorem recorded_bindParam {param : DeclId} (hparam : state.tree.IsParameter param) :
    Recorded [.decl param] (bindParam block param) state := by
  intro hswitch
  obtain ⟨decl, ref, hdecl, hkind⟩ := hparam
  unfold bindParam
  refine ends_bind (ends_ask (Tree.decl_eq_ok hdecl) ?_)
  rw [hkind]
  have visited := visited_single state.tree block .typeName ref
    { log := state.log, failure? := none }
  refine ends_bind ((ends_bindAll_notes hswitch visited).mono ?_)
  rintro ref' middle ⟨htree, herased, hrecords⟩
  have huses : Records (DeclKind.parameter ref').uses [] state middle := hrecords
  refine ends_onTree rfl (huses.storeKind List.not_mem_nil (htree ▸ hdecl) ?_)
  rw [hkind]
  exact congrArg DeclKind.parameter herased

/-- The types of parameters are recorded. -/
theorem recorded_bindParams {params : List DeclId}
    (hparams : ∀ param ∈ params, state.tree.IsParameter param) (hnodup : params.Nodup) :
    Recorded (params.map .decl) (params.forM (bindParam block)) state := by
  have hsingle : params.map Passage.decl = params.flatMap fun param => [.decl param] :=
    List.map_eq_flatMap
  rw [hsingle]
  refine recorded_forM ?_ fun param hparam state' herased =>
    recorded_bindParam ((hparams param hparam).of_erased_eq herased)
  rw [← hsingle]
  exact hnodup.map fun _ _ => Passage.decl.inj

/-- The names in a declaration are bound, with the lines on its own uses before those on the
types of its parameters. -/
theorem ends_bindKind_notes {kind : DeclKind} (hswitch : state.log.binding = true)
    (hkind : ∀ ref, kind ≠ .parameter ref)
    (hparams : ∀ param ∈ kind.params, state.tree.IsParameter param) (hnodup : kind.params.Nodup) :
    Ends (bindKind block kind) state
      (fun result final => result.erased = kind.erased ∧
        Records result.uses (kind.params.map .decl) state final)
      anyFailure := by
  have keeps := Binding.keepsUses_visit state.tree block
  cases kind with
  | constant value =>
      refine ends_bind ((ends_bindAll_notes hswitch (value.visited_traverse keeps _)).mono ?_)
      rintro result final ⟨-, herased, hrecords⟩
      exact ends_pure ⟨congrArg DeclKind.constant herased, hrecords⟩
  | type content =>
      refine ends_bind ((ends_bindAll_notes hswitch (content.visited_traverse keeps _)).mono ?_)
      rintro result final ⟨-, herased, hrecords⟩
      exact ends_pure ⟨congrArg DeclKind.type herased, hrecords⟩
  | variableOf content =>
      refine ends_bind ((ends_bindAll_notes hswitch (content.visited_traverse keeps _)).mono ?_)
      rintro result final ⟨-, herased, hrecords⟩
      exact ends_pure ⟨congrArg DeclKind.variableOf herased, hrecords⟩
  | parameter ref => exact absurd rfl (hkind ref)
  | enumLiteral code => exact ends_pure ⟨rfl, .refl state⟩
  | routine heading =>
      obtain ⟨result?, params, body⟩ := heading
      cases result? with
      | none =>
          refine ends_bind (ends_pure (ends_bind ((recorded_bindParams hparams hnodup
            hswitch).mono ?_)))
          exact fun _ final hrecords => ends_pure ⟨rfl, hrecords⟩
      | some ref =>
          have visited := visited_single state.tree block .typeName ref
            { log := state.log, failure? := none }
          refine ends_bind (ends_map ((ends_bindAll_notes hswitch visited).mono ?_))
          rintro ref' middle ⟨htree, herased, hrecords⟩
          rw [← htree] at hparams
          have hrest : Recorded (params.map .decl) (params.forM (bindParam block)) middle :=
            recorded_bindParams hparams hnodup
          have hgoesOn := hrest (hrecords.binding_eq.trans hswitch)
          refine ends_bind (hgoesOn.mono fun _ final hfinal => ends_pure ⟨?_, ?_⟩)
          · exact congrArg (fun ref => DeclKind.routine { result := some ref, params, body })
              herased
          · exact hrecords.trans hfinal (List.disjoint_nil_left _)

end Binding

/-! ### Declarations, statements and blocks -/

end Check

namespace Tree

variable {tree other : Tree}

theorem getElem?_decls_of_decl {id : DeclId} {decl : Decl} (h : tree.decl id = .ok decl) :
    tree.decls[id]? = some decl := by
  unfold Tree.decl at h
  split at h
  · next hdecl => rw [hdecl, Except.ok.inj h]
  · cases h

theorem getElem?_blocks_of_block {id : BlockId} {block : Block} (h : tree.block id = .ok block) :
    tree.blocks[id]? = some block := by
  unfold Tree.block at h
  split at h
  · next hblock => rw [hblock, Except.ok.inj h]
  · cases h

/-- The declarations of blocks are not those of parameters, and the parameters of routines
are. -/
def ParametersApart (tree : Tree) : Prop :=
  ∀ block, ∀ id ∈ tree.declarationsOf block, ¬tree.IsParameter id ∧
    ∀ param ∈ tree.parametersOf id, tree.IsParameter param

theorem ParametersApart.of_erased_eq (h : other.erased = tree.erased)
    (apart : tree.ParametersApart) : other.ParametersApart := by
  intro block id hid
  rw [← declarationsOf_erased, h, declarationsOf_erased] at hid
  obtain ⟨hown, hparams⟩ := apart block id hid
  refine ⟨fun hparam => hown (hparam.of_erased_eq h.symm), fun param hparam => ?_⟩
  rw [← parametersOf_erased, h, parametersOf_erased] at hparam
  exact (hparams param hparam).of_erased_eq h

end Tree

namespace Check

variable {start : Checking} {id : DeclId} {block : BlockId}

/-- The uses in a declaration are recorded, and then those in its parameters. -/
theorem recorded_declare (hid : ¬start.tree.IsParameter id)
    (hparams : ∀ param ∈ start.tree.parametersOf id, start.tree.IsParameter param)
    (hnodup : (start.tree.passagesOf id).Nodup) :
    Recorded (start.tree.passagesOf id) (declare block id) start := by
  intro hswitch
  refine ends_bind (ends_get (ends_bind (ends_ask_cases fun decl hask => ?_)))
  have hdecl := Tree.getElem?_decls_of_decl hask
  have hown : start.tree.parametersOf id = decl.kind.params := by
    rw [Tree.parametersOf, Tree.kind?_eq hdecl]
    rfl
  have hkind : ∀ ref, decl.kind ≠ .parameter ref := fun ref heq => hid ⟨decl, ref, hdecl, heq⟩
  rw [Tree.passagesOf, hown] at hnodup ⊢
  rw [hown] at hparams
  obtain ⟨hfresh, hrest⟩ := List.nodup_cons.mp hnodup
  refine ends_bind ((ends_bindKind_notes hswitch hkind hparams hrest.of_map).mono ?_)
  rintro kind bound ⟨herased, hbound⟩
  refine ends_bind (((silent_layoutOf kind).after hbound).mono fun layout? laid hlaid => ?_)
  have hlaidDecl := Tree.decl_of_erased_eq hlaid.erased_eq id
  rw [hdecl, Option.map_some] at hlaidDecl
  obtain ⟨found, hfound, hsame⟩ := Option.map_eq_some_iff.mp hlaidDecl
  have hkinds : found.kind.erased = decl.kind.erased := congrArg Decl.kind hsame
  have hstored := hlaid.storeKind hfresh hfound (herased.trans hkinds.symm)
  have hlast : ∀ level, Silent (do
      onTree (·.declare block id)
      (literalsOf kind).forM (enter block level)) := fun level =>
    silent_bind (silent_enterTable block id) fun _ => silent_forM _ (silent_enter block level)
  refine ends_bind (ends_onTree rfl ?_)
  refine Silent.after (silent_bind (silent_assignLevel id _) fun _ => ?_) hstored
  cases layout? with
  | none => exact hlast _
  | some layout => exact silent_bind (silent_assignLayout id layout) fun _ => hlast _

/-- The uses in the statements of a block are recorded. -/
theorem recorded_statements : Recorded [.statements block] (statements block) start := by
  intro hswitch
  refine ends_bind (ends_ask_cases fun found hask => ?_)
  have hblock := Tree.getElem?_blocks_of_block hask
  have visited := Statement.visited_traverseAll (Binding.keepsUses_visit start.tree block)
    found.statements { log := start.log, failure? := none }
  refine ends_bind ((ends_bind_notes hswitch visited).mono ?_)
  rintro ⟨statements, failure?⟩ middle ⟨htree, herased, hrecords⟩
  refine ends_bind (ends_onTree rfl ?_)
  cases failure? with
  | some diagnostic => exact ends_throw trivial
  | none =>
      refine ends_pure ((hrecords rfl).store List.not_mem_nil ?_ rfl ?_ ?_)
      · refine Tree.erased_modifyBlock fun other hother => ?_
        rw [htree] at hother
        obtain rfl := Option.some.inj (hblock.symm.trans hother)
        simp only [Block.erased]
        rw [herased]
      · change Statement.usesAll (Tree.statementsOf _ block) = Statement.usesAll statements
        rw [Tree.statementsOf, Tree.getElem?_blocks_modifyBlock, if_pos rfl, htree, hblock]
        rfl
      · intro other hother
        cases other with
        | decl => rfl
        | statements other =>
            have hne : block ≠ other := fun heq => hother (congrArg Passage.statements heq.symm)
            change Statement.usesAll (Tree.statementsOf _ other) =
              Statement.usesAll (Tree.statementsOf _ other)
            rw [Tree.statementsOf, Tree.statementsOf, Tree.getElem?_blocks_modifyBlock, if_neg hne]

/-- The uses in the declarations of a block are recorded when it is opened. -/
theorem recorded_opening (apart : start.tree.ParametersApart) (owner : String)
    (params : List DeclId) (ownsFrame : Bool)
    (hnodup : ((start.tree.declarationsOf block).flatMap start.tree.passagesOf).Nodup) :
    Recorded ((start.tree.declarationsOf block).flatMap start.tree.passagesOf)
      (opening block owner params ownsFrame) start := by
  refine (silent_enterBlock block owner ownsFrame).bind_recorded fun current entered hentered => ?_
  refine (silent_declareParams block current.level current.frameLevel 0 params).bind_recorded
    fun _ middle hmiddle => recorded_ask fun found hask => ?_
  have herased := hmiddle.trans hentered
  have hfound : found.declarations = start.tree.declarationsOf block := by
    rw [← Tree.declarationsOf_eq (Tree.getElem?_blocks_of_block hask),
      ← Tree.declarationsOf_erased, herased, Tree.declarationsOf_erased]
  rw [hfound]
  refine recorded_forM hnodup fun id hid state hstate => ?_
  have hsame := hstate.trans herased
  have hpassages : state.tree.passagesOf = start.tree.passagesOf := by
    rw [← Tree.passagesOf_erased, hsame, Tree.passagesOf_erased]
  obtain ⟨hown, hparams⟩ := apart.of_erased_eq hsame block id (by
    rwa [← Tree.declarationsOf_erased, hsame, Tree.declarationsOf_erased])
  rw [← hpassages]
  refine recorded_declare hown hparams ?_
  rw [hpassages]
  exact (List.nodup_flatMap.mp hnodup).1 id hid

/-- The uses in a block, and in the blocks inside it, are recorded. -/
theorem recorded_block (depth : Nat) (id : BlockId) (owner : String) (params : List DeclId)
    (ownsFrame : Bool) (apart : start.tree.ParametersApart)
    (hnodup : (start.tree.passagesWithin depth id).Nodup) :
    Recorded (start.tree.passagesWithin depth id) (Check.block depth id owner params ownsFrame)
      start := by
  induction depth generalizing id owner params ownsFrame start with
  | zero => exact (silent_throw _).recorded start
  | succ depth ih =>
      rw [Tree.passagesWithin] at hnodup ⊢
      obtain ⟨hinside, -, hlast⟩ := List.nodup_append'.mp hnodup
      obtain ⟨hdeclarations, hbodies, hapart⟩ := List.nodup_append'.mp hinside
      rw [List.disjoint_append_left] at hlast
      rw [block_succ, List.append_assoc]
      refine recorded_bind (recorded_opening apart owner params ownsFrame hdeclarations)
        (List.disjoint_append_right.mpr ⟨hapart, hlast.1⟩) fun _ opened hopened => ?_
      refine recorded_ask fun found hask => ?_
      have hfound : found.routines = start.tree.routinesOf id := by
        rw [← Tree.routinesOf_erased, ← hopened.erased_eq, Tree.routinesOf_erased,
          Tree.routinesOf, Tree.getElem?_blocks_of_block hask]
        rfl
      rw [hfound]
      refine recorded_bind (recorded_forM hbodies fun routine hroutine state hstate => ?_) hlast.2
        fun _ _ _ => recorded_statements.bind_silent fun _ => silent_leaveBlock id ownsFrame
      have hsame := hstate.trans hopened.erased_eq
      refine recorded_ask fun decl hdecl => ?_
      have hbody : start.tree.bodyOf? routine = decl.kind.routine?.bind Routine.body := by
        rw [← Tree.bodyOf?_erased, ← hsame, Tree.bodyOf?_erased, Tree.bodyOf?,
          Tree.getElem?_decls_of_decl hdecl]
        rfl
      have hpassages := (List.nodup_flatMap.mp hbodies).1 routine hroutine
      rw [hbody] at hpassages ⊢
      rw [← Tree.passagesWithin_of_erased_eq hsame] at hpassages ⊢
      split
      · next inner heading =>
          rw [heading, Option.bind_some] at hpassages ⊢
          rw [Option.toList_some, List.flatMap_singleton] at hpassages ⊢
          exact ih inner decl.name _ _ (apart.of_erased_eq hsame) hpassages
      · next hnone =>
          have hempty : decl.kind.routine?.bind Routine.body = none := by
            cases hroutine : decl.kind.routine? with
            | none => rfl
            | some heading =>
                obtain ⟨result, params, body?⟩ := heading
                cases body? with
                | none => rfl
                | some body => exact absurd hroutine (hnone result params body)
          rw [hempty]
          exact (silent_pure _).recorded state

end Check

end MiniPascal
