import MiniPascal.Proofs.Check.Site

/-!
# What checking leaves alone

Checking a part of a program annotates the blocks and declarations of that part
and no others.  Whatever was checked before stays checked, and what is to be
checked afterwards is still as it was numbered.
-/

namespace MiniPascal

/-- A tree was annotated further: only in the given blocks, and only with levels
and storage of the first declarations and with bindings in the second ones.  No
binding is taken off. -/
structure Tree.Advances (before after : Tree) (blocks : List BlockId)
    (laidOut bound : List DeclId) : Prop where
  erased_eq : after.erased = before.erased
  block : ∀ id ∉ blocks, after.blocks[id]? = before.blocks[id]?
  storage : ∀ id ∉ laidOut, after.decls[id]?.map (fun decl => (decl.level?, decl.layout?)) =
    before.decls[id]?.map fun decl => (decl.level?, decl.layout?)
  kind : ∀ id ∉ bound, after.decls[id]?.map Decl.kind = before.decls[id]?.map Decl.kind
  resolved : ∀ id, before.ResolvedAt id → after.ResolvedAt id

/-- A declaration is known by what erasing keeps of it and by what it takes off. -/
theorem Decl.eq_of_erased_eq {decl decl' : Decl} (herased : decl.erased = decl'.erased)
    (hkind : decl.kind = decl'.kind) (hlevel : decl.level? = decl'.level?)
    (hlayout : decl.layout? = decl'.layout?) : decl = decl' := by
  obtain ⟨name, line, kind, level?, layout?⟩ := decl
  obtain ⟨name', line', kind', level?', layout?'⟩ := decl'
  obtain ⟨rfl, rfl, -⟩ := Decl.mk.inj herased
  cases hkind
  cases hlevel
  cases hlayout
  rfl

namespace Tree.Advances

variable {before middle after : Tree} {blocks blocks' : List BlockId}
variable {laidOut laidOut' bound bound' : List DeclId}

theorem refl (tree : Tree) : tree.Advances tree [] [] [] where
  erased_eq := rfl
  block _ _ := rfl
  storage _ _ := rfl
  kind _ _ := rfl
  resolved _ h := h

theorem trans (first : before.Advances middle blocks laidOut bound)
    (second : middle.Advances after blocks laidOut bound) :
    before.Advances after blocks laidOut bound where
  erased_eq := second.erased_eq.trans first.erased_eq
  block id hid := (second.block id hid).trans (first.block id hid)
  storage id hid := (second.storage id hid).trans (first.storage id hid)
  kind id hid := (second.kind id hid).trans (first.kind id hid)
  resolved id h := second.resolved id (first.resolved id h)

theorem mono (advances : before.Advances after blocks laidOut bound) (hblocks : blocks ⊆ blocks')
    (hlaidOut : laidOut ⊆ laidOut') (hbound : bound ⊆ bound') :
    before.Advances after blocks' laidOut' bound' where
  erased_eq := advances.erased_eq
  block id hid := advances.block id fun h => hid (hblocks h)
  storage id hid := advances.storage id fun h => hid (hlaidOut h)
  kind id hid := advances.kind id fun h => hid (hbound h)
  resolved := advances.resolved

/-- A block was annotated. -/
theorem modifyBlock (tree : Tree) (id : BlockId) {change : Block → Block}
    (keeps : ∀ block, tree.blocks[id]? = some block → (change block).erased = block.erased) :
    tree.Advances (tree.modifyBlock id change) [id] [] [] where
  erased_eq := erased_modifyBlock keeps
  block other hother := by
    rw [getElem?_blocks_modifyBlock, if_neg fun h => hother (List.mem_singleton.mpr h.symm)]
  storage _ _ := rfl
  kind _ _ := rfl
  resolved _ h := h

private theorem resolvedAt_modifyDecl {tree : Tree} {id other : DeclId} {change : Decl → Decl}
    (keeps : ∀ decl, tree.decls[id]? = some decl → decl.kind.IsResolved →
      (change decl).kind.IsResolved) (h : tree.ResolvedAt other) :
    (tree.modifyDecl id change).ResolvedAt other := by
  obtain ⟨decl, hdecl, hresolved⟩ := h
  have hafter := getElem?_decls_modifyDecl tree id other change
  by_cases hid : id = other
  · subst hid
    rw [if_pos rfl, hdecl, Option.map_some] at hafter
    exact ⟨_, hafter, keeps decl hdecl hresolved⟩
  · rw [if_neg hid, hdecl] at hafter
    exact ⟨decl, hafter, hresolved⟩

/-- A declaration was annotated: with level and storage, and with bindings if
its kind changed. -/
theorem modifyDecl (tree : Tree) (id : DeclId) {change : Decl → Decl}
    (keeps : ∀ decl, tree.decls[id]? = some decl → (change decl).erased = decl.erased)
    (hbound : (∀ decl, tree.decls[id]? = some decl → (change decl).kind = decl.kind) ∨
      id ∈ bound ∧ ∀ decl, tree.decls[id]? = some decl → (change decl).kind.IsResolved) :
    tree.Advances (tree.modifyDecl id change) [] [id] bound where
  erased_eq := erased_modifyDecl keeps
  block _ _ := rfl
  storage other hother := by
    rw [getElem?_decls_modifyDecl, if_neg fun h => hother (List.mem_singleton.mpr h.symm)]
  kind other hother := by
    rw [getElem?_decls_modifyDecl]
    by_cases hid : id = other
    · subst hid
      rw [if_pos rfl]
      rcases hbound with hkind | hmem
      · cases hdecl : tree.decls[id]? with
        | none => rfl
        | some decl => exact congrArg some (hkind decl hdecl)
      · exact absurd hmem.1 hother
    · rw [if_neg hid]
  resolved _ := resolvedAt_modifyDecl fun decl hdecl hresolved => by
    rcases hbound with hkind | hbound
    · rw [hkind decl hdecl]
      exact hresolved
    · exact hbound.2 decl hdecl

/-- Names were bound in a declaration, whose level and storage stayed. -/
theorem modifyKind (tree : Tree) (id : DeclId) {change : Decl → Decl}
    (keeps : ∀ decl, tree.decls[id]? = some decl → (change decl).erased = decl.erased)
    (stays : ∀ decl, (change decl).level? = decl.level? ∧ (change decl).layout? = decl.layout?)
    (resolves : ∀ decl, tree.decls[id]? = some decl → (change decl).kind.IsResolved) :
    tree.Advances (tree.modifyDecl id change) [] [] [id] where
  erased_eq := erased_modifyDecl keeps
  block _ _ := rfl
  storage other _ := by
    rw [getElem?_decls_modifyDecl]
    by_cases hid : id = other
    · rw [if_pos hid, Option.map_map]
      congr 1
      funext decl
      exact Prod.ext (stays decl).1 (stays decl).2
    · rw [if_neg hid]
  kind other hother := by
    rw [getElem?_decls_modifyDecl, if_neg fun h => hother (List.mem_singleton.mpr h.symm)]
  resolved _ := resolvedAt_modifyDecl fun decl hdecl _ => resolves decl hdecl

/-- Marking a tree as checked annotates nothing else. -/
theorem mark (tree : Tree) : tree.Advances { tree with checked := true } [] [] [] where
  erased_eq := rfl
  block _ _ := rfl
  storage _ _ := rfl
  kind _ _ := rfl
  resolved _ h := h

/-- A declaration that nothing was written into is unchanged. -/
theorem decl_eq (advances : before.Advances after blocks laidOut bound) {id : DeclId}
    (hlaidOut : id ∉ laidOut) (hbound : id ∉ bound) : after.decls[id]? = before.decls[id]? := by
  have herased := decl_of_erased_eq advances.erased_eq id
  have hstorage := advances.storage id hlaidOut
  have hkind := advances.kind id hbound
  cases hafter : after.decls[id]? with
  | none =>
      rw [hafter] at hkind
      exact (Option.map_eq_none_iff.mp hkind.symm).symm
  | some decl =>
      rw [hafter, Option.map_some] at herased hstorage hkind
      obtain ⟨decl', hbefore, hkind⟩ := Option.map_eq_some_iff.mp hkind.symm
      rw [hbefore, Option.map_some] at herased hstorage
      obtain ⟨hlevel, hlayout⟩ := Prod.mk.inj (Option.some.inj hstorage)
      rw [hbefore, Decl.eq_of_erased_eq (Option.some.inj herased) hkind.symm hlevel hlayout]

/-- What names stand for in a block does not depend on blocks numbered after it. -/
theorem lookup_eq (advances : before.Advances after blocks laidOut bound)
    (descends : before.Descends) {id : BlockId} (hblocks : ∀ block ∈ blocks, id < block) :
    after.lookup id = before.lookup id := by
  refine lookup_congr descends advances.erased_eq fun outer houter => ?_
  have hnot : outer ∉ blocks := fun hmem =>
    absurd (hblocks outer hmem) (Nat.not_lt.mpr houter)
  rw [tableAt, tableAt, advances.block outer hnot]

/-- What names stand for around a block does not depend on the block itself either. -/
theorem lookupAround_eq (advances : before.Advances after blocks laidOut bound)
    (descends : before.Descends) {id : BlockId} (hblocks : ∀ block ∈ blocks, id ≤ block) :
    after.lookupAround id = before.lookupAround id := by
  funext name
  rw [lookupAround, lookupAround, enclosing?_of_erased_eq advances.erased_eq]
  cases houter : before.enclosing? id with
  | none => rfl
  | some outer =>
      have hlt := descends id outer houter
      rw [Option.bind_some, Option.bind_some, advances.lookup_eq descends fun block hblock =>
        Nat.lt_of_lt_of_le hlt (hblocks block hblock)]

/-! ### What stays checked -/

theorem laidOut_of_notMem (advances : before.Advances after blocks laidOut bound) {id : DeclId}
    (hid : id ∉ laidOut) {level : Nat} {layout? : Option Layout}
    (h : before.LaidOut id level layout?) : after.LaidOut id level layout? := by
  obtain ⟨decl, hdecl, hlevel, hlayout⟩ := h
  have hsame := advances.storage id hid
  rw [hdecl, Option.map_some] at hsame
  obtain ⟨decl', hdecl', heq⟩ := Option.map_eq_some_iff.mp hsame
  obtain ⟨hlevel', hlayout'⟩ := Prod.mk.inj heq
  exact ⟨decl', hdecl', hlevel'.trans hlevel, hlayout'.trans hlayout⟩

theorem kindBound_of_notMem (advances : before.Advances after blocks laidOut bound) {id : DeclId}
    (hid : id ∉ bound) {names : String → Option DeclId} {block : BlockId}
    (h : before.KindBound names block id) : after.KindBound names block id := by
  obtain ⟨decl, hdecl, huses⟩ := h
  have hsame := advances.kind id hid
  rw [hdecl, Option.map_some] at hsame
  obtain ⟨decl', hdecl', heq⟩ := Option.map_eq_some_iff.mp hsame
  refine ⟨decl', hdecl', fun use huse => ?_⟩
  rw [heq] at huse
  exact (huses use huse).of_erased_eq advances.erased_eq

theorem entryChecked (advances : before.Advances after blocks laidOut bound)
    {level : ScopeLevel Int} {names : String → Option DeclId} {entry : DeclEntry}
    (hlaidOut : ∀ x ∈ entry.all, x.id ∉ laidOut) (hbound : entry.declared.id ∉ bound)
    (h : EntryChecked before level names entry) : EntryChecked after level names entry where
  bound := advances.kindBound_of_notMem hbound h.bound
  params param hparam := advances.resolved param (h.params param hparam)
  bindable := h.bindable.of_erased_eq advances.erased_eq
    (Tree.map_erased_usesOf advances.erased_eq rfl)
  laidOut := advances.laidOut_of_notMem (hlaidOut _ List.mem_cons_self) h.laidOut
  literals x hx :=
    advances.laidOut_of_notMem (hlaidOut x (List.mem_cons_of_mem _ hx)) (h.literals x hx)

theorem entriesChecked (advances : before.Advances after blocks laidOut bound)
    {level : ScopeLevel Int} {around : String → Option DeclId} {params : List Numbered}
    {entries : List DeclEntry} (hlaidOut : ∀ x ∈ entries.flatMap DeclEntry.all, x.id ∉ laidOut)
    (hbound : ∀ entry ∈ entries, entry.declared.id ∉ bound)
    (h : EntriesChecked before level around params entries) :
    EntriesChecked after level around params entries := by
  intro first entry rest heq
  have hmem : entry ∈ entries := by
    rw [heq]
    exact List.mem_append_right _ List.mem_cons_self
  exact advances.entryChecked
    (fun x hx => hlaidOut x (List.mem_flatMap.mpr ⟨entry, hmem, hx⟩)) (hbound entry hmem)
    (h first entry rest heq)

theorem paramsChecked (advances : before.Advances after blocks laidOut bound)
    {level : ScopeLevel Int} {params : List Numbered} (hlaidOut : ∀ x ∈ params, x.id ∉ laidOut)
    (h : ParamsChecked before level params) : ParamsChecked after level params := by
  intro index x hx
  exact advances.laidOut_of_notMem (hlaidOut x (List.mem_of_getElem? hx)) (h index x hx)

theorem nodeChecked (advances : before.Advances after blocks laidOut bound) {site : Site}
    {node : Node} {frameWords : Nat} (hblock : node.id ∉ blocks)
    (hlaidOut : ∀ x ∈ node.declared, x.id ∉ laidOut) (hbound : ∀ x ∈ node.declared, x.id ∉ bound)
    (h : NodeChecked before site node frameWords) :
    NodeChecked after site node frameWords where
  block := by
    obtain ⟨statements, hfound, herased, huses⟩ := h.block
    refine ⟨statements, (advances.block node.id hblock).trans hfound, herased, ?_⟩
    exact fun use huse => (huses use huse).of_erased_eq advances.erased_eq
  frameLevel_le := h.frameLevel_le
  names_nodup := h.names_nodup
  params := advances.paramsChecked (fun x hx => hlaidOut x (List.mem_append_left _ hx)) h.params
  entries := by
    refine advances.entriesChecked (fun x hx => hlaidOut x (List.mem_append_right _ hx)) ?_
      h.entries
    intro entry hentry
    exact hbound entry.declared (List.mem_append_right _
      (List.mem_flatMap.mpr ⟨entry, hentry, List.mem_cons_self⟩))

mutual

theorem checked (advances : before.Advances after blocks laidOut bound) (site : Site)
    (skeleton : Skeleton) (hblocks : ∀ id ∈ skeleton.blockIds, id ∉ blocks)
    (hlaidOut : ∀ id ∈ skeleton.declIds, id ∉ laidOut)
    (hbound : ∀ id ∈ skeleton.declIds, id ∉ bound)
    (h : skeleton.Checked before site) : skeleton.Checked after site := by
  cases skeleton with
  | mk root inner =>
      have hroot : ∀ x ∈ root.declared, x.id ∈ (Skeleton.mk root inner).declIds := fun x hx => by
        rw [Skeleton.declIds_eq]
        exact List.mem_append_left _ (List.mem_map_of_mem hx)
      refine ⟨advances.nodeChecked (hblocks root.id List.mem_cons_self)
        (fun x hx => hlaidOut x.id (hroot x hx)) (fun x hx => hbound x.id (hroot x hx)) h.1, ?_⟩
      refine advances.checkedAll _ inner ?_ ?_ ?_ h.2
      · intro id hid
        exact hblocks id (by rw [Skeleton.blockIds_eq]; exact List.mem_cons_of_mem _ hid)
      · intro id hid
        exact hlaidOut id (by rw [Skeleton.declIds_eq]; exact List.mem_append_right _ hid)
      · intro id hid
        exact hbound id (by rw [Skeleton.declIds_eq]; exact List.mem_append_right _ hid)

theorem checkedAll (advances : before.Advances after blocks laidOut bound) (site : Site)
    (skeletons : List Skeleton) (hblocks : ∀ id ∈ skeletons.flatMap Skeleton.blockIds, id ∉ blocks)
    (hlaidOut : ∀ id ∈ skeletons.flatMap Skeleton.declIds, id ∉ laidOut)
    (hbound : ∀ id ∈ skeletons.flatMap Skeleton.declIds, id ∉ bound)
    (h : Skeleton.CheckedAll before site skeletons) :
    Skeleton.CheckedAll after site skeletons := by
  cases skeletons with
  | nil => trivial
  | cons first others =>
      rw [List.flatMap_cons] at hblocks hlaidOut hbound
      obtain ⟨hblocksFirst, hblocksOthers⟩ := List.forall_mem_append.mp hblocks
      obtain ⟨hlaidOutFirst, hlaidOutOthers⟩ := List.forall_mem_append.mp hlaidOut
      obtain ⟨hboundFirst, hboundOthers⟩ := List.forall_mem_append.mp hbound
      exact ⟨advances.checked _ first hblocksFirst hlaidOutFirst hboundFirst h.1,
        advances.checkedAll _ others hblocksOthers hlaidOutOthers hboundOthers h.2⟩

end

end Tree.Advances

end MiniPascal
