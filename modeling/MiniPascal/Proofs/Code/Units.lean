import MiniPascal.Proofs.Check.Nesting
import MiniPascal.Proofs.Code.Generated
import MiniPascal.Proofs.Code.Labels

/-!
# Labels of units

The label of a routine is drawn with those of its block and shown where its code
begins, which is once, since every routine is declared once.  So the code of a program
shows the names of its entry and the labels that were drawn for it, each once; the
labels of routines come in the order of the routines from the inside out.
-/

namespace MiniPascal.Code

open MiniPascal.Assembly
open Emit

/-! ### Units -/

/-- The code of one unit begins at the unit's label, shows no label of another one, and
ends by returning. -/
structure IsUnit (label : Label) (code : List Line) : Prop where
  begins : code.head?.bind Line.label? = some label
  inside : ∀ other ∈ shown code.tail, other.isLocal = true
  ends : ∃ front comment, code = front ++ [.instruction none .ret comment]

theorem IsUnit.filter_eq {label : Label} {code : List Line} (h : IsUnit label code)
    (hunit : label.isLocal = false) : (shown code).filter (!·.isLocal) = [label] := by
  cases code with
  | nil => cases h.begins
  | cons line lines =>
      have hlabel : line.label? = some label := h.begins
      have hnone : (shown lines).filter (!·.isLocal) = [] := by
        apply List.filter_eq_nil_iff.mpr
        intro other hother
        simp [h.inside other hother]
      rw [shown_cons, hlabel, Option.toList, List.singleton_append, List.filter_cons, hunit, hnone]
      rfl

/-- Code of units, one after another, written while the label counter went up. -/
structure UnitsCode (known units drawn : List Label) (counter : Nat) (lines : List Line)
    (final : Nat) : Prop where
  segments : ∃ codes, lines = codes.flatten ∧ List.Forall₂ IsUnit units codes
  areUnits : ∀ label ∈ units, label.isLocal = false
  drawn_units : Drawn (drawn ++ (shown lines).filter (·.isLocal)) counter final
  aimed_perm : (aimed lines).Perm ((shown lines).filter (·.isLocal))
  called_known : ∀ label ∈ called lines, label ∈ known ∨ label ∈ runtimeFunctions

namespace UnitsCode

variable {known known' units units' drawn drawn' : List Label} {counter middle final : Nat}
variable {lines lines' : List Line}

/-- Code of a single unit. -/
theorem isUnit {label : Label} (h : UnitsCode known [label] drawn counter lines final) :
    IsUnit label lines := by
  obtain ⟨codes, rfl, hunits⟩ := h.segments
  cases hunits with
  | cons first rest =>
      cases rest
      rw [List.flatten_singleton]
      exact first

/-- The labels of units come in their order. -/
theorem units_eq (h : UnitsCode known units drawn counter lines final) :
    (shown lines).filter (!·.isLocal) = units := by
  obtain ⟨codes, rfl, hunits⟩ := h.segments
  have hareUnits := h.areUnits
  clear h
  induction hunits with
  | nil => rfl
  | cons first _ ih =>
      obtain ⟨hfirst, hothers⟩ := List.forall_mem_cons.mp hareUnits
      rw [List.flatten_cons, shown_append, List.filter_append, first.filter_eq hfirst, ih hothers,
        List.singleton_append]

theorem mono (h : UnitsCode known units drawn counter lines final) (hknown : known ⊆ known') :
    UnitsCode known' units drawn counter lines final :=
  { h with called_known := fun label hlabel =>
      (h.called_known label hlabel).imp (fun hmem => hknown hmem) id }

theorem append (first : UnitsCode known units drawn counter lines middle)
    (second : UnitsCode known units' drawn' middle lines' final) :
    UnitsCode known (units ++ units') (drawn ++ drawn') counter (lines ++ lines') final where
  segments := by
    obtain ⟨codes, rfl, hfirst⟩ := first.segments
    obtain ⟨codes', rfl, hsecond⟩ := second.segments
    exact ⟨codes ++ codes', List.flatten_append.symm, List.rel_append hfirst hsecond⟩
  areUnits := List.forall_mem_append.mpr ⟨first.areUnits, second.areUnits⟩
  drawn_units := by
    apply (first.drawn_units.append second.drawn_units).perm
    rw [shown_append, List.filter_append, List.append_assoc, List.append_assoc]
    apply List.Perm.append_left
    rw [← List.append_assoc, ← List.append_assoc]
    exact List.perm_append_comm.append_right _
  aimed_perm := by
    rw [shown_append, aimed_append, List.filter_append]
    exact first.aimed_perm.append second.aimed_perm
  called_known := by
    rw [called_append]
    exact List.forall_mem_append.mpr ⟨first.called_known, second.called_known⟩

theorem perm (h : UnitsCode known units drawn counter lines final) (hperm : drawn.Perm drawn') :
    UnitsCode known units drawn' counter lines final :=
  { h with drawn_units := h.drawn_units.perm (hperm.append_right _) }

/-- Labels of units that are only drawn, to be shown later on. -/
theorem of_drawn (h : Drawn drawn counter final) : UnitsCode known [] drawn counter [] final where
  segments := ⟨[], rfl, .nil⟩
  areUnits _ h := absurd h List.not_mem_nil
  drawn_units := by
    rw [shown_nil, List.filter_nil, List.append_nil]
    exact h
  aimed_perm := List.Perm.nil
  called_known _ h := absurd h List.not_mem_nil

/-- A unit's label, and then its code up to the return. -/
theorem of_fragment {line : Line} {label : Label} {comment : String}
    (hlabel : line.label? = some label) (hunit : label.isLocal = false)
    (haim : line.aim? = none) (hcallee : line.callee? = none)
    (h : Fragment known counter (lines ++ [.instruction none .ret comment]) final) :
    UnitsCode known [label] [] counter (line :: (lines ++ [.instruction none .ret comment]))
      final := by
  have isUnit : IsUnit label (line :: (lines ++ [.instruction none .ret comment])) :=
    ⟨hlabel, h.isLocal, line :: lines, comment, rfl⟩
  have hlocal : (shown (line :: (lines ++ [.instruction none .ret comment]))).filter (·.isLocal) =
      shown (lines ++ [.instruction none .ret comment]) := by
    rw [shown_cons, hlabel, Option.toList, List.singleton_append,
      List.filter_cons_of_neg (Bool.eq_false_iff.mp hunit), List.filter_eq_self]
    exact h.isLocal
  constructor
  case segments => exact ⟨[_], List.flatten_singleton.symm, .cons isUnit .nil⟩
  case areUnits => exact List.forall_mem_singleton.mpr hunit
  case drawn_units =>
    rw [hlocal]
    exact h.drawn
  case aimed_perm =>
    rw [hlocal, aimed_cons, haim]
    exact h.aimed_perm
  case called_known =>
    rw [called_cons, hcallee]
    exact h.called_known

end UnitsCode

/-! ### Labels of routines -/

def RoutineLabels.labelOf (labels : RoutineLabels) (id : DeclId) : Label :=
  (labels.lookup id).getD (.global "")

theorem RoutineLabels.lookup_append_of_notMem {news labels : RoutineLabels} {id : DeclId}
    (h : id ∉ news.map Prod.fst) : (news ++ labels).lookup id = labels.lookup id := by
  induction news with
  | nil => rfl
  | cons head news ih =>
      obtain ⟨key, label⟩ := head
      rw [List.map_cons, List.mem_cons, not_or] at h
      rw [List.cons_append, List.lookup_cons, beq_false_of_ne h.1]
      exact ih h.2

theorem RoutineLabels.labelOf_append {news labels : RoutineLabels} {id : DeclId}
    (h : id ∉ news.map Prod.fst) : (news ++ labels).labelOf id = labels.labelOf id := by
  rw [labelOf, lookup_append_of_notMem h]
  rfl

/-- The labels that were drawn for routines, by their declarations. -/
structure Draws (tree : Tree) (ids : List DeclId) (news : RoutineLabels) : Prop where
  ids_perm : (news.map Prod.fst).Perm ids
  unit : ∀ entry ∈ news, ∃ decl number, tree.decls[entry.1]? = some decl ∧
    entry.2 = .unit (labelStem decl.kind) decl.name number

theorem Draws.append {tree : Tree} {ids ids' : List DeclId} {news news' : RoutineLabels}
    (first : Draws tree ids news) (second : Draws tree ids' news') :
    Draws tree (ids ++ ids') (news ++ news') where
  ids_perm := by
    rw [List.map_append]
    exact first.ids_perm.append second.ids_perm
  unit := List.forall_mem_append.mpr ⟨first.unit, second.unit⟩

theorem RoutineLabels.labelOf_of_mem {labels : RoutineLabels} {entry : DeclId × Label}
    (hnodup : (labels.map Prod.fst).Nodup) (hmem : entry ∈ labels) :
    labels.labelOf entry.1 = entry.2 := by
  induction labels with
  | nil => cases hmem
  | cons head labels ih =>
      obtain ⟨id, label⟩ := head
      rw [List.map_cons, List.nodup_cons] at hnodup
      rcases List.mem_cons.mp hmem with rfl | hentry
      · rw [labelOf, lookup_cons_self, Option.getD_some]
      · have hne : (entry.1 == id) = false := by
          apply beq_false_of_ne
          rintro rfl
          exact hnodup.1 (List.mem_map.mpr ⟨entry, hentry, rfl⟩)
        rw [labelOf, List.lookup_cons, hne]
        exact ih hnodup.2 hentry

/-- The labels of different routines are those that were drawn, one for each. -/
theorem Draws.labels_perm {tree : Tree} {ids : List DeclId} {labels : RoutineLabels}
    (h : Draws tree ids labels) (hnodup : ids.Nodup) :
    (ids.map labels.labelOf).Perm (labels.map Prod.snd) := by
  have hread : (labels.map Prod.fst).map labels.labelOf = labels.map Prod.snd := by
    rw [List.map_map]
    apply List.map_congr_left
    exact fun entry hentry => RoutineLabels.labelOf_of_mem (h.ids_perm.nodup_iff.mpr hnodup) hentry
  rw [← hread]
  exact (h.ids_perm.map _).symm

/-- The label of a routine, once it is drawn, is that of a unit. -/
theorem Draws.labelOf_unit {tree : Tree} {ids : List DeclId} {labels : RoutineLabels}
    (h : Draws tree ids labels) (hnodup : ids.Nodup) {id : DeclId} (hid : id ∈ ids) :
    ∃ decl number, tree.decls[id]? = some decl ∧
      labels.labelOf id = .unit (labelStem decl.kind) decl.name number := by
  obtain ⟨entry, hentry, rfl⟩ := List.mem_map.mp (h.ids_perm.mem_iff.mpr hid)
  obtain ⟨decl, number, hdecl, hunit⟩ := h.unit entry hentry
  refine ⟨decl, number, hdecl, ?_⟩
  rw [RoutineLabels.labelOf_of_mem (h.ids_perm.nodup_iff.mpr hnodup) hentry, hunit]

/-- The routines of a block get labels of their own. -/
theorem emits_labelRoutines {tree : Tree} {ids : List DeclId} {labels labels' : RoutineLabels}
    {counter final : Nat} {lines : List Line}
    (h : (labelRoutines tree labels ids).Emits counter lines final labels') :
    ∃ news : RoutineLabels, labels' = news ++ labels ∧ Draws tree ids news ∧
      Drawn (news.map Prod.snd) counter final := by
  induction ids generalizing labels counter lines with
  | nil =>
      obtain ⟨rfl, rfl, rfl⟩ := emits_pure_iff.mp h
      exact ⟨[], rfl, ⟨List.Perm.nil, fun _ h => absurd h List.not_mem_nil⟩, .nil _⟩
  | cons id ids ih =>
      obtain ⟨decl, hdecl, hothers⟩ := emits_labelRoutines_cons h
      obtain ⟨news, rfl, hdraws, hdrawn⟩ := ih hothers
      have hfirst : Draws tree [id]
          [(id, .unit (labelStem decl.kind) decl.name (counter + 1))] :=
        ⟨List.Perm.refl _, List.forall_mem_singleton.mpr ⟨decl, counter + 1, hdecl, rfl⟩⟩
      refine ⟨news ++ [(id, .unit (labelStem decl.kind) decl.name (counter + 1))], ?_, ?_, ?_⟩
      · rw [List.append_assoc]
        rfl
      · have hboth := hdraws.append hfirst
        exact ⟨hboth.ids_perm.trans (List.perm_append_singleton id ids), hboth.unit⟩
      · rw [List.map_append]
        exact ((Drawn.singleton rfl).append hdrawn).perm List.perm_append_comm

/-! ### Routines -/

section Blocks

variable {tree : Tree} {write : BlockId → RoutineLabels → Emit RoutineLabels}
variable {labels labels' : RoutineLabels} {counter final : Nat} {lines : List Line}

theorem isPlain_resultLines (isFunction : Bool) :
    ∀ line ∈ resultLines isFunction, line.IsPlain := by
  cases isFunction with
  | true => exact List.forall_mem_singleton.mpr ⟨rfl, rfl, rfl⟩
  | false => exact fun _ h => absurd h List.not_mem_nil

theorem SharedResult.isPlain {decl : Decl} {isFunction : Bool}
    (h : SharedResult decl isFunction lines) : ∀ line ∈ lines, line.IsPlain := by
  cases h with
  | procedure => exact fun _ h => absurd h List.not_mem_nil
  | function =>
      exact List.forall_mem_cons.mpr ⟨⟨rfl, rfl, rfl⟩,
        List.forall_mem_singleton.mpr ⟨rfl, rfl, rfl⟩⟩

variable {env : Env} {known : List Label} {label : Label}

theorem unitsCode_framedBody {name : String} {isFunction : Bool} {body : Block}
    (hknown : env.labels.map Prod.snd ⊆ known) (hunit : label.isLocal = false)
    (h : (framedBody env name isFunction label body).Emits counter lines final ()) :
    UnitsCode known [label] [] counter lines final := by
  obtain ⟨code, hcode, rfl⟩ := emits_framedBody h
  have hrest : code ++ (resultLines isFunction ++ [.instruction none .leave "",
      .instruction none .ret ("End of " ++ name)]) =
      (code ++ (resultLines isFunction ++ [.instruction none .leave ""])) ++
        [.instruction none .ret ("End of " ++ name)] := by
    simp only [List.append_assoc, List.singleton_append]
  rw [hrest]
  apply UnitsCode.of_fragment rfl hunit rfl rfl
  rw [← hrest]
  apply (fragment_statements hknown body.statements hcode).append
  apply Fragment.append (.plain (isPlain_resultLines isFunction))
  exact .cons ⟨rfl, rfl, rfl⟩ (.cons ⟨rfl, rfl, rfl⟩ (fragment_nil _))

theorem unitsCode_inlineBody {decl : Decl} {isFunction : Bool} {body : Block}
    (hknown : env.labels.map Prod.snd ⊆ known) (hunit : label.isLocal = false)
    (h : (inlineBody env decl isFunction label body).Emits counter lines final ()) :
    UnitsCode known [label] [] counter lines final := by
  obtain ⟨code, result, hcode, hresult, rfl⟩ := emits_inlineBody h
  rw [← List.append_assoc]
  apply UnitsCode.of_fragment rfl hunit rfl rfl
  rw [List.append_assoc]
  apply (fragment_statements hknown body.statements hcode).append
  apply Fragment.append (.plain hresult.isPlain)
  exact .cons ⟨rfl, rfl, rfl⟩ (fragment_nil _)

theorem BodyCode.unitsCode {decl : Decl} {heading : Routine} {bodyId : BlockId}
    (h : BodyCode env decl heading bodyId label counter lines final)
    (hknown : env.labels.map Prod.snd ⊆ known) (hunit : label.isLocal = false) :
    UnitsCode known [label] [] counter lines final := by
  cases h with
  | framed _ _ hcode => exact unitsCode_framedBody hknown hunit hcode
  | shared _ _ hcode => exact unitsCode_inlineBody hknown hunit hcode

/-- Code of routines that is written in the given order, with the labels drawn for it. -/
def WritesUnits (tree : Tree) (order drawn : List DeclId) (labels : RoutineLabels) (counter : Nat)
    (lines : List Line) (final : Nat) (labels' : RoutineLabels) : Prop :=
  ∃ news : RoutineLabels, labels' = news ++ labels ∧ Draws tree drawn news ∧
    UnitsCode (labels'.map Prod.snd) (order.map labels'.labelOf) (news.map Prod.snd)
      counter lines final

theorem WritesUnits.perm {order drawn drawn' : List DeclId}
    (h : WritesUnits tree order drawn labels counter lines final labels')
    (hperm : drawn.Perm drawn') :
    WritesUnits tree order drawn' labels counter lines final labels' := by
  obtain ⟨news, hlabels, hdraws, hunits⟩ := h
  exact ⟨news, hlabels, ⟨hdraws.ids_perm.trans hperm, hdraws.unit⟩, hunits⟩

theorem WritesUnits.nil (labels : RoutineLabels) (counter : Nat) :
    WritesUnits tree [] [] labels counter [] counter labels :=
  ⟨[], rfl, ⟨List.Perm.nil, fun _ h => absurd h List.not_mem_nil⟩, .of_drawn (.nil counter)⟩

theorem map_labelOf_append {news labels : RoutineLabels} {order : List DeclId}
    (h : ∀ id ∈ order, id ∉ news.map Prod.fst) :
    order.map (news ++ labels).labelOf = order.map labels.labelOf := by
  apply List.map_congr_left
  exact fun id hid => RoutineLabels.labelOf_append (h id hid)

/-- Later labels are those of other routines. -/
theorem WritesUnits.append {order order' drawn drawn' : List DeclId} {middle : Nat}
    {between : RoutineLabels} {lines' : List Line}
    (first : WritesUnits tree order drawn labels counter lines middle between)
    (second : WritesUnits tree order' drawn' between middle lines' final labels')
    (hapart : ∀ id ∈ order, id ∉ drawn') :
    WritesUnits tree (order ++ order') (drawn' ++ drawn) labels counter (lines ++ lines') final
      labels' := by
  obtain ⟨news, rfl, hdraws, hfirst⟩ := first
  obtain ⟨news', rfl, hdraws', hsecond⟩ := second
  refine ⟨news' ++ news, (List.append_assoc _ _ _).symm, hdraws'.append hdraws, ?_⟩
  have hkept : order.map (news' ++ (news ++ labels)).labelOf =
      order.map (news ++ labels).labelOf := by
    apply map_labelOf_append
    exact fun id hid hmem => hapart id hid (hdraws'.ids_perm.mem_iff.mp hmem)
  have hboth := UnitsCode.append
    (hfirst.mono (List.map_subset Prod.snd (List.subset_append_right news' _))) hsecond
  rw [← hkept, ← @List.map_append _ _ _ order] at hboth
  apply UnitsCode.perm hboth
  rw [List.map_append]
  exact List.perm_append_comm

def RoutineLabels.AreUnits (labels : RoutineLabels) : Prop :=
  ∀ entry ∈ labels, entry.2.isLocal = false

theorem WritesUnits.areUnits {order drawn : List DeclId}
    (h : WritesUnits tree order drawn labels counter lines final labels')
    (hlabels : labels.AreUnits) : labels'.AreUnits := by
  obtain ⟨news, rfl, hdraws, -⟩ := h
  apply List.forall_mem_append.mpr ⟨?_, hlabels⟩
  intro entry hentry
  obtain ⟨decl, number, -, hlabel⟩ := hdraws.unit entry hentry
  rw [hlabel]
  rfl

theorem mem_of_lookup {id : DeclId} (h : labels.lookup id = some label) : (id, label) ∈ labels := by
  obtain ⟨before, after, hlabels, -⟩ := List.lookup_eq_some_iff.mp h
  rw [hlabels]
  exact List.mem_append_right _ List.mem_cons_self

def IsBody (tree : Tree) (body : Skeleton) (id : DeclId) : Prop :=
  body.root.routine? = some id ∧ tree.bodyOf? id = some body.id

/-- The body that a routine is written with is its own. -/
theorem IsBody.id_eq {body : Skeleton} {id : DeclId} {decl : Decl} {heading : Routine}
    {bodyId : BlockId} (isBody : IsBody tree body id) (hdecl : tree.decls[id]? = some decl)
    (hkind : decl.kind = .routine heading) (hbody : heading.body = some bodyId) :
    bodyId = body.id := by
  have hbodyOf := isBody.2
  rw [Tree.bodyOf?, hdecl, Option.bind_some, hkind, DeclKind.routine?, Option.bind_some,
    hbody] at hbodyOf
  exact Option.some.inj hbodyOf

/-- The routines inside a block are written from the inside out. -/
def WritesInside (tree : Tree) (write : BlockId → RoutineLabels → Emit RoutineLabels)
    (skeleton : Skeleton) : Prop :=
  ∀ {labels labels' : RoutineLabels} {counter final : Nat} {lines : List Line}, labels.AreUnits →
    (write skeleton.id labels).Emits counter lines final labels' →
      WritesUnits tree skeleton.codeOrder skeleton.codeOrder labels counter lines final labels'

/-- A routine is written after those inside it. -/
theorem writesUnits_routine {body : Skeleton} {id : DeclId} (isBody : IsBody tree body id)
    (writes : WritesInside tree write body) (hlabels : labels.AreUnits)
    (h : (routine write tree id labels).Emits counter lines final labels') :
    WritesUnits tree (body.codeOrder ++ [id]) body.codeOrder labels counter lines final
      labels' := by
  obtain ⟨decl, heading, bodyId, label, front, middle, back, hdecl, hkind, hbody, hinside, hlabel,
    hcode, rfl⟩ := emits_routine h
  obtain rfl := isBody.id_eq hdecl hkind hbody
  have hinner := writes hlabels hinside
  have hunit := hinner.areUnits hlabels _ (mem_of_lookup hlabel)
  obtain ⟨news, rfl, hdraws, hunits⟩ := hinner
  have hboth := hunits.append (hcode.unitsCode (List.Subset.refl _) hunit)
  rw [List.append_nil] at hboth
  have hlabelOf : (news ++ labels).labelOf id = label := by
    rw [RoutineLabels.labelOf, hlabel, Option.getD_some]
  refine ⟨news, rfl, hdraws, ?_⟩
  rw [@List.map_append _ _ _ body.codeOrder, List.map_singleton, hlabelOf]
  exact hboth

/-- The order of bodies takes in their routines and all inside them. -/
theorem codeOrderAll_perm_append {bodies : List Skeleton} {ids : List DeclId}
    (isBody : List.Forall₂ (IsBody tree) bodies ids) :
    (Skeleton.codeOrderAll bodies).Perm (bodies.flatMap Skeleton.codeOrder ++ ids) := by
  induction isBody with
  | nil => exact List.Perm.nil
  | @cons body id bodies ids first _ ih =>
      rw [Skeleton.codeOrderAll, first.1, Option.toList, List.flatMap_cons, List.append_assoc]
      exact ((ih.cons id).trans List.perm_middle.symm).append_left body.codeOrder

/-- The labels of routines stay as they are while the routines after them are written. -/
theorem writesUnits_routines {bodies : List Skeleton} {ids : List DeclId}
    (isBody : List.Forall₂ (IsBody tree) bodies ids)
    (writes : ∀ body ∈ bodies, WritesInside tree write body)
    (hnodup : (Skeleton.codeOrderAll bodies).Nodup) (hlabels : labels.AreUnits)
    (h : (routines write tree ids labels).Emits counter lines final labels') :
    WritesUnits tree (Skeleton.codeOrderAll bodies) (bodies.flatMap Skeleton.codeOrder)
      labels counter lines final labels' := by
  induction isBody generalizing labels counter lines with
  | nil =>
      obtain ⟨rfl, rfl, rfl⟩ := emits_pure_iff.mp h
      exact .nil _ _
  | @cons body id bodies ids first others ih =>
      obtain ⟨hwrite, hwrites⟩ := List.forall_mem_cons.mp writes
      obtain ⟨front, middle, between, back, hroutine, hothers, rfl⟩ := emits_bind_iff.mp h
      rw [Skeleton.codeOrderAll, first.1, Option.toList, ← List.append_assoc] at hnodup ⊢
      obtain ⟨-, hnodup', hdisjoint⟩ := List.nodup_append'.mp hnodup
      have hfirst := writesUnits_routine first hwrite hlabels hroutine
      have hrest := ih hwrites hnodup' (hfirst.areUnits hlabels) hothers
      have hboth := hfirst.append hrest fun other hother hmem =>
        hdisjoint hother ((codeOrderAll_perm_append others).mem_iff.mpr
          (List.mem_append_left ids hmem))
      rw [List.flatMap_cons]
      exact hboth.perm List.perm_append_comm

end Blocks

/-! ### Programs -/

section Program

variable {outline : Outline} {skeleton body : Skeleton} {tree : Tree} {site : Site}

/-- The bodies in a block are those of its routines. -/
theorem forall₂_isBody (program : CheckedProgram outline skeleton tree) {root : Node}
    {inner : List Skeleton}
    (occurs : CheckedProgram.Occurs outline skeleton site (.mk root inner)) :
    List.Forall₂ (IsBody tree) inner root.block.routines := by
  cases occurs.wellFormed program.hasSkeleton.wellFormed with
  | mk _ bodies _ _ =>
      have hbody : ∀ body ∈ inner, ∃ id, body.root.routine? = some id ∧
          tree.bodyOf? id = some body.id := by
        intro body hbody
        apply program.bodyOf?_of_mem_inner occurs
        rw [Skeleton.nodesAll_eq_flatMap]
        exact List.mem_flatMap.mpr ⟨body, hbody, body.root_mem_nodes⟩
      apply ((List.forall₂_and_left inner _).mpr ⟨hbody, bodies⟩).imp
      rintro body id ⟨⟨found, hfound, hbodyOf⟩, hrelated⟩
      obtain rfl := Option.some.inj (hrelated.1.symm.trans hfound)
      exact ⟨hfound, hbodyOf⟩

/-- The code of the routines inside a block: their labels are drawn, and they are written. -/
theorem emits_routines_of_occurs (program : CheckedProgram outline skeleton tree) {depth : Nat}
    {root : Node} {inner : List Skeleton} {labels labels' : RoutineLabels} {counter final : Nat}
    {lines : List Line} (occurs : CheckedProgram.Occurs outline skeleton site (.mk root inner))
    (h : (blockRoutines tree (depth + 1) root.id labels).Emits counter lines final labels') :
    ∃ middle between,
      (labelRoutines tree labels root.block.routines).Emits counter [] middle between ∧
      (routines (blockRoutines tree depth) tree root.block.routines between).Emits middle lines
        final labels' := by
  obtain ⟨_, found, middle, between, hdepth, hfound, hlabelled, hroutines⟩ := emits_blockRoutines h
  obtain rfl := Nat.succ.inj hdepth
  obtain ⟨block, hblock, hlisted, -⟩ := exists_block (occurs.checked program.checked).node
  obtain rfl := Option.some.inj (hfound.symm.trans hblock)
  rw [hlisted] at hlabelled hroutines
  exact ⟨middle, between, hlabelled, hroutines⟩

/-- The routines inside a block are written from the inside out, at any depth. -/
theorem writesInside_blockRoutines (program : CheckedProgram outline skeleton tree) (depth : Nat)
    (occurs : CheckedProgram.Occurs outline skeleton site body)
    (hnodup : body.codeOrder.Nodup) : WritesInside tree (blockRoutines tree depth) body := by
  induction depth generalizing site body with
  | zero => exact fun _ hemits => absurd hemits not_emits_stop
  | succ depth ih =>
      intro labels labels' counter final lines hlabels hemits
      obtain ⟨root, inner⟩ := body
      obtain ⟨middle, between, hlabelled, hroutines⟩ :=
        emits_routines_of_occurs program occurs hemits
      have isBody := forall₂_isBody program occurs
      have horder := codeOrderAll_perm_append isBody
      obtain ⟨hinside, -⟩ := List.nodup_append'.mp (horder.nodup_iff.mp hnodup)
      obtain ⟨news, rfl, hdraws, hdrawn⟩ := emits_labelRoutines hlabelled
      have hfirst : WritesUnits tree [] root.block.routines labels counter [] middle
          (news ++ labels) := ⟨news, rfl, hdraws, .of_drawn hdrawn⟩
      have hwrites : ∀ body ∈ inner, WritesInside tree (blockRoutines tree depth) body := by
        intro body hbody
        obtain ⟨before, after, -, hoccurs⟩ := occurs.exists_body hbody
        exact ih hoccurs ((List.nodup_flatMap.mp hinside).1 body hbody)
      have hrest := writesUnits_routines isBody hwrites hnodup (hfirst.areUnits hlabels) hroutines
      exact (hfirst.append hrest fun _ h => absurd h List.not_mem_nil).perm horder.symm

/-- What the code of a program is made of. -/
structure ProgramCode (tree : Tree) (order : List DeclId) (name : String) (counter : Nat)
    (lines : List Line) (final : Nat) (labels : RoutineLabels) : Prop where
  draws : Draws tree order labels
  segments : ∃ codes, lines = entryLines (.unit Label.programStem name (counter + 1)) ++
    codes.flatten ∧ List.Forall₂ IsUnit
      (order.map labels.labelOf ++ [.unit Label.programStem name (counter + 1)]) codes
  shown_perm : (shown lines).Perm ([.global "_main", .global "main"] ++
    (.unit Label.programStem name (counter + 1) :: (labels.map Prod.snd ++
      (shown lines).filter (·.isLocal))))
  drawn : Drawn (.unit Label.programStem name (counter + 1) ::
    (labels.map Prod.snd ++ (shown lines).filter (·.isLocal))) counter final
  aimed_perm : (aimed lines).Perm ((shown lines).filter (·.isLocal))
  called_known : ∀ label ∈ called lines, label = .unit Label.programStem name (counter + 1) ∨
    label ∈ labels.map Prod.snd ∨ label ∈ runtimeFunctions

/-- The code of a program shows the names of its entry and the labels drawn for it. -/
theorem exists_programCode (program : CheckedProgram outline skeleton tree) {name : String}
    {counter final : Nat} {lines : List Line}
    (h : (Code.program tree name).Emits counter lines final ()) :
    ∃ labels, ProgramCode tree skeleton.codeOrder name counter lines final labels := by
  rw [Code.program, if_pos program.checked_eq, program.body_eq] at h
  obtain ⟨_, _, code, rfl, hentry, h₁⟩ := h.of_freshNumber_bind.of_then
  obtain ⟨rfl, rfl⟩ := emits_entry hentry
  obtain ⟨front, middle, labels, back, hroutines, h₂, rfl⟩ := emits_bind_iff.mp h₁
  obtain ⟨body, -, hbody⟩ := h₂.of_ofExcept_bind
  obtain ⟨news, hlabels, hdraws, hunits⟩ := writesInside_blockRoutines program _ .top
    program.nodup_codeOrder (fun _ h => absurd h List.not_mem_nil) hroutines
  rw [List.append_nil] at hlabels
  subst hlabels
  have hcode := hunits.append (unitsCode_framedBody (List.Subset.refl _) rfl hbody)
  rw [List.append_nil] at hcode
  refine ⟨labels, hdraws, ?_, ?_, ?_, ?_, ?_⟩
  · obtain ⟨codes, hcodes, hunits⟩ := hcode.segments
    exact ⟨codes, congrArg _ hcodes, hunits⟩
  · have hunits := hcode.units_eq
    have hlabels := hdraws.labels_perm program.nodup_codeOrder
    have hsplit := List.filter_append_perm (!·.isLocal) (shown (front ++ back))
    simp only [Bool.not_not] at hsplit
    rw [hunits] at hsplit
    have hboth := (hlabels.append_right [.unit Label.programStem name (counter + 1)]).append_right
      ((shown (front ++ back)).filter (·.isLocal))
    rw [shown_append, List.filter_append]
    apply List.Perm.append_left
    apply (hsplit.symm.trans hboth).trans
    rw [List.append_assoc]
    exact List.perm_middle
  · rw [shown_append, List.filter_append]
    exact (Drawn.singleton rfl).append hcode.drawn_units
  · rw [shown_append, aimed_append, List.filter_append]
    exact hcode.aimed_perm
  · rw [called_append]
    intro label hlabel
    rcases List.mem_append.mp hlabel with hentry | hlabel
    · exact .inl (List.mem_singleton.mp hentry)
    · exact .inr (hcode.called_known label hlabel)

end Program

end MiniPascal.Code
