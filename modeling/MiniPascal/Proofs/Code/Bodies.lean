import MiniPascal.Proofs.Code.Units

/-!
# Code of the bodies of a program

The code of a program is its entry, then the code of every routine, each after those
inside it, and then the code of its own block.  The labels that a body is written with
are those that the routines have at the end, as far as they are drawn by then.
-/

namespace MiniPascal.Code

open MiniPascal.Assembly
open Emit

/-! ### Labels that stay -/

/-- The first labels are among the others, for the same routines. -/
def RoutineLabels.Within (known labels : RoutineLabels) : Prop :=
  ∀ id label, known.lookup id = some label → labels.lookup id = some label

namespace RoutineLabels

variable {known labels labels' labels'' : RoutineLabels}

theorem Within.refl (labels : RoutineLabels) : labels.Within labels :=
  fun _ _ h => h

theorem Within.trans (first : labels.Within labels') (second : labels'.Within labels'') :
    labels.Within labels'' :=
  fun id label h => second id label (first id label h)

/-- Labels of other routines change nothing. -/
theorem within_append {news labels : RoutineLabels}
    (h : ∀ id ∈ news.map Prod.fst, id ∉ labels.map Prod.fst) : labels.Within (news ++ labels) := by
  intro id label hlookup
  have hold : id ∈ labels.map Prod.fst := List.mem_map_of_mem (mem_of_lookup hlookup)
  rw [lookup_append_of_notMem fun hnew => h id hnew hold, hlookup]

end RoutineLabels

/-! ### Routines -/

/-- The code of a routine's body, written with labels that the routines keep. -/
structure RoutineCode (tree : Tree) (labels : RoutineLabels) (id : DeclId) (code : List Line)
    (decl : Decl) (heading : Routine) (bodyId : BlockId) (known : RoutineLabels)
    (counter final : Nat) : Prop where
  decl_eq : tree.decls[id]? = some decl
  kind_eq : decl.kind = .routine heading
  body_eq : heading.body = some bodyId
  within : known.Within labels
  labelled : known.lookup id = some (labels.labelOf id)
  code : BodyCode { tree, labels := known } decl heading bodyId (labels.labelOf id) counter code
    final

def IsRoutineCode (tree : Tree) (labels : RoutineLabels) (id : DeclId) (code : List Line) : Prop :=
  ∃ decl heading bodyId known counter final,
    RoutineCode tree labels id code decl heading bodyId known counter final

theorem RoutineLabels.labelOf_eq {labels : RoutineLabels} {id : DeclId} {label : Label}
    (h : labels.lookup id = some label) : labels.labelOf id = label := by
  rw [labelOf, h, Option.getD_some]

theorem IsRoutineCode.mono {tree : Tree} {labels labels' : RoutineLabels} {id : DeclId}
    {code : List Line} (h : IsRoutineCode tree labels id code) (within : labels.Within labels') :
    IsRoutineCode tree labels' id code := by
  obtain ⟨decl, heading, bodyId, known, counter, final, found⟩ := h
  have hlabel := within id _ (found.within id _ found.labelled)
  have hsame : labels'.labelOf id = labels.labelOf id := RoutineLabels.labelOf_eq hlabel
  refine ⟨decl, heading, bodyId, known, counter, final, found.decl_eq, found.kind_eq,
    found.body_eq, found.within.trans within, ?_, ?_⟩
  · rw [hsame]
    exact found.labelled
  · rw [hsame]
    exact found.code

/-- Code that consists of the code of routines, in the given order, while labels are drawn
for some of them. -/
structure BodiesCode (tree : Tree) (order drawn : List DeclId) (labels : RoutineLabels)
    (lines : List Line) (labels' : RoutineLabels) : Prop where
  within : labels.Within labels'
  draws : ∃ news, labels' = news ++ labels ∧ Draws tree drawn news
  codes : ∃ codes, lines = codes.flatten ∧ List.Forall₂ (IsRoutineCode tree labels') order codes

theorem Draws.nil (tree : Tree) : Draws tree [] [] where
  ids_perm := List.Perm.nil
  unit _ h := absurd h List.not_mem_nil

namespace BodiesCode

variable {tree : Tree} {order order' drawn drawn' : List DeclId}
variable {labels labels' labels'' : RoutineLabels} {lines lines' : List Line}

theorem nil (labels : RoutineLabels) : BodiesCode tree [] [] labels [] labels where
  within := .refl labels
  draws := ⟨[], rfl, .nil tree⟩
  codes := ⟨[], rfl, .nil⟩

theorem append (first : BodiesCode tree order drawn labels lines labels')
    (second : BodiesCode tree order' drawn' labels' lines' labels'') :
    BodiesCode tree (order ++ order') (drawn' ++ drawn) labels (lines ++ lines') labels'' where
  within := first.within.trans second.within
  draws := by
    obtain ⟨news, rfl, hfirst⟩ := first.draws
    obtain ⟨news', rfl, hsecond⟩ := second.draws
    exact ⟨news' ++ news, (List.append_assoc _ _ _).symm, hsecond.append hfirst⟩
  codes := by
    obtain ⟨codes, rfl, hfirst⟩ := first.codes
    obtain ⟨codes', rfl, hsecond⟩ := second.codes
    have hkept := hfirst.imp fun _ _ h => IsRoutineCode.mono h second.within
    exact ⟨codes ++ codes', List.flatten_append.symm, List.rel_append hkept hsecond⟩

theorem perm (h : BodiesCode tree order drawn labels lines labels') (hperm : drawn.Perm drawn') :
    BodiesCode tree order drawn' labels lines labels' where
  within := h.within
  draws := by
    obtain ⟨news, hlabels, hdraws⟩ := h.draws
    exact ⟨news, hlabels, hdraws.ids_perm.trans hperm, hdraws.unit⟩
  codes := h.codes

/-- Only the routines for which labels were drawn have got one. -/
theorem keys (h : BodiesCode tree order drawn labels lines labels') {id : DeclId}
    (hid : id ∈ labels'.map Prod.fst) : id ∈ drawn ∨ id ∈ labels.map Prod.fst := by
  obtain ⟨news, rfl, hdraws⟩ := h.draws
  rw [List.map_append, List.mem_append] at hid
  exact hid.imp_left hdraws.ids_perm.mem_iff.mp

end BodiesCode

section Blocks

variable {tree : Tree} {write : BlockId → RoutineLabels → Emit RoutineLabels}
variable {labels labels' : RoutineLabels} {counter final : Nat} {lines : List Line}

/-- None of these routines has a label yet. -/
def RoutineLabels.Lack (labels : RoutineLabels) (ids : List DeclId) : Prop :=
  ∀ id ∈ ids, id ∉ labels.map Prod.fst

/-- The routines inside a block are written one after another, from the inside out. -/
def WritesBodies (tree : Tree) (write : BlockId → RoutineLabels → Emit RoutineLabels)
    (skeleton : Skeleton) : Prop :=
  ∀ {labels labels' : RoutineLabels} {counter final : Nat} {lines : List Line},
    labels.Lack skeleton.codeOrder → (write skeleton.id labels).Emits counter lines final labels' →
      BodiesCode tree skeleton.codeOrder skeleton.codeOrder labels lines labels'

/-- The code of a routine comes after that of the routines inside it. -/
theorem bodiesCode_routine {body : Skeleton} {id : DeclId} (isBody : IsBody tree body id)
    (writes : WritesBodies tree write body) (hlack : labels.Lack body.codeOrder)
    (h : (routine write tree id labels).Emits counter lines final labels') :
    BodiesCode tree (body.codeOrder ++ [id]) body.codeOrder labels lines labels' := by
  obtain ⟨decl, heading, bodyId, label, front, middle, back, hdecl, hkind, hbody, hinside, hlabel,
    hcode, rfl⟩ := emits_routine h
  obtain rfl := isBody.id_eq hdecl hkind hbody
  obtain rfl := RoutineLabels.labelOf_eq hlabel
  have hown : BodiesCode tree [id] [] labels' back labels' :=
    { within := .refl labels'
      draws := ⟨[], rfl, .nil tree⟩
      codes := ⟨[back], List.flatten_singleton.symm, .cons ⟨decl, heading, body.id, labels', middle,
        final, hdecl, hkind, hbody, .refl labels', hlabel, hcode⟩ .nil⟩ }
  exact (writes hlack hinside).append hown

/-- The code of the routines of a block, whose labels are drawn. -/
theorem bodiesCode_routines {bodies : List Skeleton} {ids : List DeclId}
    (isBody : List.Forall₂ (IsBody tree) bodies ids)
    (writes : ∀ body ∈ bodies, WritesBodies tree write body)
    (hnodup : (bodies.flatMap Skeleton.codeOrder).Nodup)
    (hlack : labels.Lack (bodies.flatMap Skeleton.codeOrder))
    (h : (routines write tree ids labels).Emits counter lines final labels') :
    BodiesCode tree (Skeleton.codeOrderAll bodies) (bodies.flatMap Skeleton.codeOrder) labels lines
      labels' := by
  induction isBody generalizing labels counter lines with
  | nil =>
      obtain ⟨rfl, rfl, rfl⟩ := emits_pure_iff.mp h
      exact .nil _
  | @cons body id bodies ids first others ih =>
      obtain ⟨hwrite, hwrites⟩ := List.forall_mem_cons.mp writes
      obtain ⟨front, middle, between, back, hroutine, hothers, rfl⟩ := emits_bind_iff.mp h
      rw [List.flatMap_cons] at hnodup hlack
      obtain ⟨-, hnodup', hdisjoint⟩ := List.nodup_append'.mp hnodup
      have hfirst := bodiesCode_routine first hwrite
        (fun id hid => hlack id (List.mem_append_left _ hid)) hroutine
      have hrest := ih hwrites hnodup' (by
        intro other hother hkey
        rcases hfirst.keys hkey with hdrawn | hold
        · exact hdisjoint hdrawn hother
        · exact hlack other (List.mem_append_right _ hother) hold) hothers
      rw [Skeleton.codeOrderAll, first.1, Option.toList, List.flatMap_cons, ← List.append_assoc]
      exact (hfirst.append hrest).perm List.perm_append_comm

end Blocks

/-! ### Programs -/

section Program

variable {outline : Outline} {skeleton body : Skeleton} {tree : Tree} {site : Site}

/-- The routines inside a block are written from the inside out, at any depth. -/
theorem writesBodies_blockRoutines (program : CheckedProgram outline skeleton tree) (depth : Nat)
    (occurs : CheckedProgram.Occurs outline skeleton site body)
    (hnodup : body.codeOrder.Nodup) : WritesBodies tree (blockRoutines tree depth) body := by
  induction depth generalizing site body with
  | zero => exact fun _ hemits => absurd hemits not_emits_stop
  | succ depth ih =>
      intro labels labels' counter final lines hlack hemits
      obtain ⟨root, inner⟩ := body
      obtain ⟨middle, between, hlabelled, hroutines⟩ :=
        emits_routines_of_occurs program occurs hemits
      have isBody := forall₂_isBody program occurs
      have horder := codeOrderAll_perm_append isBody
      obtain ⟨hinside, -, hapart⟩ := List.nodup_append'.mp (horder.nodup_iff.mp hnodup)
      obtain ⟨news, rfl, hdraws, -⟩ := emits_labelRoutines hlabelled
      have hlabels : labels.Lack (inner.flatMap Skeleton.codeOrder ++ root.block.routines) :=
        fun id hid => hlack id (horder.mem_iff.mpr hid)
      have hfirst : BodiesCode tree [] root.block.routines labels [] (news ++ labels) :=
        { within := RoutineLabels.within_append fun id hid =>
            hlabels id (List.mem_append_right _ (hdraws.ids_perm.mem_iff.mp hid))
          draws := ⟨news, rfl, hdraws⟩
          codes := ⟨[], rfl, .nil⟩ }
      have hwrites : ∀ body ∈ inner, WritesBodies tree (blockRoutines tree depth) body := by
        intro body hbody
        obtain ⟨before, after, -, hoccurs⟩ := occurs.exists_body hbody
        exact ih hoccurs ((List.nodup_flatMap.mp hinside).1 body hbody)
      have hrest := bodiesCode_routines isBody hwrites hinside (by
        intro id hid hkey
        rcases hfirst.keys hkey with hnew | hold
        · exact hapart hid hnew
        · exact hlabels id (List.mem_append_left _ hid) hold) hroutines
      exact (hfirst.append hrest).perm horder.symm

/-- What the code of a program consists of, with the labels of its routines. -/
structure ProgramBodies (tree : Tree) (order : List DeclId) (name : String) (counter : Nat)
    (lines : List Line) (labels : RoutineLabels) (codes : List (List Line)) (main : List Line)
    (body : Block) (middle final : Nat) : Prop where
  draws : Draws tree order labels
  lines_eq : lines = entryLines (.unit Label.programStem name (counter + 1)) ++
    (codes.flatten ++ main)
  routines : List.Forall₂ (IsRoutineCode tree labels) order codes
  block : tree.blocks[tree.body]? = some body
  main : (framedBody { tree, labels } name false (.unit Label.programStem name (counter + 1))
    body).Emits middle main final ()

/-- The code of a program consists of the code of its routines and that of its block. -/
theorem exists_programBodies (program : CheckedProgram outline skeleton tree) {name : String}
    {counter final : Nat} {lines : List Line}
    (h : (Code.program tree name).Emits counter lines final ()) :
    ∃ labels codes main body middle,
      ProgramBodies tree skeleton.codeOrder name counter lines labels codes main body middle
        final := by
  rw [Code.program, if_pos program.checked_eq] at h
  obtain ⟨_, _, code, rfl, hentry, h₁⟩ := h.of_freshNumber_bind.of_then
  obtain ⟨rfl, rfl⟩ := emits_entry hentry
  obtain ⟨front, middle, labels, back, hroutines, h₂, rfl⟩ := emits_bind_iff.mp h₁
  obtain ⟨body, hbody, hmain⟩ := h₂.of_ofExcept_bind
  rw [program.body_eq] at hroutines
  have hbodies := writesBodies_blockRoutines program _ .top program.nodup_codeOrder
    (fun _ _ => List.not_mem_nil) hroutines
  obtain ⟨codes, rfl, hcodes⟩ := hbodies.codes
  obtain ⟨news, hlabels, hdraws⟩ := hbodies.draws
  rw [List.append_nil] at hlabels
  subst hlabels
  exact ⟨labels, codes, back, body, middle, hdraws, rfl, hcodes, blockOf_eq_ok_iff.mp hbody, hmain⟩

end Program

end MiniPascal.Code
