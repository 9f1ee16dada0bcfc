import MiniPascal.Proofs.Code.Balance
import MiniPascal.Proofs.Code.Bodies
import MiniPascal.Proofs.Compile.Linked
import MiniPascal.Proofs.Frames.Exact

/-!
# Balanced listings

The listing of a compiled program is its entry and then one region for each routine and
one for the program's block.  The stack is balanced in every region; that of a routine
without parameters has no frame that would make up for what is left on the stack.
-/

namespace MiniPascal

open MiniPascal.Assembly
open MiniPascal.Code

namespace Assembly

/-- The region of a routine begins at its label, is balanced, and neither makes a frame
nor takes one down if the routine has no parameters. -/
structure Listing.IsRegion (tree : Tree) (label : DeclId → String) (id : DeclId)
    (code : List ListingLine) : Prop where
  unit : Listing.IsUnit (label id) code
  balanced : Balanced code
  frameless : ∀ decl heading, tree.decls[id]? = some decl → decl.kind = .routine heading →
    heading.params = [] → Frameless code

/-- The lines of a listing are those of the entry, of one region for each routine of a
program, and of the program's own region. -/
structure Listing.Regions (listing : Listing) (tree : Tree) (program : String)
    (order : List DeclId) (label : DeclId → String) (entry : List ListingLine)
    (codes : List (List ListingLine)) (main : List ListingLine) : Prop where
  nodup : order.Nodup
  mem_iff : ∀ id, id ∈ order ↔ (tree.bodyOf? id).isSome = true
  labels : ∀ id ∈ order, IsRoutineLabel tree id (label id)
  labels_nodup : listing.labels.Nodup
  lines_eq : listing.lines = entry ++ (codes.flatten ++ main)
  entry_labels : entry.filterMap ListingLine.label? = ["_main", "main"]
  regions : List.Forall₂ (Listing.IsRegion tree label) order codes
  unit : Listing.IsUnit program main
  balanced : Balanced main

end Assembly

namespace Code

variable {outline : Outline} {skeleton : Skeleton} {tree : Tree} {order : List DeclId}
variable {name : String} {counter middle final : Nat} {lines main : List Line}
variable {labels : RoutineLabels} {codes : List (List Line)} {body : Block}

/-- The code of a routine is a region. -/
theorem IsRoutineCode.isRegion (program : CheckedProgram outline skeleton tree) {id : DeclId}
    {code : List Line} (h : IsRoutineCode tree labels id code)
    (hunit : (labels.labelOf id).isLocal = false) :
    Listing.IsRegion tree (fun id => (labels.labelOf id).text) id (code.map Line.listed) := by
  obtain ⟨decl, heading, bodyId, known, counter, final, found⟩ := h
  constructor
  case unit => exact (found.code.unitsCode (List.Subset.refl _) hunit).isUnit.listed
  case balanced =>
    cases found.code with
    | framed _ _ hcode => exact balanced_framedBody hcode
    | shared _ _ hcode => exact (balanced_inlineBody hcode).1
  case frameless =>
    intro decl' heading' hdecl hkind hparams
    obtain rfl := Option.some.inj (found.decl_eq.symm.trans hdecl)
    obtain rfl := DeclKind.routine.inj (found.kind_eq.symm.trans hkind)
    cases found.code with
    | framed hbody howns _ =>
        have hframe := program.ownsFrame_body hdecl hkind found.body_eq hbody
        rw [howns, hparams] at hframe
        cases hframe
    | shared _ _ hcode => exact (balanced_inlineBody hcode).2

/-- The listing of a program's code falls into balanced regions. -/
theorem ProgramBodies.regions (program : CheckedProgram outline skeleton tree)
    (h : ProgramBodies tree skeleton.codeOrder name counter lines labels codes main body middle
      final) (hlabels : (Listing.mk (lines.map Line.listed)).labels.Nodup) :
    Listing.Regions ⟨lines.map Line.listed⟩ tree
      (Label.unit Label.programStem name (counter + 1)).text skeleton.codeOrder
      (fun id => (labels.labelOf id).text)
      ((entryLines (.unit Label.programStem name (counter + 1))).map Line.listed)
      (codes.map (List.map Line.listed)) (main.map Line.listed) := by
  have hunit : ∀ id ∈ skeleton.codeOrder, ∃ decl number, tree.decls[id]? = some decl ∧
      labels.labelOf id = .unit (labelStem decl.kind) decl.name number :=
    fun _ hid => h.draws.labelOf_unit program.nodup_codeOrder hid
  constructor
  case nodup => exact program.nodup_codeOrder
  case mem_iff => exact fun _ => program.mem_codeOrder_iff
  case labels =>
    intro id hid
    obtain ⟨decl, number, hdecl, hlabel⟩ := hunit id hid
    exact ⟨decl, number, hdecl, congrArg Label.text hlabel⟩
  case labels_nodup => exact hlabels
  case lines_eq =>
    change lines.map Line.listed = _
    rw [h.lines_eq, List.map_append, List.map_append, List.map_flatten]
  case entry_labels => rfl
  case regions =>
    apply List.forall₂_map_right_iff.mpr
    have hboth := (List.forall₂_and_left skeleton.codeOrder codes).mpr ⟨hunit, h.routines⟩
    apply hboth.imp
    rintro id code ⟨⟨decl, number, -, hlabel⟩, hcode⟩
    exact hcode.isRegion program (congrArg Label.isLocal hlabel)
  case unit => exact (unitsCode_framedBody (List.Subset.refl _) rfl h.main).isUnit.listed
  case balanced => exact balanced_framedBody h.main

end Code

/-- **The stack is balanced on every path.**  The listing of a text that compiles is its
entry and one region for each routine and for the program, in which branches stay and
come to their labels with the stack as it is there when it is passed, and nothing is left
on the stack at a branch target, where a frame is taken down, and at the return. -/
theorem compile_balanced {source : String} {context final : Context} {listing : Listing}
    (h : (compile source).run context = .ok listing final) :
    ∃ tokens tree middle, Compilation.scan source = .ok tokens ∧
      (Compilation.checkTokens tokens).run context = .ok tree middle ∧
      ∃ order label entry codes main, listing.Regions tree
        (Label.unit Label.programStem (middle.title?.getD tree.name) (context.labels + 1)).text
        order label entry codes main := by
  obtain ⟨tokens, tree, middle, hscan, htokens, hgenerate⟩ := exists_stages_of_compile h
  refine ⟨tokens, tree, middle, hscan, htokens, ?_⟩
  obtain ⟨outline, skeleton, -, -, program⟩ := Compilation.exists_checkedProgram htokens
  obtain ⟨lines, hemits, rfl⟩ := Compilation.exists_emits_of_generate hgenerate
  rw [Compilation.labels_of_checkTokens htokens] at hemits
  obtain ⟨drawn, hcode⟩ := Code.exists_programCode program hemits
  have hlinked := hcode.linked program.nodup_codeOrder (fun _ => program.mem_codeOrder_iff)
    (program.pairwise_codeOrder skeleton .top)
  obtain ⟨labels, codes, main, body, counter, hbodies⟩ := Code.exists_programBodies program hemits
  exact ⟨_, _, _, _, _, hbodies.regions program hlinked.nodup⟩

/-- The source of a program with a routine without parameters that branches, loops,
calls another routine and writes. -/
def framelessRoutine : String :=
  "program p; var i: integer; procedure b(n: integer); begin write(n, 'text') end;
    procedure a; begin i := 3; while i > 0 do begin if i = 2 then b(i * 2) else write(i);
      i := i - 1 end end;
    begin a end."

/-- The listing of this program falls into three balanced regions. -/
theorem compile_balanced_frameless :
    ∃ listing final tokens tree middle,
      (compile framelessRoutine).run (.fresh false false) = .ok listing final ∧
      Compilation.scan framelessRoutine = .ok tokens ∧
      (Compilation.checkTokens tokens).run (.fresh false false) = .ok tree middle ∧
      ∃ order label entry codes main, listing.Regions tree
        (Label.unit Label.programStem (middle.title?.getD tree.name) 1).text
        order label entry codes main := by
  have hok : Compilation.endsWith (fun _ _ => true)
      ((compile framelessRoutine).run (.fresh false false)) = true := by
    decide +kernel
  obtain ⟨listing, final, hcompile, -⟩ := Compilation.exists_of_endsWith hok
  obtain ⟨tokens, tree, middle, hscan, htokens, hregions⟩ := compile_balanced hcompile
  exact ⟨listing, final, tokens, tree, middle, hcompile, hscan, htokens, hregions⟩

end MiniPascal
