import MiniPascal.Proofs.Activations.Loading
import MiniPascal.Proofs.Compile.Linked

/-!
# Listings and their routines

The listing of a text that compiles is the code of its program, in which each routine has
a label of its own.
-/

namespace MiniPascal

open MiniPascal.Assembly
open MiniPascal.Code

namespace Code

variable {outline : Outline} {skeleton : Skeleton} {tree : Tree} {order : List DeclId}
variable {name : String} {counter middle final : Nat} {lines main : List Line}
variable {labels : RoutineLabels} {codes : List (List Line)} {body : Block}

/-- The codes of routines show the labels of the routines in their order. -/
theorem sublist_shown (h : List.Forall₂ (IsRoutineCode tree labels) order codes) :
    (order.map labels.labelOf).Sublist (shown codes.flatten) := by
  induction h with
  | nil => exact List.Sublist.refl _
  | cons first _ ih =>
      obtain ⟨decl, heading, bodyId, known, counter, final, found⟩ := first
      obtain ⟨line, rest, rfl, hlabel⟩ := found.code.head_eq
      rw [List.flatten_cons, shown_append, shown_cons, hlabel, List.map_cons]
      exact (ih.trans (List.sublist_append_right _ _)).cons_cons _

namespace ProgramBodies

/-- The labels of the routines and of the program are written differently. -/
theorem nodup_text (h : ProgramBodies tree order name counter lines labels codes main body middle
      final) (hshown : ((shown lines).map Label.text).Nodup) :
    ((order.map labels.labelOf ++ [Label.unit Label.programStem name (counter + 1)]).map
      Label.text).Nodup := by
  apply List.Sublist.nodup _ hshown
  apply List.Sublist.map
  obtain ⟨code, -, hmain⟩ := emits_framedBody h.main
  have hprogram : [Label.unit Label.programStem name (counter + 1)].Sublist (shown main) := by
    rw [hmain, shown_cons]
    exact (List.nil_sublist _).cons_cons _
  rw [h.lines_eq, shown_append, shown_append]
  exact ((sublist_shown h.routines).append hprogram).trans (List.sublist_append_right _ _)

end ProgramBodies

end Code

namespace Assembly

/-- The listing is that of a program's code, in which the routines have these labels: the
code of every routine begins at its label. -/
def Listing.IsCodeOf (listing : Listing) (tree : Tree) (title : String) (counter final : Nat)
    (labels : RoutineLabels) : Prop :=
  ∃ order lines codes main body middle, listing = ⟨lines.map Line.listed⟩ ∧
    ProgramBodies tree order title counter lines labels codes main body middle final

end Assembly

/-- The listing of a checked program consists of the codes of its routines and its block. -/
theorem CheckedProgram.exists_bodies {outline : Outline} {skeleton : Skeleton} {tree : Tree}
    (program : CheckedProgram outline skeleton tree) {context final : Context} {listing : Listing}
    (h : (Compilation.generate tree).run context = .ok listing final) :
    ∃ lines labels codes main body between, listing = ⟨lines.map Line.listed⟩ ∧
      ProgramBodies tree skeleton.codeOrder (context.title?.getD tree.name) context.labels lines
        labels codes main body between final.labels ∧
      ((shown lines).map Label.text).Nodup := by
  obtain ⟨lines, hemits, rfl⟩ := Compilation.exists_emits_of_generate h
  obtain ⟨drawn, hcode⟩ := exists_programCode program hemits
  have hshown : ((shown lines).map Label.text).Nodup := by
    rw [← filterMap_label?_listed]
    exact (hcode.linked program.nodup_codeOrder (fun _ => program.mem_codeOrder_iff)
      (program.pairwise_codeOrder skeleton .top)).nodup
  obtain ⟨labels, codes, main, body, between, hbodies⟩ := exists_programBodies program hemits
  exact ⟨lines, labels, codes, main, body, between, rfl, hbodies, hshown⟩

/-- A text that compiles has a checked program, and its listing is that of the program. -/
theorem exists_bodies_of_compile {source : String} {context final : Context} {listing : Listing}
    (h : (compile source).run context = .ok listing final) :
    ∃ tokens tree middle outline skeleton lines labels codes main body between,
      Compilation.scan source = .ok tokens ∧
      (Compilation.checkTokens tokens).run context = .ok tree middle ∧
      CheckedProgram outline skeleton tree ∧ listing = ⟨lines.map Line.listed⟩ ∧
      ProgramBodies tree skeleton.codeOrder (middle.title?.getD tree.name) context.labels lines
        labels codes main body between final.labels ∧
      ((shown lines).map Label.text).Nodup := by
  obtain ⟨tokens, tree, middle, hscan, htokens, hgenerate⟩ := exists_stages_of_compile h
  obtain ⟨outline, skeleton, -, -, program⟩ := Compilation.exists_checkedProgram htokens
  obtain ⟨lines, labels, codes, main, body, between, hlisting, hbodies, hshown⟩ :=
    program.exists_bodies hgenerate
  rw [Compilation.labels_of_checkTokens htokens] at hbodies
  exact ⟨tokens, tree, middle, outline, skeleton, lines, labels, codes, main, body, between, hscan,
    htokens, program, hlisting, hbodies, hshown⟩

end MiniPascal
