import MiniPascal.Proofs.Activations.Loading
import MiniPascal.Proofs.Compile.Correct

/-!
# The display of compiled programs

A listing that compiles is loaded and run from its label `main` on.  Wherever the code of a
block runs, the display of the frame in use leads to the frames of the blocks around it,
and a routine that was called finds its arguments where its parameters are.  The lines of
code are those that the listing determines (`compile_determines`).
-/

namespace MiniPascal

open MiniPascal.Assembly
open MiniPascal.Code

/-- Along every run from a line on, the display reaches the frames around the block whose
code is run, and parameters are the values of the arguments of their call when their frame is
made. -/
structure Image.KeepsDisplay (image : Image) (tree : Tree) (codes : List PlacedCode)
    (main : Nat) : Prop where
  reaches : ∀ machine state, image.Tracks ⟨⟨main, machine⟩, []⟩ state →
    ∀ placed ∈ codes, ∀ index < placed.code.length, state.line = placed.start + index →
      IsInside placed.code index → DisplayReaches tree codes placed.block state
  parameters : ∀ machine before after, image.Tracks ⟨⟨main, machine⟩, []⟩ before →
    image.track before = some after → ∀ placed ∈ codes, before.line = placed.start →
      tree.paramsOf placed.block ≠ [] →
        ParametersHold image tree codes ⟨⟨main, machine⟩, []⟩ placed.block after

theorem Image.Loads.keepsDisplay {outline : Outline} {skeleton : Skeleton} {image : Image}
    {tree : Tree} {codes : List PlacedCode} {main : Nat}
    (loads : image.Loads skeleton tree codes main)
    (program : CheckedProgram outline skeleton tree) : image.KeepsDisplay tree codes main where
  reaches _ _ htracks _ hplaced _ hindex hline hinside :=
    (sound_of_tracks program loads htracks).displayReaches loads hplaced hindex hline hinside
  parameters _ _ _ htracks htrack _ hplaced hline hparams :=
    parametersHold_of_tracks program loads htracks hplaced hline hparams htrack

/-- **The display reaches the right activations.**  The lines of a listing that compiles are
those of its entry and the codes of the blocks of its program.  However they are loaded, and
whatever the memory is, runs from the label `main` on keep the display, and the words of
parameters are the arguments that the caller has pushed. -/
theorem compile_display {source : String} {context final : Context} {listing : Listing}
    (h : (compile source).run context = .ok listing final) :
    ∃ tokens tree middle lines labels program blocks,
      Compilation.scan source = .ok tokens ∧
      (Compilation.checkTokens tokens).run context = .ok tree middle ∧
      listing = ⟨lines.map Line.listed⟩ ∧
      BlockCodes tree labels program (middle.title?.getD tree.name) lines blocks ∧
      ∀ image : Image, image.lines = lines → ∃ main, image.target? (.global "main") = some main ∧
        image.KeepsDisplay tree (placeAll (entryLines program).length blocks) main := by
  obtain ⟨tokens, tree, middle, hscan, htokens, hgenerate⟩ := exists_stages_of_compile h
  obtain ⟨outline, skeleton, -, -, checked⟩ := Compilation.exists_checkedProgram htokens
  obtain ⟨lines, hemits, rfl⟩ := Compilation.exists_emits_of_generate hgenerate
  obtain ⟨drawn, hcode⟩ := exists_programCode checked hemits
  have hlinked := hcode.linked checked.nodup_codeOrder (fun _ => checked.mem_codeOrder_iff)
    (checked.pairwise_codeOrder skeleton .top)
  obtain ⟨labels, blocks, hblocks⟩ := exists_blockCodes checked hemits
  refine ⟨tokens, tree, middle, lines, labels, _, blocks, hscan, htokens, rfl, hblocks, ?_⟩
  rintro image rfl
  have hresolves : image.Resolves := hlinked.resolves
  have loads := hblocks.loads checked hresolves
  obtain ⟨label, comment, callee, -, hline, -, -⟩ := loads.entry
  exact ⟨6, Image.target?_eq_some hresolves.distinct hline rfl, loads.keepsDisplay checked⟩

/-- The source of a program with a routine that runs in the frame of the one around it, and
calls that one again. -/
def sharedFrame : String :=
  "program p; var x: integer;
    procedure a(n: integer; m: integer); procedure b; begin x := n; if m > 0 then a(m - 1, 0) end;
      begin b end;
    begin a(7, 2) end."

/-- The display of this program reaches the right activations. -/
theorem compile_display_sharedFrame :
    ∃ listing final tokens tree middle lines labels program blocks,
      (compile sharedFrame).run (.fresh false false) = .ok listing final ∧
      Compilation.scan sharedFrame = .ok tokens ∧
      (Compilation.checkTokens tokens).run (.fresh false false) = .ok tree middle ∧
      listing = ⟨lines.map Line.listed⟩ ∧
      BlockCodes tree labels program (middle.title?.getD tree.name) lines blocks ∧
      ∀ image : Image, image.lines = lines → ∃ main, image.target? (.global "main") = some main ∧
        image.KeepsDisplay tree (placeAll (entryLines program).length blocks) main := by
  have hok : Compilation.endsWith (fun _ _ => true)
      ((compile sharedFrame).run (.fresh false false)) = true := by
    decide +kernel
  obtain ⟨listing, final, hcompile, -⟩ := Compilation.exists_of_endsWith hok
  obtain ⟨tokens, tree, middle, lines, labels, program, blocks, hdisplay⟩ :=
    compile_display hcompile
  exact ⟨listing, final, tokens, tree, middle, lines, labels, program, blocks, hcompile, hdisplay⟩

end MiniPascal
