import MiniPascal.Proofs.Assembly.Decoding
import MiniPascal.Proofs.Compile.Independent
import MiniPascal.Proofs.Compile.Names

/-!
# Rendered listings

The lines of a compiled program can be read back: its labels are words, whatever its names,
its operands are words or quoted texts, and its comments end in words or marks.
-/

namespace MiniPascal

open MiniPascal.Assembly
open MiniPascal.Code

namespace Code.ProgramCode

variable {tree : Tree} {order : List DeclId} {name : String} {counter final : Nat}
variable {lines : List Line} {labels : RoutineLabels}

/-- A label that a program's code shows is a word. -/
theorem isWord_shown (h : ProgramCode tree order name counter lines final labels) {label : Label}
    (hlabel : label ∈ shown lines) : IsWord label.text := by
  rcases h.shown_cases hlabel with hentry | ⟨stem, hstem, source, number, rfl⟩ | hlocal
  · simp only [List.mem_cons, List.not_mem_nil, or_false] at hentry
    rcases hentry with rfl | rfl <;> decide
  · exact isWord_unit hstem source number
  · cases label with
    | numbered number => exact isWord_numbered number
    | unit | global => cases hlocal

theorem isWord_aimed (h : ProgramCode tree order name counter lines final labels) {label : Label}
    (hlabel : label ∈ aimed lines) : IsWord label.text :=
  h.isWord_shown (List.mem_filter.mp (h.aimed_perm.mem_iff.mp hlabel)).1

theorem isWord_called (h : ProgramCode tree order name counter lines final labels) {label : Label}
    (hlabel : label ∈ called lines) : IsWord label.text := by
  rcases h.called_cases hlabel with ⟨hshown, -⟩ | hruntime
  · exact h.isWord_shown hshown
  · simp only [runtimeFunctions, List.mem_cons, List.not_mem_nil, or_false] at hruntime
    rcases hruntime with rfl | rfl | rfl <;> decide

/-- All lines of a program's code can be read back. -/
theorem legible (h : ProgramCode tree order name counter lines final labels)
    (hneat : ∀ line ∈ lines, line.Neat) : ∀ line ∈ lines, line.listed.Legible := by
  intro line hline
  apply Line.legible_listed (hneat line hline)
  · exact fun label hlabel => h.isWord_shown (List.mem_filterMap.mpr ⟨line, hline, hlabel⟩)
  · exact fun label hlabel => h.isWord_aimed (List.mem_filterMap.mpr ⟨line, hline, hlabel⟩)
  · exact fun label hlabel => h.isWord_called (List.mem_filterMap.mpr ⟨line, hline, hlabel⟩)

/-- The labels that are the same in all code. -/
def fixedLabels : List Label :=
  [.global "_main", .global "main"] ++ runtimeFunctions

/-- A label in a program's code was drawn for it, or is fixed. -/
theorem mentioned_cases (h : ProgramCode tree order name counter lines final labels)
    {label : Label} (hlabel : label ∈ mentioned lines) :
    label ∈ .unit Label.programStem name (counter + 1) ::
      (labels.map Prod.snd ++ (shown lines).filter (·.isLocal)) ∨ label ∈ fixedLabels := by
  have hshown {place : Label} (hplace : place ∈ shown lines) :=
    List.mem_append.mp (h.shown_perm.mem_iff.mp hplace)
  rcases List.mem_append.mp hlabel with hrest | hcalled
  · rcases List.mem_append.mp hrest with hplace | haimed
    · exact (hshown hplace).symm.imp_right (List.mem_append_left _)
    · have hplace := (List.mem_filter.mp (h.aimed_perm.mem_iff.mp haimed)).1
      exact (hshown hplace).symm.imp_right (List.mem_append_left _)
  · rcases h.called_cases hcalled with ⟨hplace, -⟩ | hruntime
    · exact (hshown hplace).symm.imp_right (List.mem_append_left _)
    · exact .inr (List.mem_append_right _ hruntime)

/-- A drawn label has its number in its text, and a fixed one has none. -/
theorem text_ne_fixed (h : ProgramCode tree order name counter lines final labels)
    {drawn fixed : Label}
    (hdrawn : drawn ∈ .unit Label.programStem name (counter + 1) ::
      (labels.map Prod.snd ++ (shown lines).filter (·.isLocal)))
    (hfixed : fixed ∈ fixedLabels) : drawn.text ≠ fixed.text := by
  have hnone : ∀ label ∈ fixedLabels, trailingNumber? label.text = none := by decide
  intro htext
  obtain ⟨number, hnumber⟩ := h.drawn.exists_number hdrawn
  have hread := Label.trailingNumber?_text hnumber
  rw [htext, hnone fixed hfixed] at hread
  cases hread

/-- No two labels in a program's code have the same text. -/
theorem injOn_text (h : ProgramCode tree order name counter lines final labels) :
    Set.InjOn Label.text {label | label ∈ mentioned lines} := by
  have hfixed : ∀ label ∈ fixedLabels, ∀ label' ∈ fixedLabels,
      label.text = label'.text → label = label' := by
    decide
  intro first hfirst second hsecond htext
  rcases h.mentioned_cases hfirst with hdrawn | hknown
  · rcases h.mentioned_cases hsecond with hdrawn' | hknown'
    · exact List.inj_on_of_nodup_map h.drawn.nodup_text hdrawn hdrawn' htext
    · exact absurd htext (h.text_ne_fixed hdrawn hknown')
  · rcases h.mentioned_cases hsecond with hdrawn' | hknown'
    · exact absurd htext.symm (h.text_ne_fixed hdrawn' hknown)
    · exact hfixed first hknown second hknown' htext

end Code.ProgramCode

/-- The listing of a text that compiles has the lines of its code, and all can be read back. -/
theorem exists_legible_of_compile {source : String} {context final : Context} {listing : Listing}
    (h : (compile source).run context = .ok listing final) :
    ∃ lines : List Line, listing = ⟨lines.map Line.listed⟩ ∧
      ∀ line ∈ lines, line.listed.Legible := by
  obtain ⟨tokens, tree, middle, hscan, htokens, hgenerate⟩ := exists_stages_of_compile h
  obtain ⟨outline, skeleton, hparse, underway, program⟩ := Compilation.exists_checkedProgram htokens
  have htold := Outline.tells_of_parse hscan hparse
  have htitle : IsWord (middle.title?.getD tree.name) := by
    rw [Compilation.title?_of_checkTokens hparse htokens]
    exact htold.of_nodeAt.2.tail.name_head
  obtain ⟨lines, hemits, hlisting⟩ := Compilation.exists_emits_of_generate hgenerate
  obtain ⟨drawn, hcode⟩ := exists_programCode program hemits
  obtain ⟨labels, codes, main, body, between, hbodies⟩ := exists_programBodies program hemits
  have hlines := hbodies.codeLines fun _ _ => underway.tokens_sublist program.hasSkeleton
  refine ⟨lines, hlisting, hcode.legible fun line hline => ?_⟩
  exact (hlines line hline).neat (underway.namesAreWords htold) htitle

/-- **A listing determines its code.**  The listing of a text that compiles is written from some
lines, no two of which are listed alike unless they are the same, and from no other lines with
the same labels. -/
theorem compile_determines {source : String} {context final : Context} {listing : Listing}
    (h : (compile source).run context = .ok listing final) :
    ∃ lines, listing = ⟨lines.map Line.listed⟩ ∧
      Set.InjOn Line.listed {line | line ∈ lines} ∧
      ∀ lines', mentioned lines' ⊆ mentioned lines → listing = ⟨lines'.map Line.listed⟩ →
        lines' = lines := by
  obtain ⟨tokens, tree, middle, -, htokens, hgenerate⟩ := exists_stages_of_compile h
  obtain ⟨outline, skeleton, -, -, program⟩ := Compilation.exists_checkedProgram htokens
  obtain ⟨lines, hemits, rfl⟩ := Compilation.exists_emits_of_generate hgenerate
  obtain ⟨labels, hcode⟩ := exists_programCode program hemits
  have hdetermined (code code' : List Line) (hwithin : mentioned code ⊆ mentioned lines)
      (hwithin' : mentioned code' ⊆ mentioned lines)
      (hsame : code.map Line.listed = code'.map Line.listed) : code = code' :=
    eq_of_map_listed_eq (hcode.injOn_text.mono (List.append_subset.mpr ⟨hwithin, hwithin'⟩)) hsame
  refine ⟨lines, rfl, ?_, ?_⟩
  · intro first hfirst second hsecond hsame
    have hone (line : Line) (hline : line ∈ lines) : mentioned [line] ⊆ mentioned lines :=
      mentioned_subset (List.cons_subset.mpr ⟨hline, List.nil_subset _⟩)
    have hboth := hdetermined [first] [second] (hone first hfirst) (hone second hsecond)
      (congrArg ([·]) hsame)
    exact (List.cons.inj hboth).1
  · intro lines' hwithin hlisting
    exact hdetermined lines' lines hwithin (List.Subset.refl _) (Listing.mk.inj hlisting).symm

theorem readText_of_compile {source : String} {context final : Context} {listing : Listing}
    (h : (compile source).run context = .ok listing final) :
    readText listing.render = listing.pieces := by
  obtain ⟨lines, rfl, hlegible⟩ := exists_legible_of_compile h
  exact readText_render (List.forall_mem_map.mpr hlegible)

/-- **Rendering is faithful.**  The listing of a text that compiles is read back from its
rendered text: the same labels, directives, opcodes, operands and comments, in order.  Every
text in the data section is rendered in full and on one line, whatever characters it has, and
listings that are rendered alike have the same instructions. -/
theorem compile_render {source : String} {context final : Context} {listing : Listing}
    (h : (compile source).run context = .ok listing final) :
    readText listing.render = listing.pieces ∧
      (∀ label? operands comment,
        ListingLine.instruction label? ".asciz" operands comment ∈ listing.lines →
        '\n' ∉ operands.toList ∧ (∃ text, operands = Text.quote text ∧ comment = "") ∧
          (ListingLine.instruction label? ".asciz" operands comment).render =
            ListingLine.margin label? ++ ".asciz  ".toList ++ operands.toList ++ ['\n']) ∧
      ∀ (source' : String) (context' final' : Context) (listing' : Listing),
        (compile source').run context' = .ok listing' final' →
        listing'.render = listing.render →
        listing'.pieces = listing.pieces ∧ listing'.instructions = listing.instructions := by
  refine ⟨readText_of_compile h, ?_, ?_⟩
  · intro label? operands comment hline
    obtain ⟨lines, rfl, -⟩ := exists_legible_of_compile h
    obtain ⟨line, -, hlisted⟩ := List.mem_map.mp hline
    obtain ⟨text, rfl, rfl⟩ := Line.exists_datum hlisted
    exact ⟨lineFeed_notMem_quote text, ⟨text, rfl, rfl⟩, render_datum label? text⟩
  · intro source' context' final' listing' h' hrender
    have hpieces : listing'.pieces = listing.pieces := by
      rw [← readText_of_compile h', hrender, readText_of_compile h]
    exact ⟨hpieces, by rw [Listing.instructions_eq, Listing.instructions_eq, hpieces]⟩

/-- The source of a program that writes texts with marks, blanks and escapes in them. -/
def writtenTexts : String :=
  "program p; begin write('say \"a\\b\" # no: x  ', '# y\r\t', ': ''z'' ') end."

/-- The texts are in the data section, and the listing is read back. -/
theorem compile_render_texts :
    ∃ listing final, (compile writtenTexts).run (.fresh false false) = .ok listing final ∧
      (.instruction ".asciz" (Text.quote "say \"a\\b\" # no: x  ") "") ∈ listing.pieces ∧
      (.instruction ".asciz" (Text.quote "# y\r\t") "") ∈ listing.pieces ∧
      readText listing.render = listing.pieces := by
  have hok : Compilation.endsWith (fun listing _ => decide
      ((.instruction ".asciz" (Text.quote "say \"a\\b\" # no: x  ") "") ∈ listing.pieces ∧
        (.instruction ".asciz" (Text.quote "# y\r\t") "") ∈ listing.pieces))
      ((compile writtenTexts).run (.fresh false false)) = true := by
    decide +kernel
  obtain ⟨listing, final, hcompile, htest⟩ := Compilation.exists_of_endsWith hok
  obtain ⟨hfirst, hsecond⟩ := of_decide_eq_true htest
  exact ⟨listing, final, hcompile, hfirst, hsecond, (compile_render hcompile).1⟩

end MiniPascal
