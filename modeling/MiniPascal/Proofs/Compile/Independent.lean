import MiniPascal.Proofs.Compile.Linked
import MiniPascal.Proofs.Compile.Total
import MiniPascal.Proofs.Grammar.Echoes
import MiniPascal.Proofs.Lines.Code

/-!
# Compiling in another context

What a context remembers does not matter to a compilation.  The log is written and never
read, a program is named in its text, and the counter of labels moves the numbers of all
labels alike.
-/

namespace MiniPascal

open MiniPascal.Assembly
open MiniPascal.Code

/-! ### Numbers of labels -/

namespace Assembly

/-- The numbers of the labels that a line shows or refers to. -/
def Line.numbers (line : Line) : List Nat :=
  (line.label?.toList ++ line.aim?.toList ++ line.callee?.toList).filterMap Label.number?

end Assembly

namespace Code

theorem Drawn.bounds {labels : List Label} {counter final : Nat} (h : Drawn labels counter final)
    {label : Label} (hlabel : label ∈ labels) {number : Nat}
    (hnumber : label.number? = some number) :
    counter < number ∧ number ≤ final := by
  have hmem : some number ∈ labels.map Label.number? :=
    List.mem_map.mpr ⟨label, hlabel, hnumber⟩
  rw [h.numbers.mem_iff] at hmem
  obtain ⟨drawn, hdrawn, hsome⟩ := List.mem_map.mp hmem
  obtain rfl := Option.some.inj hsome
  have hrange := List.mem_range'_1.mp hdrawn
  have hcounter := h.counter_le
  omega

variable {tree : Tree} {order : List DeclId} {name : String} {counter final : Nat}
variable {lines : List Line} {labels : RoutineLabels}

/-- Labels in a program's code have the numbers that were drawn for it. -/
theorem ProgramCode.bounds (h : ProgramCode tree order name counter lines final labels)
    {number : Nat} (hnumber : number ∈ lines.flatMap Line.numbers) :
    counter < number ∧ number ≤ final := by
  have hshown {label : Label} (hlabel : label ∈ shown lines)
      (hnumber : label.number? = some number) : counter < number ∧ number ≤ final := by
    rcases List.mem_append.mp (h.shown_perm.mem_iff.mp hlabel) with hentry | hdrawn
    · have hnone : ∀ label ∈ [Label.global "_main", Label.global "main"],
          label.number? = none := by
        decide
      rw [hnone label hentry] at hnumber
      cases hnumber
    · exact h.drawn.bounds hdrawn hnumber
  obtain ⟨line, hline, hmem⟩ := List.mem_flatMap.mp hnumber
  obtain ⟨label, hlabel, hnumber⟩ := List.mem_filterMap.mp hmem
  simp only [List.mem_append, Option.mem_toList] at hlabel
  rcases hlabel with (hplace | haim) | hcallee
  · exact hshown (List.mem_filterMap.mpr ⟨line, hline, hplace⟩) hnumber
  · have haimed : label ∈ aimed lines := List.mem_filterMap.mpr ⟨line, hline, haim⟩
    exact hshown (List.mem_filter.mp (h.aimed_perm.mem_iff.mp haimed)).1 hnumber
  · rcases h.called_cases (List.mem_filterMap.mpr ⟨line, hline, hcallee⟩) with
      ⟨hplace, -⟩ | hruntime
    · exact hshown hplace hnumber
    · have hnone : ∀ label ∈ runtimeFunctions, label.number? = none := by
        decide
      rw [hnone label hruntime] at hnumber
      cases hnumber

end Code

/-- The code of a checked program under a name is one code, whose labels have the numbers
that follow the counter. -/
theorem CheckedProgram.exists_code {outline : Outline} {skeleton : Skeleton} {tree : Tree}
    (program : CheckedProgram outline skeleton tree) (name : String) :
    ∃ (lines : List Line) (drawn : Nat), ∀ counter,
      (Code.program tree name).Emits counter (lines.map (Line.renumbered (· + counter)))
        (counter + drawn) () ∧
      ∀ number ∈ (lines.map (Line.renumbered (· + counter))).flatMap Line.numbers,
        counter < number ∧ number ≤ counter + drawn := by
  obtain ⟨lines, drawn, done, hzero, -⟩ := Code.succeeds_program program name 0
  refine ⟨lines, drawn, fun counter => ?_⟩
  have hemits : (Code.program tree name).Emits counter (lines.map (Line.renumbered (· + counter)))
      (counter + drawn) () := by
    have hmoved := Code.echoes_program (k := counter) (f := id) tree name 0
    change (Code.program (tree.relined id) name).run (0 + counter) = _ at hmoved
    change (Code.program tree name).run 0 = _ at hzero
    rw [Tree.relined_id, hzero, Nat.zero_add] at hmoved
    change (Code.program tree name).run counter = _
    rw [hmoved, Nat.add_comm counter]
    rfl
  obtain ⟨labels, hcode⟩ := Code.exists_programCode program hemits
  exact ⟨hemits, fun number hnumber => hcode.bounds hnumber⟩

/-! ### Stages -/

/-- A check does not read the log. -/
theorem Tree.check_log (tree : Tree) (log log' : Log) :
    (tree.check log').result = (tree.check log).result ∧
      (tree.check log').tree = (tree.check log).tree := by
  have hcheck := tree.check_relined (f := id) rfl log log'
  rw [tree.relined_id, Tree.relined_id] at hcheck
  refine ⟨hcheck.1.trans ?_, hcheck.2⟩
  cases (tree.check log).result with
  | ok done => rfl
  | error diagnostic => exact congrArg Except.error diagnostic.relined_id

namespace Compilation

/-- After the check a context has the name of the program. -/
theorem title?_of_checkTokens {tokens : List Located} {outline : Outline} {tree : Tree}
    {context middle : Context} (hparse : (Outline.parse tokens).result = .ok outline)
    (h : (checkTokens tokens).run context = .ok tree middle) :
    middle.title? = some outline.name := by
  have htitle : (parsedContext tokens context).title? = some outline.name := by
    change ((Outline.parse tokens).title? <|> context.title?) = _
    rw [Outline.title?_of_parse hparse]
    rfl
  have hcheck : (check (.ofOutline outline)).run (parsedContext tokens context) =
      .ok tree middle :=
    (run_bind_of_ok (run_parse_of_ok hparse context)).symm.trans h
  cases hresult :
      ((Tree.ofOutline outline).check (parsedContext tokens context).log).result with
  | ok done =>
      rw [run_check_of_ok hresult] at hcheck
      cases hcheck
      exact htitle
  | error diagnostic =>
      rw [run_check_of_error hresult] at hcheck
      cases hcheck

/-- Tokens are refused in every context with one diagnostic, or accepted in every
context with one tree. -/
theorem checkTokens_outcome (tokens : List Located) :
    (∃ diagnostic, ∀ context, ∃ final,
      (checkTokens tokens).run context = .error diagnostic final ∧
        final.labels = context.labels) ∨
    ∃ tree, ∀ context, ∃ middle, (checkTokens tokens).run context = .ok tree middle := by
  cases hparse : (Outline.parse tokens).result with
  | error error =>
      exact .inl ⟨error.diagnostic, fun context =>
        ⟨_, run_bind_of_error (run_parse_of_error hparse context), rfl⟩⟩
  | ok outline =>
      have hlog (context : Context) := (Tree.ofOutline outline).check_log (.empty false false)
        (parsedContext tokens context).log
      have hrun (context : Context) : (checkTokens tokens).run context =
          (check (.ofOutline outline)).run (parsedContext tokens context) :=
        run_bind_of_ok (run_parse_of_ok hparse context)
      cases hresult : ((Tree.ofOutline outline).check (.empty false false)).result with
      | error diagnostic =>
          refine .inl ⟨diagnostic, fun context => ?_⟩
          have hcheck := run_check_of_error ((hlog context).1.trans hresult)
          exact ⟨_, (hrun context).trans hcheck, rfl⟩
      | ok done =>
          refine .inr ⟨((Tree.ofOutline outline).check (.empty false false)).tree,
            fun context => ?_⟩
          have hcheck := run_check_of_ok ((hlog context).1.trans hresult)
          rw [(hlog context).2] at hcheck
          exact ⟨_, (hrun context).trans hcheck⟩

/-- A listing is generated with the numbers that follow the counter. -/
theorem run_generate {tree : Tree} {name : String} {context : Context} {lines : List Line}
    {final : Nat} (htitle : context.title? = some name)
    (h : (Code.program tree name).Emits context.labels lines final ()) :
    (generate tree).run context =
      .ok ⟨lines.map Line.listed⟩ { context with labels := final } := by
  change generate tree context = _
  unfold generate generateIn
  change (Code.program tree name).run context.labels = _ at h
  rw [htitle, Option.getD_some, h]
  rfl

end Compilation

/-! ### Compilations -/

/-- A text is refused in every context with one diagnostic, or compiled in every context
to one code, whose labels have the numbers that follow the counter. -/
theorem compile_outcome (source : String) :
    (∃ diagnostic, ∀ context, ∃ final,
      (compile source).run context = .error diagnostic final ∧ final.labels = context.labels) ∨
    ∃ tokens outline, ∃ (lines : List Line) (drawn : Nat),
      Compilation.scan source = .ok tokens ∧ (Outline.parse tokens).result = .ok outline ∧
      ∀ context, ∃ final,
        (compile source).run context =
          .ok ⟨(lines.map (Line.renumbered (· + context.labels))).map Line.listed⟩ final ∧
        (∀ number ∈ (lines.map (Line.renumbered (· + context.labels))).flatMap Line.numbers,
          context.labels < number ∧ number ≤ context.labels + drawn) ∧
        final.labels = context.labels + drawn ∧ final.title? = some outline.name := by
  unfold compile
  cases Compilation.scan source with
  | error diagnostic => exact .inl ⟨diagnostic, fun context => ⟨context, rfl, rfl⟩⟩
  | ok tokens =>
      rcases Compilation.checkTokens_outcome tokens with ⟨diagnostic, hrefused⟩ | ⟨tree, haccepted⟩
      · refine .inl ⟨diagnostic, fun context => ?_⟩
        obtain ⟨final, hrun, hlabels⟩ := hrefused context
        exact ⟨final, Compilation.run_bind_of_error hrun, hlabels⟩
      · obtain ⟨middle, hrun⟩ := haccepted (.fresh false false)
        obtain ⟨outline, skeleton, hparse, -, program⟩ := Compilation.exists_checkedProgram hrun
        obtain ⟨lines, drawn, hcode⟩ := program.exists_code outline.name
        refine .inr ⟨tokens, outline, lines, drawn, rfl, hparse, fun context => ?_⟩
        obtain ⟨middle, hrun⟩ := haccepted context
        have hlabels := Compilation.labels_of_checkTokens hrun
        have htitle := Compilation.title?_of_checkTokens hparse hrun
        obtain ⟨hemits, hbounds⟩ := hcode context.labels
        rw [← hlabels] at hemits
        have hgenerate := Compilation.run_generate htitle hemits
        rw [hlabels] at hgenerate
        exact ⟨_, (Compilation.run_bind_of_ok hrun).trans hgenerate, hbounds, rfl, htitle⟩

/-- **A compilation does not depend on its context.**  In two contexts a text is refused
with the same diagnostic, or it is compiled to the same code, in which the numbers of all
labels, shown and referred to, differ by the difference of the counters.  These are natural
numbers: counters of 32 bits agree with them as long as neither goes past 4294967295. -/
theorem compile_independent (source : String) (context context' : Context) :
    (∃ diagnostic final final',
      (compile source).run context = .error diagnostic final ∧
      (compile source).run context' = .error diagnostic final' ∧
      final.labels = context.labels ∧ final'.labels = context'.labels) ∨
    ∃ tokens outline, ∃ (lines : List Line) (drawn : Nat), ∃ final final',
      Compilation.scan source = .ok tokens ∧ (Outline.parse tokens).result = .ok outline ∧
      (compile source).run context = .ok ⟨lines.map Line.listed⟩ final ∧
      (compile source).run context' = .ok ⟨(lines.map (Line.renumbered fun number =>
        number + context'.labels - context.labels)).map Line.listed⟩ final' ∧
      (∀ number ∈ lines.flatMap Line.numbers,
        context.labels < number ∧ number ≤ context.labels + drawn) ∧
      final.labels = context.labels + drawn ∧ final'.labels = context'.labels + drawn ∧
      final.title? = some outline.name ∧ final'.title? = some outline.name := by
  rcases compile_outcome source with
    ⟨diagnostic, hrefused⟩ | ⟨tokens, outline, lines, drawn, hscan, hparse, hcompiled⟩
  · obtain ⟨final, hrun, hlabels⟩ := hrefused context
    obtain ⟨final', hrun', hlabels'⟩ := hrefused context'
    exact .inl ⟨diagnostic, final, final', hrun, hrun', hlabels, hlabels'⟩
  · obtain ⟨final, hrun, hbounds, hlabels, htitle⟩ := hcompiled context
    obtain ⟨final', hrun', -, hlabels', htitle'⟩ := hcompiled context'
    have hmoved : (lines.map (Line.renumbered (· + context.labels))).map
        (Line.renumbered fun number => number + context'.labels - context.labels) =
          lines.map (Line.renumbered (· + context'.labels)) := by
      have hnumbers : (fun number => number + context'.labels - context.labels) ∘
          (· + context.labels) = (· + context'.labels) := by
        funext number
        change number + context.labels + context'.labels - context.labels = _
        omega
      rw [List.map_map, ← hnumbers]
      exact List.map_congr_left fun line _ => line.renumbered_renumbered
    rw [← hmoved] at hrun'
    exact .inr ⟨tokens, outline, lines.map (Line.renumbered (· + context.labels)), drawn, final,
      final', hscan, hparse, hrun, hrun', hbounds, hlabels, hlabels', htitle, htitle'⟩

end MiniPascal
