import MiniPascal.Proofs.Compile.Independent
import MiniPascal.Proofs.Lines.Numbering
import MiniPascal.Proofs.Token.Case

/-!
# Layout

Blanks, comments, the case of letters and the lines of tokens never reach the code.  Texts
with the same lexemes are scanned to the same tokens at other lines, and each later stage
treats the same things at other lines alike.
-/

namespace MiniPascal

open MiniPascal.Assembly
open MiniPascal.Token.Scan

/-! ### Parsing -/

namespace Outline

/-- The same tokens, at whatever lines, agree everywhere. -/
theorem agrees_of_tokens_eq {tokens tokens' : List Located} {count : Nat}
    (h : tokens.map Located.token = tokens'.map Located.token) (hcount : count ≤ tokens.length) :
    Cursor.Agrees count (.start tokens) (.start tokens') where
  count_le := by
    have hlength := congrArg List.length h
    rw [List.length_map, List.length_map] at hlength
    exact hlength ▸ hcount
  ahead_eq place _ := by
    have hplace := congrArg (·[place]?) h
    simp only [List.getElem?_map] at hplace
    unfold Cursor.ahead Cursor.start
    rw [hplace]

/-- The same tokens at other lines are parsed alike. -/
theorem parse_of_tokens_eq {tokens tokens' : List Located}
    (h : tokens.map Located.token = tokens'.map Located.token) :
    (∃ outline outline', (parse tokens).result = .ok outline ∧
      (parse tokens').result = .ok outline' ∧ outline.unlined = outline'.unlined) ∨
    ∃ error error', (parse tokens).result = .error error ∧
      (parse tokens').result = .error error' ∧
      error.diagnostic.unlined = error'.diagnostic.unlined := by
  obtain ⟨count, title?, hstops, -, hagree⟩ := exists_stops_program tokens
  have hagrees := agrees_of_tokens_eq h hstops.count_le
  obtain ⟨hstops', halike⟩ := hagree tokens' hagrees
  cases hrun : program.run (.start tokens) with
  | ok outline final =>
      rw [hrun] at halike
      obtain ⟨outline', final', hrun', same⟩ := halike.exists_ok
      exact .inl ⟨outline, outline', parse_result_eq_ok_iff.mpr ⟨final, hrun⟩,
        parse_result_eq_ok_iff.mpr ⟨final', hrun'⟩, same⟩
  | error error final =>
      rw [hrun] at hstops halike
      obtain ⟨error', final', hrun', expected⟩ := halike.exists_error
      rw [hrun'] at hstops'
      have hfound := hstops.found_eq hstops' ⟨hagrees.count_le, hagrees.ahead_eq⟩
      refine .inr ⟨error, error', parse_result_eq_error_iff.mpr ⟨final, hrun⟩,
        parse_result_eq_error_iff.mpr ⟨final', hrun'⟩, ?_⟩
      unfold SyntaxError.diagnostic
      rw [expected, hfound]
      rfl

end Outline

/-! ### Stages -/

namespace Compilation

/-- Two stages end with values that look alike, or with diagnostics that differ in their
lines alone. -/
inductive Alike {α β : Type} (view : α → β) :
    EStateM.Result Diagnostic Context α → EStateM.Result Diagnostic Context α → Prop
  | ok {value value' : α} {final final' : Context} (same : view value = view value') :
    Alike view (.ok value final) (.ok value' final')
  | error {diagnostic diagnostic' : Diagnostic} {final final' : Context}
    (same : diagnostic.unlined = diagnostic'.unlined) :
    Alike view (.error diagnostic final) (.error diagnostic' final')

variable {tokens tokens' : List Located} {context context' : Context} {tree tree' : Tree}

theorem Alike.bind {α β γ δ : Type} {view : α → β} {view' : γ → δ} {first first' : Compilation α}
    {next next' : α → Compilation γ} (h : Alike view (first.run context) (first'.run context'))
    (hnext : ∀ value value' final final', first.run context = .ok value final →
      first'.run context' = .ok value' final' → view value = view value' →
        Alike view' ((next value).run final) ((next' value').run final')) :
    Alike view' ((first >>= next).run context) ((first' >>= next').run context') := by
  cases hfirst : first.run context with
  | ok value final =>
      cases hfirst' : first'.run context' with
      | ok value' final' =>
          rw [hfirst, hfirst'] at h
          rw [run_bind_of_ok hfirst, run_bind_of_ok hfirst']
          cases h with
          | ok same => exact hnext value value' final final' hfirst hfirst' same
      | error diagnostic' final' =>
          rw [hfirst, hfirst'] at h
          cases h
  | error diagnostic final =>
      cases hfirst' : first'.run context' with
      | ok value' final' =>
          rw [hfirst, hfirst'] at h
          cases h
      | error diagnostic' final' =>
          rw [hfirst, hfirst'] at h
          rw [run_bind_of_error hfirst, run_bind_of_error hfirst']
          cases h with
          | error same => exact .error same

/-- The same tokens at other lines are parsed to the same tree at other lines. -/
theorem alike_parse (h : tokens.map Located.token = tokens'.map Located.token) :
    Alike Tree.unlined ((parse tokens).run context) ((parse tokens').run context') := by
  rcases Outline.parse_of_tokens_eq h with
    ⟨outline, outline', hparse, hparse', hsame⟩ | ⟨error, error', hparse, hparse', hsame⟩
  · rw [run_parse_of_ok hparse, run_parse_of_ok hparse']
    refine .ok ?_
    unfold Tree.unlined
    rw [← Tree.ofOutline_relined rfl, ← Tree.ofOutline_relined rfl]
    exact congrArg Tree.ofOutline hsame
  · rw [run_parse_of_error hparse, run_parse_of_error hparse']
    exact .error hsame

/-- Trees that are the same but for lines are checked alike. -/
theorem alike_check (h : tree.unlined = tree'.unlined) :
    Alike Tree.unlined ((check tree).run context) ((check tree').run context') := by
  obtain ⟨hresult, htree⟩ :=
    tree.check_relined (f := fun _ => 0) rfl context.log (.empty false false)
  obtain ⟨hresult', htree'⟩ :=
    tree'.check_relined (f := fun _ => 0) rfl context'.log (.empty false false)
  change tree.relined _ = tree'.relined _ at h
  rw [h] at hresult htree
  have hsame := hresult.symm.trans hresult'
  cases hchecked : (tree.check context.log).result with
  | ok done =>
      cases hchecked' : (tree'.check context'.log).result with
      | ok done' =>
          rw [run_check_of_ok hchecked, run_check_of_ok hchecked']
          exact .ok (htree.symm.trans htree')
      | error diagnostic' =>
          rw [hchecked, hchecked'] at hsame
          cases hsame
  | error diagnostic =>
      cases hchecked' : (tree'.check context'.log).result with
      | ok done' =>
          rw [hchecked, hchecked'] at hsame
          cases hsame
      | error diagnostic' =>
          rw [hchecked, hchecked'] at hsame
          rw [run_check_of_error hchecked, run_check_of_error hchecked']
          exact .error (Except.error.inj hsame)

/-- Trees that are the same but for lines have the same code, or faults that differ in
their lines alone. -/
theorem run_program_of_unlined_eq (h : tree.unlined = tree'.unlined) (name : String)
    (counter : Nat) :
    ((Code.program tree name).run counter).moved 0 (fun _ => 0) id =
      ((Code.program tree' name).run counter).moved 0 (fun _ => 0) id := by
  have hmoved (tree : Tree) : (Code.program tree.unlined name).run counter =
      ((Code.program tree name).run counter).moved 0 (fun _ => 0) id :=
    Code.echoes_program (k := 0) (f := fun _ => 0) tree name counter
  rw [← hmoved tree, ← hmoved tree', h]

/-- The code of trees that are the same but for lines is the same. -/
theorem alike_generate (h : tree.unlined = tree'.unlined)
    (hlabels : context.labels = context'.labels)
    (hname : context.title?.getD tree.name = context'.title?.getD tree'.name) :
    Alike id ((generate tree).run context) ((generate tree').run context') := by
  have hlines (lines : List Line) : lines.map (Line.renumbered (· + 0)) = lines :=
    (List.map_congr_left fun line _ => line.renumbered_id).trans (List.map_id lines)
  have hsame := run_program_of_unlined_eq h (context.title?.getD tree.name) context.labels
  change Alike id (generate tree context) (generate tree' context')
  unfold generate generateIn
  rw [← hlabels, ← hname]
  revert hsame
  cases (Code.program tree (context.title?.getD tree.name)).run context.labels with
  | mk lines counter result =>
      cases (Code.program tree' (context.title?.getD tree.name)).run context.labels with
      | mk lines' counter' result' =>
          intro hsame
          obtain ⟨hmapped, -, hresult⟩ := Code.Emission.mk.inj hsame
          rw [hlines, hlines] at hmapped
          subst hmapped
          cases result with
          | ok done =>
              cases result' with
              | ok done' => exact .ok rfl
              | error fault' => cases hresult
          | error fault =>
              cases result' with
              | ok done' => cases hresult
              | error fault' =>
                  refine .error ?_
                  change fault.diagnostic.relined _ = fault'.diagnostic.relined _
                  rw [← fault.diagnostic_relined, ← fault'.diagnostic_relined]
                  exact congrArg Code.Fault.diagnostic (Except.error.inj hresult)

/-! ### Sequences of stages -/

/-- The same tokens at other lines are checked alike. -/
theorem alike_checkTokens (h : tokens.map Located.token = tokens'.map Located.token) :
    Alike Tree.unlined ((checkTokens tokens).run context) ((checkTokens tokens').run context') :=
  (alike_parse h).bind fun _ _ _ _ _ _ hsame => alike_check hsame

/-- The same tokens at other lines are compiled to the same listing. -/
theorem alike_compileTokens (h : tokens.map Located.token = tokens'.map Located.token)
    (context : Context) :
    Alike id ((compileTokens tokens).run context) ((compileTokens tokens').run context) := by
  refine (alike_checkTokens h).bind fun tree tree' middle middle' hrun hrun' hsame => ?_
  have hlabels : middle.labels = middle'.labels :=
    (labels_of_checkTokens hrun).trans (labels_of_checkTokens hrun').symm
  obtain ⟨outline, -, hparse, -⟩ := exists_checkedProgram hrun
  obtain ⟨outline', -, hparse', -⟩ := exists_checkedProgram hrun'
  have hname : outline.unlined.name = outline'.unlined.name := by
    rcases Outline.parse_of_tokens_eq h with
      ⟨found, found', hfound, hfound', houtline⟩ | ⟨error, error', herror, -⟩
    · obtain rfl := Except.ok.inj (hparse.symm.trans hfound)
      obtain rfl := Except.ok.inj (hparse'.symm.trans hfound')
      exact congrArg Outline.name houtline
    · cases hparse.symm.trans herror
  refine alike_generate hsame hlabels ?_
  rw [title?_of_checkTokens hparse hrun, title?_of_checkTokens hparse' hrun']
  exact hname

end Compilation

/-- **Layout never affects the code.**  Texts with the same lexemes, but for the case of
letters outside quotes, are compiled to the same listing, or refused with the same
diagnostic but for its line, whatever stands between their lexemes.  The same holds of the
stages after the scan, for the same tokens at whatever lines. -/
theorem compile_layout :
    (∀ (source source' : String) (lexemes lexemes' : List (List Char)) (context : Context),
      HasLexemes source.toList lexemes → HasLexemes source'.toList lexemes' →
      lexemes.map foldCase = lexemes'.map foldCase →
        Compilation.Alike id ((compile source).run context) ((compile source').run context)) ∧
    ∀ (tokens tokens' : List Located) (context : Context),
      tokens.map Located.token = tokens'.map Located.token →
        Compilation.Alike Tree.unlined ((Compilation.parse tokens).run context)
          ((Compilation.parse tokens').run context) ∧
        Compilation.Alike Tree.unlined ((Compilation.checkTokens tokens).run context)
          ((Compilation.checkTokens tokens').run context) ∧
        Compilation.Alike id ((Compilation.compileTokens tokens).run context)
          ((Compilation.compileTokens tokens').run context) := by
  constructor
  · intro source source' lexemes lexemes' context h h' hsame
    obtain ⟨tokens, tokens', hscan, hscan', htokens⟩ := exists_scan_of_foldCase_eq h h' hsame 1 1
    unfold compile Compilation.scan
    rw [hscan, hscan']
    exact Compilation.alike_compileTokens htokens context
  · intro tokens tokens' context h
    exact ⟨Compilation.alike_parse h, Compilation.alike_checkTokens h,
      Compilation.alike_compileTokens h context⟩

/-- The source of a program on one line, in small letters. -/
def narrowProgram : String :=
  "program p; var x: integer; begin x := 1; write(x, 'aB') end."

/-- The source of the same program on several lines, with comments and capitals. -/
def wideProgram : String :=
  "PROGRAM P;{p}\nVar X/*x*/:Integer;BEGIN\n\nX:=1;Write(x,'aB')End."

/-- A program is compiled alike in both layouts, and one that uses an undeclared variable
is refused alike at two lines. -/
theorem compile_layout_capitals :
    (∃ lexemes lexemes', HasLexemes narrowProgram.toList lexemes ∧
      HasLexemes wideProgram.toList lexemes' ∧ lexemes.map foldCase = lexemes'.map foldCase ∧
      Compilation.Alike id ((compile narrowProgram).run (.fresh false false))
        ((compile wideProgram).run (.fresh false false))) ∧
    ∃ tokens tokens', Compilation.scan "program p; begin x := 1 end." = .ok tokens ∧
      Compilation.scan "program p;\nbegin\nx := 1\nend." = .ok tokens' ∧
      tokens.map Located.token = tokens'.map Located.token ∧
      Compilation.Alike Tree.unlined ((Compilation.checkTokens tokens).run (.fresh false false))
        ((Compilation.checkTokens tokens').run (.fresh false false)) := by
  constructor
  · have hok : ((lexemesWithin 99 narrowProgram.toList).any fun lexemes =>
        (lexemesWithin 99 wideProgram.toList).any fun lexemes' =>
          decide (lexemes.map foldCase = lexemes'.map foldCase)) = true := by
      decide +kernel
    obtain ⟨lexemes, hfound, hothers⟩ := (Option.any_eq_true _ _).mp hok
    obtain ⟨lexemes', hfound', hdecided⟩ := (Option.any_eq_true _ _).mp hothers
    have h := hasLexemes_of_lexemesWithin hfound
    have h' := hasLexemes_of_lexemesWithin hfound'
    have hsame := of_decide_eq_true hdecided
    exact ⟨lexemes, lexemes', h, h', hsame, compile_layout.1 _ _ _ _ _ h h' hsame⟩
  · have hok : Compilation.passes (fun tokens => Compilation.passes (fun tokens' =>
        decide (tokens.map Located.token = tokens'.map Located.token))
        (Compilation.scan "program p;\nbegin\nx := 1\nend."))
        (Compilation.scan "program p; begin x := 1 end.") = true := by
      decide +kernel
    obtain ⟨tokens, hscan, hothers⟩ := Compilation.exists_of_passes hok
    obtain ⟨tokens', hscan', hdecided⟩ := Compilation.exists_of_passes hothers
    have hsame := of_decide_eq_true hdecided
    exact ⟨tokens, tokens', hscan, hscan', hsame, (compile_layout.2 _ _ _ hsame).2.1⟩

end MiniPascal
