import MiniPascal.Proofs.Check.Closed
import MiniPascal.Proofs.Code.Generated
import MiniPascal.Proofs.Compile.Stages

/-!
# Compiling is total

Whatever the text and the context, a compilation ends with a listing or with a
diagnostic for the author of the program.  What scanning, parsing and checking
refuse, they refuse with such a diagnostic; and nothing that passed a check is
refused afterwards.
-/

namespace MiniPascal

open MiniPascal.Assembly

/-! ### Refusals -/

theorem Token.Scan.Fault.isUserLevel_diagnostic (fault : Token.Scan.Fault) (line : Nat) :
    (fault.diagnostic line).isUserLevel = true := by
  cases fault <;> rfl

/-- A text that can not be scanned has a lexical error. -/
theorem Token.isUserLevel_of_scan {line : Nat} {source : List Char} {diagnostic : Diagnostic}
    (h : (Token.scan line source).result = .error diagnostic) : diagnostic.isUserLevel = true := by
  fun_induction Token.scan line source with
  | case1 line source hstep => cases h
  | case2 line source skipped rest hstep ih => exact ih h
  | case3 line source token rest hstep scanned ih =>
      cases hresult : scanned.result with
      | error found =>
          simp only [hresult, Except.map] at h
          cases h
          exact ih hresult
      | ok tokens =>
          simp only [hresult, Except.map] at h
          cases h
  | case4 line source fault hstep =>
      cases h
      exact fault.isUserLevel_diagnostic line

namespace Compilation

/-- Tokens that do not parse or do not check are refused for the author to see. -/
theorem isUserLevel_of_checkTokens {tokens : List Located} {context final : Context}
    {diagnostic : Diagnostic} (h : (checkTokens tokens).run context = .error diagnostic final) :
    diagnostic.isUserLevel = true := by
  change EStateM.bind (parse tokens) check context = _ at h
  unfold EStateM.bind parse at h
  cases hparse : (Outline.parse tokens).result with
  | error error =>
      simp only [hparse] at h
      cases h
      rfl
  | ok outline =>
      simp only [hparse] at h
      obtain ⟨skeleton, hskeleton⟩ := Outline.exists_skeleton outline
      unfold check checkIn at h
      simp only at h
      split at h
      · cases h
      · next hresult =>
          cases h
          have houtcome := (Tree.check_outcome hskeleton
            (context.log.recordAll (Outline.parse tokens).trace)).2
          rw [hresult] at houtcome
          exact houtcome.1

end Compilation

/-! ### Checked trees -/

/-- Everything that code needs is there: each name in a statement is bound to a
declaration, and each declaration has its storage or its number. -/
structure Tree.Resolved (tree : Tree) : Prop where
  bound : ∀ (id : BlockId) (block : Block), tree.blocks[id]? = some block →
    ∀ use ∈ Statement.usesAll block.statements,
      ∃ decl, use.2.decl? = some decl ∧ decl < tree.decls.size
  settled : ∀ id < tree.decls.size, tree.Settled id

namespace CheckedProgram

variable {outline : Outline} {skeleton : Skeleton} {tree : Tree}

theorem resolved (program : CheckedProgram outline skeleton tree) : tree.Resolved where
  settled _ := program.settled
  bound id block hblock use huse := by
    by_cases hlibrary : id = libraryBlock
    · subst hlibrary
      rw [program.library_eq] at hblock
      obtain rfl := Option.some.inj hblock
      cases huse
    · have hid := program.mem_blockIds hlibrary (Array.getElem?_eq_some_iff.mp hblock).1
      obtain ⟨site, body, -, rfl, hchecked⟩ := program.exists_occurs hid
      obtain ⟨found, hfound, -, hbound⟩ := Code.exists_block hchecked.node
      obtain rfl := Option.some.inj (hblock.symm.trans hfound)
      obtain ⟨decl, _, hdecl, -, hsome, -⟩ := hbound use huse
      exact ⟨decl, hdecl, (Array.getElem?_eq_some_iff.mp hsome).1⟩

/-- The listing of a checked program can be generated in every context. -/
theorem exists_listing (program : CheckedProgram outline skeleton tree) (context : Context) :
    ∃ listing final, (Compilation.generate tree).run context = .ok listing final := by
  obtain ⟨lines, counter, done, hemits, -⟩ :=
    Code.succeeds_program program (context.title?.getD tree.name) context.labels
  refine ⟨Listing.empty.append (lines.map Line.listed), { context with labels := counter }, ?_⟩
  change Compilation.generate tree context = _
  unfold Compilation.generate Compilation.generateIn
  change (Code.program tree (context.title?.getD tree.name)).run context.labels = _ at hemits
  rw [hemits]
  rfl

end CheckedProgram

/-- **Compiling is total.**  A compilation fails for reasons its author can act on
alone.  However a check ends, the tree refers to nothing that is not there; and once
tokens parse and check, everything that code needs is there, and the listing of their
tree is generated, in whatever context. -/
theorem compile_total :
    (∀ (source : String) (context final : Context) (diagnostic : Diagnostic),
      (compile source).run context = .error diagnostic final → diagnostic.isUserLevel = true) ∧
    (∀ (outline : Outline) (log : Log),
      (Tree.ofOutline outline).Closed ∧ ((Tree.ofOutline outline).check log).tree.Closed) ∧
    ∀ (tokens : List Located) (context final : Context) (tree : Tree),
      (Compilation.checkTokens tokens).run context = .ok tree final →
        tree.Closed ∧ tree.Resolved ∧ ∀ context' : Context, ∃ listing final',
          (Compilation.generate tree).run context' = .ok listing final' := by
  refine ⟨?_, ?_, ?_⟩
  · intro source context final diagnostic h
    unfold compile at h
    split at h
    · next tokens hscan =>
        change EStateM.bind (Compilation.checkTokens tokens) Compilation.generate context = _ at h
        unfold EStateM.bind at h
        split at h
        · next tree middle htokens =>
            obtain ⟨outline, skeleton, -, -, program⟩ :=
              Compilation.exists_checkedProgram htokens
            obtain ⟨listing, last, hlisting⟩ := program.exists_listing middle
            cases h.symm.trans hlisting
        · next found middle htokens =>
            cases h
            exact Compilation.isUserLevel_of_checkTokens htokens
    · next found hscan =>
        cases h
        exact Token.isUserLevel_of_scan hscan
  · intro outline log
    obtain ⟨skeleton, hskeleton⟩ := Outline.exists_skeleton outline
    exact ⟨hskeleton.closed, (Tree.check_outcome hskeleton log).1.closed hskeleton⟩
  · intro tokens context final tree h
    obtain ⟨outline, skeleton, -, underway, program⟩ := Compilation.exists_checkedProgram h
    exact ⟨underway.closed program.hasSkeleton, program.resolved, program.exists_listing⟩

/-- A program with a function, a constant and a call compiles, and one that assigns
to a constant is refused as its author's fault. -/
theorem compile_total_function :
    (∃ tokens tree final,
      Compilation.scan "program p; const c = 2; function f(a: integer): integer;
        begin f := a + c end; begin write(f(c)) end." = .ok tokens ∧
      (Compilation.checkTokens tokens).run (.fresh false false) = .ok tree final ∧
      tree.Closed ∧ tree.Resolved ∧
      ∃ listing final', (Compilation.generate tree).run final = .ok listing final') ∧
    ∃ diagnostic final,
      (compile "program p; const c = 2; begin c := 1 end.").run (.fresh false false) =
        .error diagnostic final ∧ diagnostic.isUserLevel = true := by
  constructor
  · have hok : Compilation.checksWith (fun _ => true)
        "program p; const c = 2; function f(a: integer): integer;
        begin f := a + c end; begin write(f(c)) end." = true := by
      decide +kernel
    obtain ⟨tokens, tree, final, hscan, hcheck, -⟩ := Compilation.exists_of_checksWith hok
    obtain ⟨hclosed, hresolved, hgenerate⟩ :=
      compile_total.2.2 tokens (.fresh false false) final tree hcheck
    exact ⟨tokens, tree, final, hscan, hcheck, hclosed, hresolved, hgenerate final⟩
  · have hrefused : Compilation.endsWith (fun _ _ => true)
        ((compile "program p; const c = 2; begin c := 1 end.").run (.fresh false false)) =
          false := by
      decide +kernel
    obtain ⟨diagnostic, final, hcompile⟩ := Compilation.exists_error_of_endsWith hrefused
    exact ⟨diagnostic, final, hcompile, compile_total.1 _ _ final diagnostic hcompile⟩

end MiniPascal
