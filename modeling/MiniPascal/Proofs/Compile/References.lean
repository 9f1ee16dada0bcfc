import MiniPascal.Proofs.Check.References
import MiniPascal.Proofs.Compile.Names

/-!
# The log of bindings

A text that is scanned, parsed and checked has a line in the log for each reference of its
tree.  Declarations of the text stand on its lines, and only those of the library on none, so
the lines tell truly which is which.
-/

namespace MiniPascal

/-- The declarations in a table. -/
theorem mem_tableOf_iff {declared : List Numbered} {id : DeclId} :
    (tableOf declared).any (·.2 == id) = true ↔ ∃ x ∈ declared, x.id = id := by
  simp [tableOf]

/-- In a checked program the declarations on no line are those in the table of the library. -/
theorem CheckedProgram.unlined_eq {outline : Outline} {skeleton : Skeleton} {tree : Tree}
    (program : CheckedProgram outline skeleton tree) (underway : Check.Underway outline tree)
    (htold : Tells IsWord (1 ≤ ·) outline.spots) {id : DeclId} {decl : Decl}
    (hdecl : tree.decls[id]? = some decl) : Decl.unlined id decl = tree.inLibrary id := by
  have htable : tree.tableAt libraryBlock =
      tableOf (Library.numbered (Tree.ofOutline outline).decls.size) := by
    rw [Tree.tableAt, program.library_eq]
    rfl
  have hsame := underway.erased_decl program.hasSkeleton id
  rw [hdecl, Option.map_some] at hsame
  rw [Bool.eq_iff_iff, Tree.inLibrary, htable, mem_tableOf_iff, Decl.unlined, beq_iff_eq]
  split at hsame
  · next hlt =>
      obtain ⟨parsed, hparsed, herased⟩ := Option.map_eq_some_iff.mp hsame.symm
      have hline : parsed.erased.line = decl.erased.line := congrArg Decl.line herased
      change parsed.line = decl.line at hline
      have hone : 1 ≤ decl.line := by
        rw [← hline]
        exact (Outline.ofOutline_declared htold parsed (Array.mem_of_getElem? hparsed)).2
      constructor
      · exact fun hnone => absurd hone (hnone ▸ Nat.not_succ_le_zero 0)
      · rintro ⟨x, hx, rfl⟩
        exact absurd hlt (Nat.not_lt.mpr (Library.id_lt_of_mem_numberFrom hx).1)
  · next hge =>
      constructor
      · intro _
        have hlt := (Array.getElem?_eq_some_iff.mp hdecl).1
        rw [program.decls_size] at hlt
        exact Library.exists_of_id (Nat.not_lt.mp hge) hlt
      · exact fun _ => Library.line_eq decl.erased (List.mem_of_getElem? hsame.symm)

namespace Compilation

/-- Recording a parse leaves the switch of the bindings alone. -/
theorem binding_recordAll (log : Log) (trace : List TraceEvent) :
    (log.recordAll trace).binding = log.binding := by
  induction trace generalizing log with
  | nil => rfl
  | cons event events ih =>
      refine (ih (log.record event)).trans ?_
      cases event <;> (simp only [Log.record, Log.enter, Log.leave]; split <;> rfl)

/-- **Each reference is resolved once, and logged truly.**  When a text parses and checks with
the log of bindings switched on, the check adds one line for each reference of its tree, in
order: the name and the line of the reference, and the line of the declaration that it carries
in the end, or that this is in the table of the library.  The references are all the uses of
names in the declarations and the statements of the tree, each met once. -/
theorem check_references {source : String} {tokens : List Located}
    {context middle final : Context} {parsed tree : Tree} (hscan : scan source = .ok tokens)
    (hparse : (parse tokens).run context = .ok parsed middle)
    (hcheck : (check parsed).run middle = .ok tree final)
    (hswitch : context.log.binding = true) :
    ∃ lines, final = { middle with log := middle.log.append lines } ∧
      tree.references.map tree.note? = lines.map some ∧
      tree.references.Perm ((List.range tree.decls.size).flatMap tree.usesAt ++
        (List.range tree.blocks.size).flatMap fun block =>
          Statement.usesAll (tree.statementsOf block)) := by
  obtain ⟨outline, houtline, rfl⟩ := exists_outline_of_parse hparse
  obtain ⟨skeleton, h⟩ := outline.exists_skeleton
  have hmiddle : middle.log.binding = true := by
    rw [run_parse_of_ok houtline] at hparse
    obtain ⟨-, rfl⟩ := EStateM.Result.ok.inj hparse
    exact (binding_recordAll _ _).trans hswitch
  obtain ⟨underway, houtcome⟩ := Tree.check_outcome h middle.log
  cases hresult : ((Tree.ofOutline outline).check middle.log).result with
  | error diagnostic =>
      rw [run_check_of_error hresult] at hcheck
      cases hcheck
  | ok _ =>
      rw [run_check_of_ok hresult] at hcheck
      obtain ⟨rfl, rfl⟩ := EStateM.Result.ok.inj hcheck
      rw [hresult] at houtcome
      have program : CheckedProgram outline skeleton
          ((Tree.ofOutline outline).check middle.log).tree := houtcome
      obtain ⟨lines, hlog, hnotes⟩ := Tree.exists_notes_of_check hmiddle hresult
      have htold := Outline.tells_of_parse hscan houtline
      rw [Tree.noteBy_unlined_eq fun id decl hdecl =>
        program.unlined_eq underway htold hdecl] at hnotes
      exact ⟨lines, by rw [hlog], hnotes, underway.perm_references h⟩

/-- The references of a program with a function. -/
theorem check_references_function :
    ∃ tokens parsed middle tree final,
      scan "program p; type t = integer;
        function f(a: t): boolean; begin f := a < 2 end;
        begin if f(1) then write(eol) end." = .ok tokens ∧
      (parse tokens).run (.fresh false true) = .ok parsed middle ∧
      (check parsed).run middle = .ok tree final ∧
      final.log.lines = #["Binding on line 1: integer was declared in the library",
        "Binding on line 2: boolean was declared in the library",
        "Binding on line 2: t was declared on line 1",
        "Binding on line 2: f was declared on line 2",
        "Binding on line 2: a was declared on line 2",
        "Binding on line 3: f was declared on line 2",
        "Binding on line 3: write was declared in the library",
        "Binding on line 3: eol was declared in the library"] ∧
      ∃ lines, final = { middle with log := middle.log.append lines } ∧
        tree.references.map tree.note? = lines.map some := by
  have hok : passes (fun tokens => endsWith (fun parsed middle => endsWith (fun _ final =>
        final.log.lines == #["Binding on line 1: integer was declared in the library",
          "Binding on line 2: boolean was declared in the library",
          "Binding on line 2: t was declared on line 1",
          "Binding on line 2: f was declared on line 2",
          "Binding on line 2: a was declared on line 2",
          "Binding on line 3: f was declared on line 2",
          "Binding on line 3: write was declared in the library",
          "Binding on line 3: eol was declared in the library"])
        ((check parsed).run middle)) ((parse tokens).run (.fresh false true)))
      (scan "program p; type t = integer;
        function f(a: t): boolean; begin f := a < 2 end;
        begin if f(1) then write(eol) end.") = true := by
    decide +kernel
  obtain ⟨tokens, hscan, htokens⟩ := exists_of_passes hok
  obtain ⟨parsed, middle, hparse, hparsed⟩ := exists_of_endsWith htokens
  obtain ⟨tree, final, hcheck, hlines⟩ := exists_of_endsWith hparsed
  obtain ⟨lines, hlog, hnotes, -⟩ := check_references hscan hparse hcheck rfl
  exact ⟨tokens, parsed, middle, tree, final, hscan, hparse, hcheck, eq_of_beq hlines, lines, hlog,
    hnotes⟩

end Compilation

end MiniPascal
