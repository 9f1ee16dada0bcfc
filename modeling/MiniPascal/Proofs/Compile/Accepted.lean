import MiniPascal.Proofs.Check.Nearest
import MiniPascal.Proofs.Compile.Stages

/-!
# What parses and checks

Tokens that parse are accepted by the check exactly if they make a well-formed program;
and in the tree of an accepted program every name is bound, those in statements to the
nearest declaration around them.
-/

namespace MiniPascal

/-- **The check accepts exactly the well-formed programs.**  It goes through a program
once, filling tables while it binds names; being well-formed does not mention any order. -/
theorem checkTokens_accepts_iff_wellFormed (tokens : List Located) (context : Context) :
    (∃ tree final, (Compilation.checkTokens tokens).run context = .ok tree final) ↔
      ∃ outline, (Outline.parse tokens).result = .ok outline ∧
        (Tree.ofOutline outline).WellFormed := by
  constructor
  · rintro ⟨tree, accepted⟩
    obtain ⟨outline, hparse, hresult, -⟩ := Compilation.checkTokens_eq_ok_iff.mp accepted
    exact ⟨outline, hparse, (Tree.check_eq_ok_iff outline _).mp hresult⟩
  · rintro ⟨outline, hparse, wellFormed⟩
    have hresult := (Tree.check_eq_ok_iff outline
      (context.log.recordAll (Outline.parse tokens).trace)).mpr wellFormed
    exact ⟨_, Compilation.checkTokens_eq_ok_iff.mpr ⟨outline, hparse, hresult, rfl⟩⟩

/-- Every name in a checked tree is bound, and each in a statement to the nearest
declaration around it. -/
structure Tree.NamesBound (outline : Outline) (tree : Tree) : Prop where
  declarations : ∀ (id : DeclId) (decl : Decl), tree.decls[id]? = some decl → decl.kind.IsResolved
  statements : ∀ (id : BlockId) (block : Block), tree.blocks[id]? = some block →
    ∀ use ∈ Statement.usesAll block.statements,
      ∃ found, use.2.decl? = some found ∧ tree.lookup id use.2.name = some found
  /-- What is found is what the program declares nearest, or else the library. -/
  nearest : ∀ id < tree.blocks.size, ∀ name,
    ((tree.lookup id name).bind (tree.decls[·]?)).map Decl.erased =
      ((Tree.ofOutline outline).meaning id name).map Decl.erased
  /-- At some moment of a check the statements of a block are bound. -/
  moment : ∀ log, ∀ id < tree.blocks.size, id ≠ libraryBlock →
    ∃ state, Check.ProgramBindsStatements
      { tree := .ofOutline outline, scope := .library, log } id state
  /-- No step after that moment changes what their names stand for. -/
  stays : ∀ log id state, Check.ProgramBindsStatements
      { tree := .ofOutline outline, scope := .library, log } id state →
    state.tree.lookup id = tree.lookup id

/-- **Names are bound to the nearest declaration.** -/
theorem checkTokens_binds_nearest {tokens : List Located} {context final : Context} {tree : Tree}
    (accepted : (Compilation.checkTokens tokens).run context = .ok tree final) :
    ∃ outline, (Outline.parse tokens).result = .ok outline ∧ tree.NamesBound outline := by
  obtain ⟨outline, skeleton, hparse, underway, program⟩ :=
    Compilation.exists_checkedProgram accepted
  obtain ⟨outline', hparse', hresult, -⟩ := Compilation.checkTokens_eq_ok_iff.mp ⟨final, accepted⟩
  obtain rfl := Except.ok.inj (hparse.symm.trans hparse')
  refine ⟨outline, hparse, ?_⟩
  constructor
  case declarations => exact fun id decl hdecl => program.isResolved hdecl
  case statements => exact fun id block hblock use huse => program.decl?_eq_lookup hblock huse
  case nearest => exact fun id hid => program.means underway hid
  case moment =>
    intro log id hid hlibrary
    have wellFormed := (Tree.check_eq_ok_iff outline _).mp hresult
    exact CheckedProgram.exists_bindsStatements program.hasSkeleton
      ((Tree.check_eq_ok_iff outline log).mpr wellFormed) (program.mem_blockIds hlibrary hid)
  case stays => exact fun log id state binds => program.lookup_of_bindsStatements binds

/-- A parameter hides a variable of the program, and a local procedure the library's. -/
theorem checkTokens_binds_nearest_shadowing :
    ∃ tokens tree final, Compilation.scan "program p; var x: integer;
        procedure q(x: char); procedure write; begin x := 'a' end; begin write end;
        begin x := 1; q('b') end." = .ok tokens ∧
      (Compilation.checkTokens tokens).run (.fresh false false) = .ok tree final ∧
      ∃ outline, (Outline.parse tokens).result = .ok outline ∧ tree.NamesBound outline := by
  have hok : Compilation.checksWith (fun _ => true) "program p; var x: integer;
        procedure q(x: char); procedure write; begin x := 'a' end; begin write end;
        begin x := 1; q('b') end." = true := by
    decide +kernel
  obtain ⟨tokens, tree, final, hscan, hcheck, -⟩ := Compilation.exists_of_checksWith hok
  exact ⟨tokens, tree, final, hscan, hcheck, checkTokens_binds_nearest hcheck⟩

end MiniPascal
