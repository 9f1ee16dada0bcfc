import MiniPascal.Proofs.Code.Generated
import MiniPascal.Proofs.Compile.Stages
import MiniPascal.Proofs.Spelled.Check
import MiniPascal.Proofs.Spelled.Code

/-!
# Named constants are transparent

The chain of every named constant ends, and the compiler takes the constant for what
stands at the end.  Where that is a literal, the program may as well contain the literal:
put in the place of names of constants, it passes the check and leads to the same code.
-/

namespace MiniPascal

open MiniPascal.Assembly

namespace Tree

/-- The literal at the end of the chain that begins at a name in a block. -/
def literalOf? (tree : Tree) (block : BlockId) (ref : NameRef) : Option Literal := do
  match (← tree.decls[← tree.lookup block ref.name]?).kind with
  | .constant constant => tree.literal? constant
  | _ => none

/-- In a block a name stands for a literal. -/
def NamesLiteral (tree : Tree) (block : BlockId) (ref : NameRef) (value : Literal) : Prop :=
  tree.literalOf? block ref = some value

end Tree

/-- In the statements of a checked program, what names stand for is what they are written
as: they are bound to the declarations that are visible in their blocks. -/
theorem CheckedProgram.writtenAs {outline : Outline} {skeleton : Skeleton} {tree spelled : Tree}
    (program : CheckedProgram outline skeleton tree) (h : tree.Spelled tree.NamesLiteral spelled) :
    tree.Spelled (fun _ => tree.WrittenAs) spelled := by
  refine h.mono fun id block hblock use huse value hvalue => ?_
  obtain ⟨found, hfound, hlookup⟩ := program.decl?_eq_lookup hblock huse
  unfold Tree.NamesLiteral Tree.literalOf? at hvalue
  unfold Tree.WrittenAs Tree.argumentLiteral?
  rw [hlookup] at hvalue
  dsimp only
  rw [hfound]
  exact hvalue

/-- **Named constants are transparent.**  Of a program that parses and checks:

* from every constant the names lead to the declaration of a literal or to an enumeration
  literal and never back, and the number and the literal that the compiler finds for the
  constant are those of this end;
* if names of constants that end in literals, used without an index in its statements, are
  replaced by these literals, whichever of them and wherever, then it still checks, and its
  code is the same line by line, data and calls of the run-time functions included, but
  for comments. -/
theorem checkTokens_transparent {tokens : List Located} {context final : Context} {tree : Tree}
    (accepted : (Compilation.checkTokens tokens).run context = .ok tree final) :
    (∀ id decl constant, tree.decls[id]? = some decl → decl.kind = .constant constant →
      ¬Relation.TransGen tree.NamedAfter id id ∧
        ∃ last value literal?, Relation.ReflTransGen tree.NamedAfter id last ∧
          tree.IsEnd last value literal? ∧ tree.constantValue constant = .ok value ∧
          tree.declValue decl = .ok value ∧ tree.literal? constant = literal?) ∧
    ∀ parsed middle, (Compilation.parse tokens).run context = .ok parsed middle →
      ∀ spelled, parsed.Spelled tree.NamesLiteral spelled → ∀ log,
        (spelled.check log).result = .ok () ∧
        ∀ name counter, ∃ lines lines' last,
          (Code.program tree name).Emits counter lines last () ∧
          (Code.program (spelled.check log).tree name).Emits counter lines' last () ∧
          lines'.map Line.uncommented = lines.map Line.uncommented := by
  obtain ⟨outline, skeleton, hparse, -, program⟩ := Compilation.exists_checkedProgram accepted
  refine ⟨fun id decl constant hdecl hkind => program.chain_ends hdecl hkind, ?_⟩
  intro parsed middle hparsed spelled hspelled log
  rw [Compilation.run_parse_of_ok hparse] at hparsed
  obtain ⟨rfl, -⟩ := EStateM.Result.ok.inj hparsed
  obtain ⟨outline', hparse', hresult, htree⟩ :=
    Compilation.checkTokens_eq_ok_iff.mp ⟨final, accepted⟩
  obtain rfl := Except.ok.inj (hparse.symm.trans hparse')
  obtain ⟨haccepted, hfinal⟩ := hspelled.check (fun _ _ _ _ => id) hresult log
  rw [htree] at hfinal
  refine ⟨haccepted, fun name counter => ?_⟩
  obtain ⟨lines, last, _, hemits, -⟩ := Code.succeeds_program program name counter
  have hsame := Code.sameCode_program (program.writtenAs hfinal) (fun _ => program.settled) name
  obtain ⟨lines', hemits', hlines⟩ := hsame.exists_emits hemits
  exact ⟨lines, lines', last, hemits, hemits', hlines⟩

def Tree.statementNames (tree : Tree) : List String :=
  tree.blocks.toList.flatMap fun block =>
    (Statement.usesAll block.statements).map fun use => use.2.name

/-- A program with chains of constants, one of them through a constant that hides the one
it is named after, and with constants of all types among the arguments of `write`. -/
def chainedConstants : String :=
  "program p; const n = 5; m = n; c = 'x'; t = 'text'; u = t; type switch = (off, on);
   const k = on; var v: integer;
   procedure q(y: integer); const n = n; u = u; begin write(n, u, c, y + m) end;
   begin v := m + n; q(k); write(u, c, m, eol); if v > m then q((n)) end."

/-- Spelled out in all its constants, the program uses no constant but that for an
enumeration literal, and has the same code. -/
theorem checkTokens_transparent_chained :
    ∃ tokens tree final parsed middle, Compilation.scan chainedConstants = .ok tokens ∧
      (Compilation.checkTokens tokens).run (.fresh false false) = .ok tree final ∧
      (Compilation.parse tokens).run (.fresh false false) = .ok parsed middle ∧
      parsed.Spelled tree.NamesLiteral (parsed.spellOut tree.literalOf?) ∧
      (parsed.spellOut tree.literalOf?).statementNames =
        ["v", "q", "k", "write", "v", "q", "write", "y"] ∧
      (∀ id decl constant, tree.decls[id]? = some decl → decl.kind = .constant constant →
        ¬Relation.TransGen tree.NamedAfter id id ∧
          ∃ last value literal?, Relation.ReflTransGen tree.NamedAfter id last ∧
            tree.IsEnd last value literal? ∧ tree.constantValue constant = .ok value ∧
            tree.declValue decl = .ok value ∧ tree.literal? constant = literal?) ∧
      ∀ log, ((parsed.spellOut tree.literalOf?).check log).result = .ok () ∧
        ∀ name counter, ∃ lines lines' last,
          (Code.program tree name).Emits counter lines last () ∧
          (Code.program ((parsed.spellOut tree.literalOf?).check log).tree name).Emits
            counter lines' last () ∧
          lines'.map Line.uncommented = lines.map Line.uncommented := by
  have hnames : Compilation.passes (fun tokens => Compilation.endsWith (fun parsed _ =>
      Compilation.endsWith (fun tree _ => decide ((parsed.spellOut tree.literalOf?).statementNames =
          ["v", "q", "k", "write", "v", "q", "write", "y"]))
        ((Compilation.checkTokens tokens).run (.fresh false false)))
      ((Compilation.parse tokens).run (.fresh false false)))
      (Compilation.scan chainedConstants) = true := by
    decide +kernel
  obtain ⟨tokens, hscan, hparses⟩ := Compilation.exists_of_passes hnames
  obtain ⟨parsed, middle, hparse, hchecks⟩ := Compilation.exists_of_endsWith hparses
  obtain ⟨tree, final, haccepted, hdecided⟩ := Compilation.exists_of_endsWith hchecks
  have hspelled : parsed.Spelled tree.NamesLiteral (parsed.spellOut tree.literalOf?) :=
    Tree.spelled_spellOut (fun _ _ _ hvalue => hvalue) parsed
  obtain ⟨hchains, htransparent⟩ := checkTokens_transparent haccepted
  exact ⟨tokens, tree, final, parsed, middle, hscan, haccepted, hparse, hspelled,
    of_decide_eq_true hdecided, hchains, htransparent parsed middle hparse _ hspelled⟩

end MiniPascal
