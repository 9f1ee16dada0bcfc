import MiniPascal.Proofs.Activations.Loading
import MiniPascal.Proofs.Code.Accesses
import MiniPascal.Proofs.Compile.Stages
import MiniPascal.Proofs.Frames.Words

/-!
# Words that compiled programs access

The code of a block takes words of its display to reach the words of declarations.  Each of
these lies in a frame around the block, at the level and the offset of its layout, and the
result of a function is stored inside the body of the function alone.
-/

namespace MiniPascal

open MiniPascal.Assembly
open MiniPascal.Code

/-- The code of a block takes display words only to access words in frames around the block,
and stores to nothing else.  If it stores to the word of a function's result, the block is
the body of the function or inside it. -/
structure Tree.AccessesWords (tree : Tree) (block : BlockId) (code : List Line) : Prop where
  fetches : ∀ before line after offset, code = before ++ line :: after →
    line.fetched? = some offset → ∃ id layout next rest, after = next :: rest ∧
      offset = Frame.displayOffset layout.frameLevel ∧ tree.Reaches block id layout ∧
      BlockUse tree block id layout next
  stores : ∀ before line after offset, code = before ++ line :: after →
    line.stored? = some offset → ∃ id layout front,
      before = front ++ [.instruction none (.move layout.base .edx) ""] ∧
      offset = layout.offset ∧ tree.Reaches block id layout ∧ BlockUse tree block id layout line
  results : ∀ before fetch line after level offset, code = before ++ fetch :: line :: after →
    fetch.fetched? = some (Frame.displayOffset level) → line.stored? = some offset →
    ∀ function body layout holder owner, tree.bodyOf? function = some body →
      tree.HasWord function layout holder owner → tree.frameAt block level = some owner →
      offset = layout.offset → tree.isWithin block body = true

namespace Code.BlockUse

variable {tree : Tree} {block : BlockId} {id : DeclId} {layout : Layout} {next : Line}

theorem fetched?_eq_none (h : BlockUse tree block id layout next) : next.fetched? = none := by
  cases h with
  | name _ huse => cases huse <;> rfl
  | result => rfl

/-- Only a name that is assigned to has its word stored. -/
theorem exists_target (h : BlockUse tree block id layout next) {offset : Int}
    (hstored : next.stored? = some offset) : offset = layout.offset ∧
      ∃ body ref decl, tree.blocks[block]? = some body ∧
        (.target, ref) ∈ Statement.usesAll body.statements ∧ ref.decl? = some id ∧
        tree.decls[id]? = some decl ∧ decl.layout? = some layout := by
  cases h with
  | name hbody huse =>
      cases huse with
      | load => cases hstored
      | store huse hid hdecl hlayout =>
          exact ⟨(Option.some.inj hstored).symm, _, _, _, hbody, huse, hid, hdecl, hlayout⟩
  | result => cases hstored

/-- What the code of a block accesses is in its reach. -/
theorem reaches {outline : Outline} {skeleton : Skeleton} (h : BlockUse tree block id layout next)
    (program : CheckedProgram outline skeleton tree) : tree.Reaches block id layout := by
  cases h with
  | name hbody huse =>
      cases huse with
      | load huse hid hdecl hlayout =>
          exact program.reaches_of_use hbody huse (.inl rfl) hid hdecl hlayout
      | store huse hid hdecl hlayout =>
          exact program.reaches_of_use hbody huse (.inr rfl) hid hdecl hlayout
  | result hdecl hkind _ hparams hbody hlayout =>
      exact program.reaches_of_result hdecl hkind hparams hbody hlayout

end Code.BlockUse

namespace CheckedProgram

variable {outline : Outline} {skeleton : Skeleton} {tree : Tree}

theorem accessesWords (program : CheckedProgram outline skeleton tree) {block : BlockId}
    {code : List Line} (h : Accessing (BlockUse tree block) code) :
    tree.AccessesWords block code where
  fetches before line after offset hcode hfetched := by
    obtain ⟨id, layout, next, rest, hafter, hoffset, huse⟩ :=
      h.exists_of_fetched (fun _ _ _ huse => huse.fetched?_eq_none) hcode hfetched
    exact ⟨id, layout, next, rest, hafter, hoffset, huse.reaches program, huse⟩
  stores before line after offset hcode hstored := by
    obtain ⟨id, layout, front, hbefore, huse⟩ := h.exists_of_stored hcode hstored
    obtain ⟨hoffset, -⟩ := huse.exists_target hstored
    exact ⟨id, layout, front, hbefore, hoffset, huse.reaches program, huse⟩
  results before fetch line after level offset hcode hfetched hstored function body layout holder
      owner hbody hhas hframe hoffset := by
    obtain ⟨id, layout', next, rest, hafter, hlevel, huse⟩ :=
      h.exists_of_fetched (fun _ _ _ huse => huse.fetched?_eq_none) hcode hfetched
    obtain ⟨rfl, -⟩ := List.cons.inj hafter
    obtain ⟨hplace, found, ref, decl, hblock, htarget, hid, hdecl, hlayout⟩ :=
      huse.exists_target hstored
    have hsame : level = layout'.frameLevel := by
      simp only [Frame.displayOffset, Frame.wordSize] at hlevel
      omega
    rw [hsame] at hframe
    exact program.isWithin_of_target hblock htarget hid hdecl hlayout hbody hhas hframe
      (hplace.symm.trans hoffset)

/-- A body without a frame is that of a routine without parameters. -/
theorem params_of_shares (program : CheckedProgram outline skeleton tree) {id : DeclId}
    {decl : Decl} (hdecl : tree.decls[id]? = some decl) {heading : Routine}
    (hkind : decl.kind = .routine heading) {block : BlockId} (hbody : heading.body = some block)
    {body : Block} (hblock : tree.blocks[block]? = some body)
    (hshares : body.ownsFrame block = false) : heading.params = [] := by
  have howns := program.ownsFrame_body hdecl hkind hbody hblock
  rw [hshares] at howns
  apply List.isEmpty_iff.mp
  cases hempty : heading.params.isEmpty with
  | true => rfl
  | false =>
      rw [hempty] at howns
      cases howns

/-- The code of every block of a program accesses words in frames around the block. -/
theorem accessesWords_of_blockCodes (program : CheckedProgram outline skeleton tree)
    {labels : RoutineLabels} {label : Label} {name : String} {lines : List Line}
    {blocks : List (BlockId × List Line)} (h : BlockCodes tree labels label name lines blocks)
    {block : BlockId} {code : List Line} (hcode : (block, code) ∈ blocks) :
    tree.AccessesWords block code := by
  apply program.accessesWords
  cases h.code (block, code) hcode with
  | routine hbodyOf hroutine =>
      obtain ⟨decl, heading, bodyId, known, counter, final, found⟩ := hroutine
      obtain rfl := Option.some.inj (hbodyOf.symm.trans found.bodyOf?_eq)
      exact found.code.accessing found.decl_eq found.kind_eq found.body_eq fun body hblock =>
        program.params_of_shares found.decl_eq found.kind_eq found.body_eq hblock
  | program _ hbody hemits => exact accessing_framedBody hbody hemits

end CheckedProgram

/-- **Accesses stay inside the display.**  The code of a tree that tokens parse and check to
consists of that of its entry and that of its blocks.  Wherever the code of a block takes a
display word, its level is that of the frame with the word of a declaration that a name in
the block is bound to, or of the result of the block's own function; there is such a level
in the display, the frame is that of a block around it, and the next line accesses the word
at its offset.  The result of a function is stored in its body only.  Everything with storage
has its word in one of these frames. -/
theorem checkTokens_accesses {tokens : List Located} {context final : Context} {tree : Tree}
    (accepted : (Compilation.checkTokens tokens).run context = .ok tree final) (name : String)
    (counter : Nat) :
    ∃ lines last labels blocks, (Code.program tree name).Emits counter lines last () ∧
      BlockCodes tree labels (.unit Label.programStem name (counter + 1)) name lines blocks ∧
      (∀ block code, (block, code) ∈ blocks → tree.AccessesWords block code) ∧
      ∀ id layout, tree.layout? id = some layout →
        ∃ holder owner, tree.HasWord id layout holder owner := by
  obtain ⟨outline, skeleton, -, -, program⟩ := Compilation.exists_checkedProgram accepted
  obtain ⟨lines, last, done, hemits, -⟩ := succeeds_program program name counter
  obtain ⟨labels, blocks, hblocks⟩ := exists_blockCodes program hemits
  refine ⟨lines, last, labels, blocks, hemits, hblocks, ?_, ?_⟩
  · exact fun _ _ hcode => program.accessesWords_of_blockCodes hblocks hcode
  · intro id layout hlayout
    obtain ⟨holder, owner, hhas, -⟩ := program.exists_word hlayout
    exact ⟨holder, owner, hhas⟩

/-- The source of a program with functions that assign to the results of those around them,
from bodies with and without a frame. -/
def nestedResults : String :=
  "program p; var x: integer;
    function f(a: integer): integer;
      function g: integer;
        procedure h(b: integer); begin g := a + b; f := g + x end;
      begin h(x); f := a end;
    begin x := g; f := x end;
    begin x := f(2) end."

/-- The accesses of this program stay inside the display. -/
theorem checkTokens_accesses_nestedResults :
    ∃ tokens tree final lines last labels blocks,
      Compilation.scan nestedResults = .ok tokens ∧
      (Compilation.checkTokens tokens).run (.fresh false false) = .ok tree final ∧
      (Code.program tree "p").Emits 0 lines last () ∧
      BlockCodes tree labels (.unit Label.programStem "p" 1) "p" lines blocks ∧
      (∀ block code, (block, code) ∈ blocks → tree.AccessesWords block code) ∧
      ∀ id layout, tree.layout? id = some layout →
        ∃ holder owner, tree.HasWord id layout holder owner := by
  have hok : Compilation.checksWith (fun _ => true) nestedResults = true := by
    decide +kernel
  obtain ⟨tokens, tree, final, hscan, hcheck, -⟩ := Compilation.exists_of_checksWith hok
  obtain ⟨lines, last, labels, blocks, hemits, hblocks, haccesses⟩ :=
    checkTokens_accesses hcheck "p" 0
  exact ⟨tokens, tree, final, lines, last, labels, blocks, hscan, hcheck, hemits, hblocks,
    haccesses⟩

end MiniPascal
