import MiniPascal.Proofs.Code.Calls
import MiniPascal.Proofs.Compile.Bodies
import MiniPascal.Proofs.Frames.Exact

/-!
# Calls in listings

The bodies of a program's routines and its own block are written once each, under labels
that differ.  So a listing calls the label of a routine as often as the statements of
the program call the routine, wherever they are, except in an index of a name that does
not stand for a word: no code is written for those.
-/

namespace MiniPascal

open MiniPascal.Assembly
open MiniPascal.Code

def Block.uses (block : Block) : List Use :=
  Statement.usesAll block.statements

def Block.unwritten (tree : Tree) (block : Block) : List Use :=
  Expr.unwrittenAll tree (Statement.exprsAll block.statements)

/-- The number of places where the statements of a program call a routine. -/
def Tree.calls (tree : Tree) (id : DeclId) : Nat :=
  (tree.blocks.toList.flatMap Block.uses).countP (Use.calls id)

def Tree.unwrittenCalls (tree : Tree) (id : DeclId) : Nat :=
  (tree.blocks.toList.flatMap (Block.unwritten tree)).countP (Use.calls id)

/-- All names with an index, in the statements of a program, stand for variables or
parameters. -/
def Tree.IndexesWords (tree : Tree) : Prop :=
  ∀ block ∈ tree.blocks, ∀ ref ∈ Expr.indexedAll (Statement.exprsAll block.statements),
    tree.isWord ref = true

theorem Tree.unwrittenCalls_eq_zero {tree : Tree} (h : tree.IndexesWords) (id : DeclId) :
    tree.unwrittenCalls id = 0 := by
  have hnone : tree.blocks.toList.flatMap (Block.unwritten tree) = [] := by
    apply List.flatMap_eq_nil_iff.mpr
    intro block hblock
    exact Expr.unwrittenAll_eq_nil _ (h block (Array.mem_toList_iff.mp hblock))
  rw [unwrittenCalls, hnone, List.countP_nil]

def Tree.bodies (tree : Tree) (order : List DeclId) : List Block :=
  (order.filterMap tree.bodyOf?).filterMap (tree.blocks[·]?)

namespace CheckedProgram

variable {outline : Outline} {skeleton : Skeleton} {tree : Tree}

/-- The bodies of routines are the blocks inside the program's own. -/
theorem bodyOf?_codeOrder_perm (program : CheckedProgram outline skeleton tree) :
    (skeleton.codeOrder.filterMap tree.bodyOf?).Perm
      ((Skeleton.nodesAll skeleton.inner).map Node.id) := by
  apply (skeleton.codeOrder_perm.filterMap _).trans
  apply List.Perm.of_eq
  rw [List.filterMap_filterMap, ← List.filterMap_eq_map]
  apply List.filterMap_congr
  intro node hnode
  obtain ⟨id, hid, hbody⟩ := program.bodyOf?_of_mem_inner .top hnode
  rw [hid, Option.bind_some, hbody]
  rfl

/-- Every block is the library's, the program's own, or the body of one routine. -/
theorem blocks_perm (program : CheckedProgram outline skeleton tree) {library body : Block}
    (hlibrary : tree.blocks[libraryBlock]? = some library)
    (hbody : tree.blocks[tree.body]? = some body) :
    tree.blocks.toList.Perm (library :: body :: tree.bodies skeleton.codeOrder) := by
  have hall : (List.range tree.blocks.size).filterMap (tree.blocks[·]?) = tree.blocks.toList := by
    have hmap : (List.range tree.blocks.size).map (tree.blocks[·]?) =
        tree.blocks.toList.map some := by
      apply List.ext_getElem
      · rw [List.length_map, List.length_map, List.length_range, Array.length_toList]
      · intro id hid hid'
        rw [List.length_map, List.length_range] at hid
        rw [List.getElem_map, List.getElem_map, List.getElem_range, Array.getElem_toList,
          Array.getElem?_eq_getElem hid]
    calc (List.range tree.blocks.size).filterMap (tree.blocks[·]?)
        = ((List.range tree.blocks.size).map (tree.blocks[·]?)).filterMap id := by
          rw [List.filterMap_map]
          rfl
      _ = (tree.blocks.toList.map some).filterMap id := by rw [hmap]
      _ = tree.blocks.toList := by
          rw [List.filterMap_map]
          exact List.filterMap_some
  have hids : (List.range tree.blocks.size).Perm
      (libraryBlock :: tree.body :: skeleton.codeOrder.filterMap tree.bodyOf?) := by
    apply program.range_perm.trans
    rw [Skeleton.blockIds, Skeleton.nodes_eq, List.map_cons, program.body_eq]
    exact ((program.bodyOf?_codeOrder_perm.symm).cons _).cons _
  have hperm := hids.filterMap (tree.blocks[·]?)
  rw [hall, List.filterMap_cons_some hlibrary, List.filterMap_cons_some hbody] at hperm
  exact hperm

end CheckedProgram

namespace Code

variable {outline : Outline} {skeleton : Skeleton} {tree : Tree} {order : List DeclId}
variable {name : String} {counter middle final : Nat} {lines main : List Line}
variable {labels : RoutineLabels} {codes : List (List Line)} {body : Block}

/-! ### Counting calls of a program -/

/-- The end of a body with a frame calls nothing. -/
theorem called_frameEnd (isFunction : Bool) (comment : String) :
    called (resultLines isFunction ++
      [.instruction none .leave "", .instruction none .ret comment]) = [] := by
  rw [called_append, called_eq_nil (isPlain_resultLines isFunction)]
  rfl

namespace ProgramBodies

variable {id : DeclId}

/-- Where labels are known that the routines keep, a routine is called by its own label. -/
theorem calledAs (h : ProgramBodies tree order name counter lines labels codes main body middle
      final) (hshown : ((shown lines).map Label.text).Nodup) (horder : order.Nodup)
    (hid : id ∈ order) {known : RoutineLabels} (within : known.Within labels) :
    CalledAs { tree, labels := known } id (labels.labelOf id).text where
  routine := by
    obtain ⟨code, -, hcode⟩ := exists_of_forall₂_left h.routines hid
    obtain ⟨decl, heading, bodyId, _, _, _, found⟩ := hcode
    refine ⟨decl, heading, found.decl_eq, found.kind_eq, ?_⟩
    rw [Routine.isBuiltin, found.body_eq]
    rfl
  label other label hlookup := by
    have hlabel := within other label hlookup
    have hother : other ∈ order :=
      h.draws.ids_perm.mem_iff.mp (List.mem_map_of_mem (mem_of_lookup hlabel))
    obtain rfl := RoutineLabels.labelOf_eq hlabel
    have hnodup := h.nodup_text hshown
    rw [List.map_append, List.map_map] at hnodup
    constructor
    · exact List.inj_on_of_nodup_map (List.nodup_append'.mp hnodup).1 hother hid
    · rintro rfl
      rfl
  runtime label hlabel := by
    obtain ⟨decl, number, -, hunit⟩ := h.draws.labelOf_unit horder hid
    have hnumber := Label.trailingNumber?_text (congrArg Label.number? hunit)
    have hnone : ∀ label ∈ runtimeFunctions, trailingNumber? label.text = none := by decide
    intro htext
    rw [← htext, hnone label hlabel] at hnumber
    cases hnumber

/-- The codes of routines call a routine where their bodies do. -/
theorem tally_codes {text : String} {codes : List (List Line)} {order : List DeclId}
    (named : ∀ {known : RoutineLabels}, known.Within labels →
      CalledAs { tree, labels := known } id text)
    (h : List.Forall₂ (IsRoutineCode tree labels) order codes) :
    Tally id text ((tree.bodies order).flatMap Block.uses)
      ((tree.bodies order).flatMap (Block.unwritten tree)) codes.flatten := by
  induction h with
  | nil => exact .silent rfl
  | @cons other code order codes first _ ih =>
      obtain ⟨decl, heading, bodyId, known, counter, final, found⟩ := first
      have hcode : ∃ block, tree.blocks[bodyId]? = some block ∧
          Tally id text block.uses (block.unwritten tree) code := by
        cases found.code with
        | framed hbody _ hemits =>
            obtain ⟨inside, hinside, rfl⟩ := emits_framedBody hemits
            have hstatements := tally_statements (named found.within) _ hinside
            exact ⟨_, hbody, (hstatements.after (called_frameEnd _ _)).cons rfl⟩
        | shared hbody _ hemits =>
            obtain ⟨inside, result, hinside, hresult, rfl⟩ := emits_inlineBody hemits
            have hstatements := tally_statements (named found.within) _ hinside
            have hending : called (result ++ [.instruction none .ret ("End of " ++ decl.name)]) =
                [] := by
              rw [called_append, called_eq_nil hresult.isPlain]
              rfl
            exact ⟨_, hbody, (hstatements.after hending).cons rfl⟩
      obtain ⟨block, hblock, htally⟩ := hcode
      have hbodies : tree.bodies (other :: order) = block :: tree.bodies order := by
        rw [Tree.bodies, List.filterMap_cons_some found.bodyOf?_eq,
          List.filterMap_cons_some hblock]
        rfl
      rw [hbodies, List.flatMap_cons, List.flatMap_cons, List.flatten_cons]
      exact htally.append ih

/-- The code of a program calls the label of a routine where the statements of the program
call the routine. -/
theorem callsTo_lines (h : ProgramBodies tree skeleton.codeOrder name counter lines labels codes
      main body middle final) (program : CheckedProgram outline skeleton tree)
    (hshown : ((shown lines).map Label.text).Nodup) (hid : (tree.bodyOf? id).isSome = true) :
    callsTo (labels.labelOf id).text lines + tree.unwrittenCalls id = tree.calls id := by
  have hmem := program.mem_codeOrder_iff.mpr hid
  have named : ∀ {known : RoutineLabels}, known.Within labels →
      CalledAs { tree, labels := known } id (labels.labelOf id).text :=
    fun within => h.calledAs hshown program.nodup_codeOrder hmem within
  have hentry : callsTo (labels.labelOf id).text
      (entryLines (.unit Label.programStem name (counter + 1))) = 0 := by
    have hnodup := h.nodup_text hshown
    rw [List.map_append] at hnodup
    have hne : (Label.unit Label.programStem name (counter + 1)).text ≠
        (labels.labelOf id).text := by
      intro htext
      apply (List.nodup_append'.mp hnodup).2.2
        (List.mem_map_of_mem (List.mem_map_of_mem hmem))
      rw [← htext]
      exact List.mem_singleton_self _
    exact List.count_cons_of_ne hne
  have hmain : Tally id (labels.labelOf id).text body.uses (body.unwritten tree) main := by
    obtain ⟨code, hcode, rfl⟩ := emits_framedBody h.main
    have hstatements := tally_statements (named (.refl labels)) body.statements hcode
    exact (hstatements.after (called_frameEnd _ _)).cons rfl
  have hcodes := (tally_codes named h.routines).append hmain
  -- the library's block has no statements
  have hperm := program.blocks_perm program.library_eq h.block
  have hblocks : Tally id (labels.labelOf id).text (tree.blocks.toList.flatMap Block.uses)
      (tree.blocks.toList.flatMap (Block.unwritten tree)) (codes.flatten ++ main) :=
    hcodes.perm (List.perm_append_comm.trans (hperm.flatMap_right Block.uses).symm)
      (List.perm_append_comm.trans (hperm.flatMap_right (Block.unwritten tree)).symm)
  rw [h.lines_eq, callsTo_append, hentry, Nat.zero_add]
  exact hblocks

end ProgramBodies

end Code

/-- A listing calls the labels of routines as often as calls are written. -/
theorem exists_isCodeOf_of_compile {source : String} {context final : Context} {listing : Listing}
    (h : (compile source).run context = .ok listing final) :
    ∃ tokens tree middle labels, Compilation.scan source = .ok tokens ∧
      (Compilation.checkTokens tokens).run context = .ok tree middle ∧
      listing.IsCodeOf tree (middle.title?.getD tree.name) context.labels final.labels labels ∧
      ∀ id, (tree.bodyOf? id).isSome = true →
        listing.callees.count (labels.labelOf id).text + tree.unwrittenCalls id =
          tree.calls id := by
  obtain ⟨tokens, tree, middle, outline, skeleton, lines, labels, codes, main, body, between, hscan,
    htokens, program, rfl, hbodies, hshown⟩ := exists_bodies_of_compile h
  refine ⟨tokens, tree, middle, labels, hscan, htokens,
    ⟨_, lines, codes, main, body, between, rfl, hbodies⟩, ?_⟩
  intro id hid
  have hcallees : (Listing.mk (lines.map Line.listed)).callees = (called lines).map Label.text :=
    filterMap_callee?_listed lines
  rw [hcallees]
  exact hbodies.callsTo_lines program hshown hid

/-- **Calls are written where the source has them.**  In the listing of a text that compiles,
the label of a routine is called once for each place where the statements of the program
call the routine, except for those in the index of a name that stands for no word.  If
only variables and parameters have an index, there are no exceptions. -/
theorem compile_calls {source : String} {context final : Context} {listing : Listing}
    (h : (compile source).run context = .ok listing final) :
    ∃ tokens tree middle labels, Compilation.scan source = .ok tokens ∧
      (Compilation.checkTokens tokens).run context = .ok tree middle ∧
      listing.IsCodeOf tree (middle.title?.getD tree.name) context.labels final.labels labels ∧
      ∀ id, (tree.bodyOf? id).isSome = true →
        listing.callees.count (labels.labelOf id).text + tree.unwrittenCalls id = tree.calls id ∧
        (tree.IndexesWords →
          listing.callees.count (labels.labelOf id).text = tree.calls id) := by
  obtain ⟨tokens, tree, middle, labels, hscan, htokens, hcode, hcount⟩ :=
    exists_isCodeOf_of_compile h
  refine ⟨tokens, tree, middle, labels, hscan, htokens, hcode, fun id hid => ⟨hcount id hid, ?_⟩⟩
  intro hwords
  have hcounted := hcount id hid
  rw [Tree.unwrittenCalls_eq_zero hwords, Nat.add_zero] at hcounted
  exact hcounted

/-- The source of a program that calls a function in a condition, as an argument, and in
indexes, that of a constant among them. -/
def callsEverywhere : String :=
  "program p; const c = 1; var x: integer; function f: integer; begin f := 2 end;
    begin if f > 1 then x[f] := c[f]; write(f) end."

/-- The function is called at four places, and its label three times: the index of the
constant is not computed. -/
theorem compile_calls_everywhere :
    ∃ listing final tokens tree middle labels,
      (compile callsEverywhere).run (.fresh false false) = .ok listing final ∧
      Compilation.scan callsEverywhere = .ok tokens ∧
      (Compilation.checkTokens tokens).run (.fresh false false) = .ok tree middle ∧
      listing.IsCodeOf tree (middle.title?.getD tree.name) 0 final.labels labels ∧
      tree.decls[2]?.map Decl.name = some "f" ∧ tree.calls 2 = 4 ∧
      listing.callees.count (labels.labelOf 2).text = 3 := by
  have hok : Compilation.endsWith (fun _ _ => true)
      ((compile callsEverywhere).run (.fresh false false)) = true := by
    decide +kernel
  have hcounts : Compilation.checksWith (fun tree => decide ((tree.bodyOf? 2).isSome = true ∧
      tree.decls[2]?.map Decl.name = some "f" ∧ tree.calls 2 = 4 ∧ tree.unwrittenCalls 2 = 1))
      callsEverywhere = true := by
    decide +kernel
  obtain ⟨listing, final, hcompile, -⟩ := Compilation.exists_of_endsWith hok
  obtain ⟨tokens, tree, middle, labels, hscan, htokens, hcode, hcount⟩ := compile_calls hcompile
  obtain ⟨tokens', tree', middle', hscan', htokens', htree⟩ :=
    Compilation.exists_of_checksWith hcounts
  obtain rfl := Except.ok.inj (hscan.symm.trans hscan')
  obtain ⟨rfl, rfl⟩ := EStateM.Result.ok.inj (htokens.symm.trans htokens')
  obtain ⟨hbody, hname, hcalls, hunwritten⟩ := of_decide_eq_true htree
  have hwritten := (hcount 2 hbody).1
  rw [hunwritten, hcalls] at hwritten
  exact ⟨listing, final, tokens, tree, middle, labels, hcompile, hscan, htokens, hcode, hname,
    hcalls, Nat.succ.inj hwritten⟩

/-- The source of a program that calls a function in the index of a constant. -/
def indexedConstant : String :=
  "program p; const c = 1; function f: integer; begin f := 2 end; begin write(c[f]) end."

/-- A call in the index of a constant is in the source, and it is not in the listing. -/
theorem compile_indexedConstant_calls_nothing :
    ∃ listing final tokens tree middle labels,
      (compile indexedConstant).run (.fresh false false) = .ok listing final ∧
      Compilation.scan indexedConstant = .ok tokens ∧
      (Compilation.checkTokens tokens).run (.fresh false false) = .ok tree middle ∧
      listing.IsCodeOf tree (middle.title?.getD tree.name) 0 final.labels labels ∧
      tree.decls[1]?.map Decl.name = some "f" ∧ (tree.bodyOf? 1).isSome = true ∧
      tree.calls 1 = 1 ∧ listing.callees.count (labels.labelOf 1).text = 0 := by
  have hok : Compilation.endsWith (fun _ _ => true)
      ((compile indexedConstant).run (.fresh false false)) = true := by
    decide +kernel
  have hcounts : Compilation.checksWith (fun tree => decide ((tree.bodyOf? 1).isSome = true ∧
      tree.decls[1]?.map Decl.name = some "f" ∧ tree.calls 1 = 1 ∧ tree.unwrittenCalls 1 = 1))
      indexedConstant = true := by
    decide +kernel
  obtain ⟨listing, final, hcompile, -⟩ := Compilation.exists_of_endsWith hok
  obtain ⟨tokens, tree, middle, labels, hscan, htokens, hcode, hcount⟩ :=
    exists_isCodeOf_of_compile hcompile
  obtain ⟨tokens', tree', middle', hscan', htokens', htree⟩ :=
    Compilation.exists_of_checksWith hcounts
  obtain rfl := Except.ok.inj (hscan.symm.trans hscan')
  obtain ⟨rfl, rfl⟩ := EStateM.Result.ok.inj (htokens.symm.trans htokens')
  obtain ⟨hbody, hname, hcalls, hunwritten⟩ := of_decide_eq_true htree
  have hwritten := hcount 1 hbody
  rw [hunwritten, hcalls] at hwritten
  exact ⟨listing, final, tokens, tree, middle, labels, hcompile, hscan, htokens, hcode, hname,
    hbody, hcalls, Nat.succ.inj hwritten⟩

end MiniPascal
