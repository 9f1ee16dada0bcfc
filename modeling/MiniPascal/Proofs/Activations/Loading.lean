import MiniPascal.Proofs.Activations.Runs
import MiniPascal.Proofs.Assembly.Reference
import MiniPascal.Proofs.Code.Bodies
import MiniPascal.Proofs.Simulation.Writes

/-!
# The codes of a program's blocks

The lines of a program are those of its entry, and after them the code of each of its
blocks.  So wherever they are loaded, the runs of the program keep the invariant.
-/

namespace MiniPascal

open MiniPascal.Assembly
open MiniPascal.Code

namespace Code

/-! ### Codes one after another -/

/-- Codes of blocks, placed one after another from a line on. -/
def placeAll : Nat → List (BlockId × List Line) → List PlacedCode
  | _, [] => []
  | start, (block, code) :: others =>
    { block, start, code } :: placeAll (start + code.length) others

section Places

variable {start : Nat} {blocks : List (BlockId × List Line)} {placed : PlacedCode}

theorem map_placeAll (start : Nat) (blocks : List (BlockId × List Line)) :
    (placeAll start blocks).map (fun placed => (placed.block, placed.code)) = blocks := by
  induction blocks generalizing start with
  | nil => rfl
  | cons entry others ih =>
      rw [placeAll, List.map_cons, ih]

theorem mem_of_mem_placeAll (h : placed ∈ placeAll start blocks) :
    (placed.block, placed.code) ∈ blocks := by
  have hmem := List.mem_map_of_mem (f := fun placed : PlacedCode => (placed.block, placed.code)) h
  rw [map_placeAll] at hmem
  exact hmem

theorem exists_mem_placeAll {block : BlockId} {code : List Line} (h : (block, code) ∈ blocks) :
    ∃ placed ∈ placeAll start blocks, placed.block = block ∧ placed.code = code := by
  rw [← map_placeAll start blocks] at h
  obtain ⟨placed, hplaced, heq⟩ := List.mem_map.mp h
  exact ⟨placed, hplaced, Prod.mk.inj heq⟩

theorem start_le_of_mem_placeAll (h : placed ∈ placeAll start blocks) : start ≤ placed.start := by
  induction blocks generalizing start with
  | nil => cases h
  | cons entry others ih =>
      rcases List.mem_cons.mp h with rfl | h
      · exact Nat.le_refl start
      · exact Nat.le_trans (Nat.le_add_right start _) (ih h)

theorem pairwise_placeAll (start : Nat) (blocks : List (BlockId × List Line)) :
    (placeAll start blocks).Pairwise fun first second =>
      first.start + first.code.length ≤ second.start := by
  induction blocks generalizing start with
  | nil => exact .nil
  | cons entry others ih => exact .cons (fun _ h => start_le_of_mem_placeAll h) (ih _)

/-- Codes that lie one after another do not overlap. -/
theorem eq_of_covers {other : PlacedCode} (hplaced : placed ∈ placeAll start blocks)
    (hother : other ∈ placeAll start blocks) {line : Nat} (hline : placed.Covers line)
    (hline' : other.Covers line) : placed = other := by
  have hpairwise : (placeAll start blocks).Pairwise fun first second =>
      ∀ line, first.Covers line → second.Covers line → first = second := by
    apply (pairwise_placeAll start blocks).imp
    intro first second hle line hfirst hsecond
    exact absurd (Nat.lt_of_lt_of_le hfirst.2 hle) (Nat.not_lt.mpr hsecond.1)
  have hsymm : Std.Symm fun first second : PlacedCode =>
      ∀ line, first.Covers line → second.Covers line → first = second :=
    ⟨fun _ _ h line hsecond hfirst => (h line hfirst hsecond).symm⟩
  exact hpairwise.forall_of_forall (fun _ _ _ _ _ => rfl) hplaced hother line hline hline'

theorem placed_of_mem_placeAll {image : Image} (lies : image.Placed start (blocks.flatMap Prod.snd))
    (h : placed ∈ placeAll start blocks) : image.Placed placed.start placed.code := by
  induction blocks generalizing start with
  | nil => cases h
  | cons entry others ih =>
      rw [List.flatMap_cons] at lies
      obtain ⟨hfirst, hrest⟩ := Image.placed_append.mp lies
      rcases List.mem_cons.mp h with rfl | h
      · exact hfirst
      · exact ih hrest h

end Places

/-! ### Codes of blocks -/

/-- Code is that of a block: of the body of a routine, or of the program's own block. -/
inductive IsBlockCode (tree : Tree) (labels : RoutineLabels) (program : Label) (name : String)
    (block : BlockId) (code : List Line) : Prop
  | routine {id : DeclId} (hbody : tree.bodyOf? id = some block)
      (hcode : IsRoutineCode tree labels id code)
  | program {body : Block} {counter final : Nat} (hblock : block = tree.body)
      (hbody : tree.blocks[block]? = some body)
      (hcode : (framedBody { tree, labels } name false program body).Emits counter code final ())

/-- Lines are those of the entry and of the codes of blocks.  Every routine with a body has
its code among these, and so has the program. -/
structure BlockCodes (tree : Tree) (labels : RoutineLabels) (program : Label) (name : String)
    (lines : List Line) (blocks : List (BlockId × List Line)) : Prop where
  lines_eq : lines = entryLines program ++ blocks.flatMap Prod.snd
  code : ∀ entry ∈ blocks, IsBlockCode tree labels program name entry.1 entry.2
  routine : ∀ id block, tree.bodyOf? id = some block →
    ∃ code, (block, code) ∈ blocks ∧ IsRoutineCode tree labels id code
  program : ∃ code body counter final, (tree.body, code) ∈ blocks ∧
    tree.blocks[tree.body]? = some body ∧
    (framedBody { tree, labels } name false program body).Emits counter code final ()

/-- The code of a routine is that of its body. -/
theorem RoutineCode.bodyOf?_eq {tree : Tree} {labels known : RoutineLabels} {id : DeclId}
    {code : List Line} {decl : Decl} {heading : Routine} {bodyId : BlockId} {counter final : Nat}
    (h : RoutineCode tree labels id code decl heading bodyId known counter final) :
    tree.bodyOf? id = some bodyId := by
  rw [Tree.bodyOf?, h.decl_eq, Option.bind_some, h.kind_eq, DeclKind.routine?, Option.bind_some,
    h.body_eq]

/-- Code of a body begins with its label. -/
theorem BodyCode.head_eq {env : Env} {decl : Decl} {heading : Routine} {bodyId : BlockId}
    {label : Label} {counter final : Nat} {lines : List Line}
    (h : BodyCode env decl heading bodyId label counter lines final) :
    ∃ line rest, lines = line :: rest ∧ line.label? = some label := by
  cases h with
  | framed _ _ hcode =>
      obtain ⟨code, -, rfl⟩ := emits_framedBody hcode
      exact ⟨_, _, rfl, rfl⟩
  | shared _ _ hcode =>
      obtain ⟨code, result, -, -, rfl⟩ := emits_inlineBody hcode
      exact ⟨_, _, rfl, rfl⟩

theorem exists_routineBlocks {tree : Tree} {labels : RoutineLabels} {order : List DeclId}
    {codes : List (List Line)} (h : List.Forall₂ (IsRoutineCode tree labels) order codes) :
    ∃ blocks : List (BlockId × List Line), blocks.map Prod.snd = codes ∧
      List.Forall₂ (fun id entry => tree.bodyOf? id = some entry.1 ∧
        IsRoutineCode tree labels id entry.2) order blocks := by
  induction h with
  | nil => exact ⟨[], rfl, .nil⟩
  | @cons id code _ _ first _ ih =>
      obtain ⟨blocks, rfl, hblocks⟩ := ih
      have hfirst := first
      obtain ⟨decl, heading, bodyId, known, counter, final, found⟩ := first
      exact ⟨(bodyId, code) :: blocks, rfl, .cons ⟨found.bodyOf?_eq, hfirst⟩ hblocks⟩

/-- The code of a program has the codes of its blocks. -/
theorem exists_blockCodes {outline : Outline} {skeleton : Skeleton} {tree : Tree}
    (program : CheckedProgram outline skeleton tree) {name : String} {counter final : Nat}
    {lines : List Line} (h : (Code.program tree name).Emits counter lines final ()) :
    ∃ labels blocks, BlockCodes tree labels (.unit Label.programStem name (counter + 1)) name lines
      blocks := by
  obtain ⟨labels, codes, main, body, middle, bodies⟩ := exists_programBodies program h
  obtain ⟨blocks, rfl, hblocks⟩ := exists_routineBlocks bodies.routines
  refine ⟨labels, blocks ++ [(tree.body, main)], ?_, ?_, ?_, ?_⟩
  case refine_1 =>
    rw [bodies.lines_eq, List.flatMap_append, List.flatMap_singleton, List.flatMap_def]
  case refine_2 =>
    rintro ⟨block, code⟩ hentry
    rcases List.mem_append.mp hentry with hentry | hlast
    · obtain ⟨id, -, hbody, hcode⟩ := exists_of_forall₂_right hblocks hentry
      exact .routine hbody hcode
    · obtain ⟨rfl, rfl⟩ := Prod.mk.inj (List.mem_singleton.mp hlast)
      exact .program rfl bodies.block bodies.main
  case refine_3 =>
    intro id block hbody
    have hid : id ∈ skeleton.codeOrder := program.mem_codeOrder_iff.mpr (hbody ▸ rfl)
    obtain ⟨⟨found, code⟩, hentry, hfound, hcode⟩ := exists_of_forall₂_left hblocks hid
    obtain rfl := Option.some.inj (hbody.symm.trans hfound)
    exact ⟨code, List.mem_append_left _ hentry, hcode⟩
  case refine_4 =>
    exact ⟨main, body, middle, final, List.mem_append_right _ (List.mem_singleton_self _),
      bodies.block, bodies.main⟩

/-! ### Loaded codes -/

namespace BlockCodes

variable {outline : Outline} {skeleton : Skeleton} {tree : Tree} {labels : RoutineLabels}
variable {program : Label} {name : String} {image : Image} {blocks : List (BlockId × List Line)}
variable {placed : PlacedCode}

/-- The codes lie behind the lines of the entry. -/
theorem lies (h : BlockCodes tree labels program name image.lines blocks)
    (hplaced : placed ∈ placeAll (entryLines program).length blocks) :
    image.Placed placed.start placed.code :=
  placed_of_mem_placeAll ⟨entryLines program, [], by rw [List.append_nil, h.lines_eq], rfl⟩ hplaced

theorem mem_blockIds (h : BlockCodes tree labels program name image.lines blocks)
    (checked : CheckedProgram outline skeleton tree) {entry : BlockId × List Line}
    (hentry : entry ∈ blocks) : entry.1 ∈ skeleton.blockIds := by
  cases h.code entry hentry with
  | routine hbody hcode =>
      obtain ⟨decl, heading, bodyId, known, counter, final, found⟩ := hcode
      obtain rfl := Option.some.inj (hbody.symm.trans found.bodyOf?_eq)
      obtain ⟨around, root, before, body, after, routine, -, hid⟩ :=
        checked.exists_routine found.decl_eq found.kind_eq found.body_eq
      rw [← hid]
      exact List.mem_map_of_mem (Outline.HasSkeleton.root_mem_nodes (.body routine.occurs))
  | program hblock =>
      rw [hblock, checked.body_eq]
      exact List.mem_map_of_mem skeleton.root_mem_nodes

/-- A label that a routine has leads to the code of its body. -/
theorem resolves (h : BlockCodes tree labels program name image.lines blocks)
    (resolves : image.Resolves) {known : RoutineLabels} (within : known.Within labels)
    (placed : PlacedCode) :
    (placed.threading image tree (placeAll (entryLines program).length blocks)).Resolves
      { tree, labels := known } where
  tree_eq := rfl
  runtime := resolves.runtime
  leads id label body hlabel hbody := by
    obtain ⟨code, hcode, hroutine⟩ := h.routine id body hbody
    obtain ⟨callee, hcallee, hblock, rfl⟩ := exists_mem_placeAll hcode
    refine ⟨callee, hcallee, hblock, ?_⟩
    obtain ⟨decl, heading, bodyId, known', counter, final, found⟩ := hroutine
    obtain ⟨line, rest, hlines, hshown⟩ := found.code.head_eq
    have hlies := h.lies hcallee
    rw [hlines] at hlies
    rw [RoutineLabels.labelOf_eq (within id label hlabel)] at hshown
    apply Image.target?_eq_some resolves.distinct hlies.head
    rw [Line.label?_listed, hshown]
    rfl

/-- The code of a block begins where it must, and then each line leads on to the next one. -/
theorem whole (h : BlockCodes tree labels program name image.lines blocks)
    (checked : CheckedProgram outline skeleton tree) (resolves : image.Resolves)
    (hplaced : placed ∈ placeAll (entryLines program).length blocks) :
    (placed.threading image tree (placeAll (entryLines program).length blocks)).Whole
      placed.start := by
  have hlies := h.lies hplaced
  have has : ∀ {body : Block}, tree.blocks[placed.block]? = some body →
      (placed.threading image tree (placeAll (entryLines program).length blocks)).Has
        (Statement.usesAll body.statements) (Statement.callsAll body.statements) :=
    fun hbody => ⟨fun use huse => checked.serves hbody huse, fun call hcall => ⟨_, hbody, hcall⟩⟩
  have hframed : ∀ {body : Block}, tree.blocks[placed.block]? = some body →
      tree.isFramed placed.block = body.ownsFrame placed.block := by
    intro body hbody
    rw [Tree.isFramed, hbody, Option.any_some]
  cases h.code _ (mem_of_mem_placeAll hplaced) with
  | routine hblock hcode =>
      obtain ⟨decl, heading, bodyId, known, counter, final, found⟩ := hcode
      obtain rfl := Option.some.inj (hblock.symm.trans found.bodyOf?_eq)
      have hresolves := h.resolves resolves found.within placed
      cases found.code with
      | framed hbody howns hemits =>
          exact whole_framedBody hresolves hbody ((hframed hbody).trans howns) hemits hlies
            (has hbody)
      | shared hbody hshares hemits =>
          exact whole_inlineBody hresolves ((hframed hbody).trans hshares) hemits hlies
            (has hbody)
  | program hblock hbody hemits =>
      have hprogram : tree.isFramed placed.block = true := by
        change placed.block = tree.body at hblock
        rw [hblock]
        exact checked.isFramed_program
      exact whole_framedBody (h.resolves resolves (.refl labels) placed) hbody hprogram hemits hlies
        (has hbody)

/-- A listing of a program is loaded with the codes of its blocks, from its label `main` on. -/
theorem loads (h : BlockCodes tree labels program name image.lines blocks)
    (checked : CheckedProgram outline skeleton tree) (resolves : image.Resolves) :
    image.Loads skeleton tree (placeAll (entryLines program).length blocks) 6 where
  distinct := resolves.distinct
  placed _ hplaced := h.lies hplaced
  whole _ hplaced := h.whole checked resolves hplaced
  blocks _ hplaced := h.mem_blockIds checked (mem_of_mem_placeAll hplaced)
  disjoint _ hplaced _ hother _ := eq_of_covers hplaced hother
  behind _ hplaced := start_le_of_mem_placeAll hplaced
  entry := by
    obtain ⟨code, body, counter, final, hcode, hbody, hemits⟩ := h.program
    obtain ⟨callee, hcallee, hblock, rfl⟩ := exists_mem_placeAll hcode
    refine ⟨program, "Start program", callee, hcallee, ?_, ?_, hblock⟩
    · rw [h.lines_eq]
      rfl
    · obtain ⟨lines, -, hlines⟩ := emits_framedBody hemits
      have hlies := h.lies hcallee
      rw [hlines] at hlies
      exact Image.target?_eq_some resolves.distinct hlies.head rfl
  status := ⟨"Set status 0 and", by rw [h.lines_eq]; rfl⟩
  ending := ⟨"terminate the program", by rw [h.lines_eq]; rfl⟩

end BlockCodes

end Code

end MiniPascal
