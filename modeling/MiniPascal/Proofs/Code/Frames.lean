import MiniPascal.Proofs.Assembly.Immediate
import MiniPascal.Proofs.Code.Balance
import MiniPascal.Proofs.Frames.Words

/-!
# Requests for frames

The code of a body that owns a frame begins with a request for it, and nothing else in the
code of a program asks for a frame.  So the requests are those for the frames of the
program's block and of the bodies of routines with parameters.
-/

namespace MiniPascal.Assembly

/-! ### Requests in listings -/

/-- The size and the level of the frame that a line asks for. -/
def Line.request? : Line → Option (Int × Nat)
  | .instruction _ (.enter size level) _ => some (size, level)
  | _ => none

/-- A request for a frame as it is written. -/
def requestText (size level : Nat) : String :=
  "$" ++ toString size ++ ",$" ++ toString level

/-- What a request asks for can be read off its text. -/
theorem requestText_inj {size size' level level' : Nat} :
    requestText size level = requestText size' level' ↔ size = size' ∧ level = level' := by
  have hchars (size level : Nat) : (requestText size level).toList =
      '$' :: ((size : Int).repr.toList ++ ',' :: '$' :: level.repr.toList) := by
    rw [requestText, String.toList_append, String.toList_append, String.toList_append,
      List.append_assoc]
    rfl
  constructor
  · intro h
    have heq := congrArg String.toList h
    rw [hchars, hchars] at heq
    have hrest := (List.cons.inj heq).2
    have hread (value : Int) (rest : List Char) :
        readInt? ((value.repr.toList ++ ',' :: rest).takeWhile (· ≠ ',')) = some value :=
      readInt?_takeWhile (by decide) rfl value rest
    have hsize : (size : Int) = (size' : Int) := by
      apply Option.some.inj
      rw [← hread size ('$' :: level.repr.toList), hrest, hread]
    obtain rfl := Int.ofNat.inj hsize
    have hdigits := (List.cons.inj (List.cons.inj (List.append_cancel_left hrest)).2).2
    have hlevel : some level = some level' := by
      rw [← readNat?_repr level, hdigits, readNat?_repr]
    exact ⟨rfl, Option.some.inj hlevel⟩
  · rintro ⟨rfl, rfl⟩
    rfl

theorem Instruction.opcode_eq_enter_iff {instruction : Instruction} :
    instruction.opcode = "enter" ↔ ∃ size level, instruction = .enter size level := by
  cases instruction with
  | enter size level => exact iff_of_true rfl ⟨size, level, rfl⟩
  | arith op => cases op <;> simp [opcode, ArithOp.opcode]
  | storeCondition relation => cases relation <;> simp [opcode, Relation.condition]
  | move | push | pop | negate | signExtend | divide | compare | jump | jumpIfEqual | call
  | loadAddress | leave | ret => simp [opcode]

theorem Line.instruction?_listed_eq_enter_iff {line : Line} {operands : String} :
    line.listed.instruction? = some ("enter", operands) ↔
      ∃ size level, line.request? = some (size, level) ∧
        operands = (Instruction.enter size level).operands := by
  cases line with
  | directive | label | datum => simp [listed, ListingLine.instruction?, request?]
  | instruction place? instruction comment =>
      constructor
      · intro h
        obtain ⟨hopcode, rfl⟩ := Prod.mk.inj (Option.some.inj h)
        obtain ⟨size, level, rfl⟩ := Instruction.opcode_eq_enter_iff.mp hopcode
        exact ⟨size, level, rfl, rfl⟩
      · rintro ⟨size, level, hrequest, rfl⟩
        unfold request? at hrequest
        split at hrequest
        · next heq =>
            cases heq
            cases hrequest
            rfl
        · cases hrequest

/-- The requests in a listing are those of the lines it was written from. -/
theorem mem_instructions_enter_iff {lines : List Line} {operands : String} :
    ("enter", operands) ∈ (Listing.mk (lines.map Line.listed)).instructions ↔
      ∃ size level, (size, level) ∈ lines.filterMap Line.request? ∧
        operands = (Instruction.enter size level).operands := by
  rw [Listing.instructions, List.filterMap_map, List.mem_filterMap]
  simp only [Function.comp_apply, Line.instruction?_listed_eq_enter_iff, List.mem_filterMap]
  constructor
  · rintro ⟨line, hline, size, level, hrequest, htext⟩
    exact ⟨size, level, ⟨line, hline, hrequest⟩, htext⟩
  · rintro ⟨size, level, ⟨line, hline, hrequest⟩, htext⟩
    exact ⟨line, hline, size, level, hrequest, htext⟩

/-- Code that stays in the frame that it begins in asks for none. -/
theorem Frameless.requests_eq_nil {lines : List Line} (h : Frameless (lines.map Line.listed)) :
    lines.filterMap Line.request? = [] := by
  rw [List.filterMap_eq_nil_iff]
  intro line hline
  have hframe := h line.listed (List.mem_map_of_mem hline)
  unfold Line.request?
  split
  · simp [Line.listed, ListingLine.framesStack, Instruction.opcode] at hframe
  · rfl

end MiniPascal.Assembly

namespace MiniPascal

open MiniPascal.Assembly

namespace Code

/-! ### Requests in code -/

section Bodies

variable {env : Env} {label : Label} {body : Block} {isFunction : Bool} {counter final : Nat}
  {lines : List Line}

theorem requests_framedBody {name : String}
    (h : (framedBody env name isFunction label body).Emits counter lines final ()) :
    lines.filterMap Line.request? = [(Frame.size body.frameBytes, body.frameLevel)] := by
  obtain ⟨code, hcode, rfl⟩ := emits_framedBody h
  have hstatements := (shifts_statements body.statements hcode (List.Subset.refl _)).frameless
  have hresult : (resultLines isFunction).filterMap Line.request? = [] := by
    cases isFunction <;> rfl
  change _ :: List.filterMap Line.request? (code ++ _) = _
  rw [List.filterMap_append, List.filterMap_append, hstatements.requests_eq_nil, hresult]
  rfl

theorem requests_inlineBody {decl : Decl}
    (h : (inlineBody env decl isFunction label body).Emits counter lines final ()) :
    lines.filterMap Line.request? = [] :=
  (balanced_inlineBody h).2.requests_eq_nil

end Bodies

end Code

/-! ### Requests of a program -/

namespace CheckedProgram

variable {outline : Outline} {skeleton body : Skeleton} {tree : Tree} {site : Site}

/-- A body that has a frame is the program's or that of a routine with parameters. -/
theorem ownsFrame_of_occurs (program : CheckedProgram outline skeleton tree)
    (occurs : Occurs outline skeleton site body) (howns : body.root.ownsFrame = true) :
    tree.OwnsFrame body.id := by
  rcases program.bodyOf?_eq occurs with rfl | ⟨id, -, hbodyOf⟩
  · exact .inl program.body_eq.symm
  · obtain ⟨decl, hdecl, hheading⟩ := Option.bind_eq_some_iff.mp hbodyOf
    obtain ⟨heading, hheading, hbody⟩ := Option.bind_eq_some_iff.mp hheading
    have hkind := DeclKind.routine?_eq_some_iff.mp hheading
    obtain ⟨block, hblock, -⟩ := Code.exists_block (occurs.checked program.checked).node
    have hparams := program.ownsFrame_body hdecl hkind hbody hblock
    rw [program.ownsFrame_eq occurs hblock, howns] at hparams
    refine .inr ⟨id, decl, heading, hdecl, hkind, hbody, fun hnone => ?_⟩
    rw [hnone] at hparams
    cases hparams

/-- The frame of a block that owns one is laid out exactly. -/
theorem exists_frameExact (program : CheckedProgram outline skeleton tree) {owner : BlockId}
    (howns : tree.OwnsFrame owner) :
    ∃ frame, tree.blocks[owner]? = some frame ∧ tree.FrameExact owner frame := by
  obtain ⟨site, body, occurs, rfl, hroot⟩ := program.exists_frame howns
  exact program.frameExact occurs hroot

end CheckedProgram

/-- The size and level that the frame of a block needs. -/
def Tree.NeedsFrame (tree : Tree) (size : Int) (level : Nat) : Prop :=
  ∃ owner frame, tree.OwnsFrame owner ∧ tree.blocks[owner]? = some frame ∧
    size = Frame.size frame.frameBytes ∧ level = frame.frameLevel

namespace Code

variable {outline : Outline} {skeleton : Skeleton} {tree : Tree} {size : Int} {level : Nat}

theorem IsRoutineCode.needsFrame (program : CheckedProgram outline skeleton tree)
    {labels : RoutineLabels} {id : DeclId} {code : List Line}
    (h : IsRoutineCode tree labels id code)
    (hrequest : (size, level) ∈ code.filterMap Line.request?) :
    tree.NeedsFrame size level := by
  obtain ⟨decl, heading, bodyId, known, counter, final, found⟩ := h
  cases found.code with
  | @framed body _ _ _ hbody howns hcode =>
      rw [requests_framedBody hcode, List.mem_singleton] at hrequest
      obtain ⟨hsize, hlevel⟩ := Prod.mk.inj hrequest
      rw [program.ownsFrame_body found.decl_eq found.kind_eq found.body_eq hbody] at howns
      have hparams : heading.params ≠ [] := by
        intro hnone
        rw [hnone] at howns
        cases howns
      exact ⟨bodyId, body,
        .inr ⟨id, decl, heading, found.decl_eq, found.kind_eq, found.body_eq, hparams⟩, hbody,
        hsize, hlevel⟩
  | shared hbody hshares hcode =>
      rw [requests_inlineBody hcode] at hrequest
      cases hrequest

/-- The code of a program asks for the frames that its blocks need. -/
theorem ProgramBodies.mem_requests_iff (program : CheckedProgram outline skeleton tree)
    {name : String} {counter middle final : Nat} {lines main : List Line} {labels : RoutineLabels}
    {codes : List (List Line)} {body : Block}
    (h : ProgramBodies tree skeleton.codeOrder name counter lines labels codes main body middle
      final) :
    (size, level) ∈ lines.filterMap Line.request? ↔ tree.NeedsFrame size level := by
  have hmain := requests_framedBody h.main
  have hlines : lines.filterMap Line.request? = codes.flatten.filterMap Line.request? ++
      [(Frame.size body.frameBytes, body.frameLevel)] := by
    rw [h.lines_eq, List.filterMap_append, List.filterMap_append, hmain]
    rfl
  rw [hlines, List.mem_append]
  constructor
  · rintro (hroutine | hprogram)
    · obtain ⟨line, hline, hrequest⟩ := List.mem_filterMap.mp hroutine
      obtain ⟨code, hcode, hmem⟩ := List.mem_flatten.mp hline
      obtain ⟨id, -, hroutine⟩ := exists_of_forall₂_right h.routines hcode
      exact hroutine.needsFrame program (List.mem_filterMap.mpr ⟨line, hmem, hrequest⟩)
    · obtain ⟨hsize, hlevel⟩ := Prod.mk.inj (List.mem_singleton.mp hprogram)
      exact ⟨tree.body, body, .inl rfl, h.block, hsize, hlevel⟩
  · rintro ⟨owner, frame, rfl | ⟨id, decl, heading, hdecl, hkind, hbody, hparams⟩, hframe, rfl, rfl⟩
    · obtain rfl := Option.some.inj (h.block.symm.trans hframe)
      exact .inr List.mem_cons_self
    · have hbodyOf : tree.bodyOf? id = some owner := by
        rw [Tree.bodyOf?, hdecl, Option.bind_some, hkind]
        exact hbody
      obtain ⟨code, hcode, hroutine⟩ := exists_of_forall₂_left h.routines
        (program.mem_codeOrder_iff.mpr (by rw [hbodyOf]; rfl))
      obtain ⟨decl', heading', bodyId, known, _, _, found⟩ := hroutine
      obtain rfl := Option.some.inj (hdecl.symm.trans found.decl_eq)
      obtain rfl := DeclKind.routine.inj (hkind.symm.trans found.kind_eq)
      obtain rfl := Option.some.inj (hbody.symm.trans found.body_eq)
      cases found.code with
      | @framed body _ _ _ hfound _ hemits =>
          obtain rfl := Option.some.inj (hframe.symm.trans hfound)
          have hrequests := requests_framedBody hemits
          left
          rw [List.filterMap_flatten]
          exact List.mem_flatten.mpr ⟨_, List.mem_map_of_mem hcode, hrequests ▸ List.mem_cons_self⟩
      | shared hfound hshares _ =>
          rw [program.ownsFrame_body hdecl hkind hbody hfound] at hshares
          exact absurd (by simpa using hshares) hparams

end Code

end MiniPascal
