import MiniPascal.Proofs.Compile.Bodies
import MiniPascal.Proofs.Compile.ManyVariables

/-!
# Frames that listings ask for

A listing asks for a frame for the program's block and for the body of each routine with
parameters, at one of the levels that the header has room for.  The frame has room for all
words that were laid out in it, however many they are: the level is bounded by the check,
but the size is not, and with too many words it does not fit the operand of the request.
-/

namespace MiniPascal

open MiniPascal.Assembly
open MiniPascal.Code

/-- The listing asks for the frames of the tree.  The sizes fit 16 bits if and only if no
frame has too many words. -/
structure Assembly.Listing.AsksForFrames (listing : Listing) (tree : Tree) : Prop where
  written : ∀ operands, ("enter", operands) ∈ listing.instructions →
    ∃ size level, operands = requestText size level
  requests : ∀ size level, ("enter", requestText size level) ∈ listing.instructions ↔
    ∃ owner frame, tree.OwnsFrame owner ∧ tree.blocks[owner]? = some frame ∧
      size = 32 + 4 * (tree.frameWords owner).length ∧ level = frame.frameLevel
  level_bounds : ∀ size level, ("enter", requestText size level) ∈ listing.instructions →
    1 ≤ level ∧ level ≤ 7
  size_bounds : (∀ size level, ("enter", requestText size level) ∈ listing.instructions →
      32 ≤ size ∧ size ≤ 65535) ↔
    ∀ owner, tree.OwnsFrame owner → (tree.frameWords owner).length ≤ 16375
  /-- Every word that was laid out lies in the frame that is asked for. -/
  covers : ∀ id layout, tree.layout? id = some layout →
    ∃ owner frame, tree.OwnsFrame owner ∧ tree.blocks[owner]? = some frame ∧
      layout.frameLevel = frame.frameLevel ∧
      -(32 + 4 * ((tree.frameWords owner).length : Int)) ≤ layout.offset

namespace CheckedProgram

variable {outline : Outline} {skeleton : Skeleton} {tree : Tree}

/-- What the frame of a block needs, in its words. -/
theorem needsFrame_iff (program : CheckedProgram outline skeleton tree) {size : Int} {level : Nat} :
    tree.NeedsFrame size level ↔
      ∃ owner frame, tree.OwnsFrame owner ∧ tree.blocks[owner]? = some frame ∧
        size = ((32 + 4 * (tree.frameWords owner).length : Nat) : Int) ∧
        level = frame.frameLevel := by
  have hsize {owner : BlockId} {frame : Block} (howns : tree.OwnsFrame owner)
      (hframe : tree.blocks[owner]? = some frame) :
      Frame.size frame.frameBytes = ((32 + 4 * (tree.frameWords owner).length : Nat) : Int) := by
    obtain ⟨found, hfound, exact_⟩ := program.exists_frameExact howns
    obtain rfl := Option.some.inj (hframe.symm.trans hfound)
    rw [exact_.frameBytes_eq, Frame.size, Frame.headerBytes]
    omega
  constructor
  · rintro ⟨owner, frame, howns, hframe, heq, hlevel⟩
    exact ⟨owner, frame, howns, hframe, heq.trans (hsize howns hframe), hlevel⟩
  · rintro ⟨owner, frame, howns, hframe, heq, hlevel⟩
    exact ⟨owner, frame, howns, hframe, heq.trans (hsize howns hframe).symm, hlevel⟩

/-- A word that was laid out lies in the frame of its level. -/
theorem exists_frame_of_layout (program : CheckedProgram outline skeleton tree) {id : DeclId}
    {layout : Layout} (hlayout : tree.layout? id = some layout) :
    ∃ owner frame, tree.OwnsFrame owner ∧ tree.blocks[owner]? = some frame ∧
      layout.frameLevel = frame.frameLevel ∧
      -(32 + 4 * ((tree.frameWords owner).length : Int)) ≤ layout.offset := by
  obtain ⟨holder, owner, hhas, hword⟩ := program.exists_word hlayout
  obtain ⟨site, body, occurs, rfl, rfl⟩ := program.exists_holder hhas.owner_eq
  obtain ⟨site', inner, occurs', howner, howns⟩ :=
    exists_frameOwner occurs program.hasSkeleton.program
  obtain ⟨frame, hframe, exact_⟩ := program.frameExact occurs' howns
  have hlevel : layout.frameLevel = frame.frameLevel := by
    have hframeAt := program.frameAt_frameLevel occurs
    rw [← howner] at hframeAt
    have hfound := List.find?_some hframeAt
    rw [Bool.and_eq_true, beq_iff_eq] at hfound
    rw [hhas.frameLevel_eq, ← hfound.2, Tree.frameLevel, hframe]
    rfl
  rw [← howner] at hword
  refine ⟨inner.id, frame, program.ownsFrame_of_occurs occurs' howns, hframe, hlevel, ?_⟩
  cases hword with
  | own hword hfound =>
      have hinside := (exact_.clear id _ (.inl hword) hfound).inside
      rw [exact_.frameBytes_eq, Frame.size, Frame.headerBytes] at hinside
      exact hinside
  | param hparam hoffset =>
      rw [hoffset, Frame.paramOffset, Frame.firstParamOffset, Frame.wordSize]
      omega
  | result hbody hoffset =>
      rw [hoffset, Frame.resultOffset]
      omega

theorem asksForFrames (program : CheckedProgram outline skeleton tree) {context final : Context}
    {listing : Listing} (h : (Compilation.generate tree).run context = .ok listing final) :
    listing.AsksForFrames tree := by
  obtain ⟨lines, labels, codes, main, body, between, rfl, hbodies, -⟩ := program.exists_bodies h
  have henter : ∀ operands, ("enter", operands) ∈
      (Listing.mk (lines.map Line.listed)).instructions ↔
        ∃ owner frame, tree.OwnsFrame owner ∧ tree.blocks[owner]? = some frame ∧
          operands = requestText (32 + 4 * (tree.frameWords owner).length) frame.frameLevel := by
    intro operands
    simp only [mem_instructions_enter_iff, hbodies.mem_requests_iff program, program.needsFrame_iff]
    constructor
    · rintro ⟨_, _, ⟨owner, frame, howns, hframe, rfl, rfl⟩, rfl⟩
      exact ⟨owner, frame, howns, hframe, rfl⟩
    · rintro ⟨owner, frame, howns, hframe, rfl⟩
      exact ⟨_, _, ⟨owner, frame, howns, hframe, rfl, rfl⟩, rfl⟩
  have hrequests : ∀ size level, ("enter", requestText size level) ∈
      (Listing.mk (lines.map Line.listed)).instructions ↔
        ∃ owner frame, tree.OwnsFrame owner ∧ tree.blocks[owner]? = some frame ∧
          size = 32 + 4 * (tree.frameWords owner).length ∧ level = frame.frameLevel := by
    intro size level
    rw [henter]
    simp only [requestText_inj]
  constructor
  case written =>
    intro operands hmem
    obtain ⟨owner, frame, -, -, htext⟩ := (henter operands).mp hmem
    exact ⟨_, _, htext⟩
  case requests => exact hrequests
  case level_bounds =>
    intro size level hmem
    obtain ⟨owner, frame, howns, hframe, -, rfl⟩ := (hrequests size level).mp hmem
    obtain ⟨found, hfound, exact_⟩ := program.exists_frameExact howns
    obtain rfl := Option.some.inj (hframe.symm.trans hfound)
    exact ⟨exact_.frameLevel_pos, exact_.frameLevel_le⟩
  case size_bounds =>
    constructor
    · intro hfits owner howns
      obtain ⟨frame, hframe, -⟩ := program.exists_frameExact howns
      have hsize := hfits _ _ ((hrequests _ _).mpr ⟨owner, frame, howns, hframe, rfl, rfl⟩)
      omega
    · intro hfew size level hmem
      obtain ⟨owner, frame, howns, -, rfl, -⟩ := (hrequests size level).mp hmem
      have hwords := hfew owner howns
      omega
  case covers => exact fun id layout hlayout => program.exists_frame_of_layout hlayout

end CheckedProgram

/-- **Listings ask for the frames that their words need.**  The listing of a text that
compiles asks for frames of the levels 1 to 7 that cover all words that were laid out.  The
sizes fit their operands, which have 16 bits, if and only if no frame has more than 16375
words. -/
theorem compile_frames {source : String} {context final : Context} {listing : Listing}
    (h : (compile source).run context = .ok listing final) :
    ∃ tokens tree middle, Compilation.scan source = .ok tokens ∧
      (Compilation.checkTokens tokens).run context = .ok tree middle ∧
      listing.AsksForFrames tree := by
  obtain ⟨tokens, tree, middle, hscan, htokens, hgenerate⟩ := exists_stages_of_compile h
  obtain ⟨outline, skeleton, -, -, program⟩ := Compilation.exists_checkedProgram htokens
  exact ⟨tokens, tree, middle, hscan, htokens, program.asksForFrames hgenerate⟩

/-- A program with a function that has a frame, in which a procedure without one declares a
variable. -/
theorem compile_frames_nested :
    ∃ listing final, (compile "program p; var x: integer; y: char;
        function f(a: integer): integer; var b: integer; procedure q; var c: integer;
        begin c := a; b := c end; begin q; f := b end;
        begin x := f(1) end.").run (.fresh false false) = .ok listing final ∧
      ∃ tokens tree middle, Compilation.scan "program p; var x: integer; y: char;
        function f(a: integer): integer; var b: integer; procedure q; var c: integer;
        begin c := a; b := c end; begin q; f := b end;
        begin x := f(1) end." = .ok tokens ∧
        (Compilation.checkTokens tokens).run (.fresh false false) = .ok tree middle ∧
        listing.AsksForFrames tree := by
  have hok : Compilation.endsWith (fun _ _ => true) ((compile "program p; var x: integer; y: char;
        function f(a: integer): integer; var b: integer; procedure q; var c: integer;
        begin c := a; b := c end; begin q; f := b end;
        begin x := f(1) end.").run (.fresh false false)) = true := by
    decide +kernel
  obtain ⟨listing, final, hcompile, -⟩ := Compilation.exists_of_endsWith hok
  exact ⟨listing, final, hcompile, compile_frames hcompile⟩

/-- The listing of a program with variables and nothing else asks for a frame with a word for
each of them. -/
theorem CheckedProgram.requests_declaring {words : List String} {skeleton : Skeleton} {tree : Tree}
    (program : CheckedProgram (Outline.declaring words) skeleton tree) {context final : Context}
    {listing : Listing} (h : (Compilation.generate tree).run context = .ok listing final) :
    ("enter", requestText (32 + 4 * words.length) 1) ∈ listing.instructions := by
  obtain ⟨owner, frame, howns, hframe, hsize, hlevel⟩ :=
    program.needsFrame_iff.mp program.needsFrame_declaring
  exact ((program.asksForFrames h).requests _ _).mpr
    ⟨owner, frame, howns, hframe, Int.ofNat.inj hsize, hlevel⟩

/-- A program with 16376 variables compiles, and its listing asks for a frame whose size does
not fit 16 bits. -/
theorem compile_frames_tooLarge :
    ∃ listing final, (compile (String.ofList (Token.spaced
        (Outline.declaring (numberedWords 16376)).tokens))).run (.fresh false false) =
          .ok listing final ∧
      ∃ size level, ("enter", requestText size level) ∈ listing.instructions ∧
        ¬(32 ≤ size ∧ size ≤ 65535) := by
  have hwords : numberedWords 16376 ≠ [] := by
    apply List.ne_nil_of_length_pos
    rw [length_numberedWords]
    decide
  obtain ⟨skeleton, tree, middle, listing, final, program, hgenerate, hcompile⟩ :=
    compile_declaring hwords (printable_numberedWords _) (numberedWords_nodup _)
      (integer_notMem_numberedWords _) (.fresh false false)
  have hrequest := program.requests_declaring hgenerate
  rw [length_numberedWords] at hrequest
  exact ⟨listing, final, hcompile, _, _, hrequest, by decide⟩

end MiniPascal
