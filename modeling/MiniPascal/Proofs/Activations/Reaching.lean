import MiniPascal.Proofs.Activations.Account
import MiniPascal.Proofs.Frames.Slots

/-!
# What displays reach

The display of the frame in use reaches the frames around the block whose code runs.  This
stays so when a routine is called: one without parameters lies in frames around the caller,
and a new frame takes over as many words of the caller's display as it needs.
-/

namespace MiniPascal

open MiniPascal.Machine

/-- The display of the frame in use reaches the frames around a block, as it was made. -/
def Reaches (tree : Tree) (codes : List PlacedCode) (block : BlockId) (stack : List Activation) :
    Prop :=
  ∃ frame, stack.findSome? Activation.frame? = some frame ∧
    ∀ level, 1 ≤ level → level ≤ tree.frameLevel block → ∃ word,
      frame.display[level - 1]? = some word ∧ IsFrameOf tree codes stack block level word

section Frames

variable {tree : Tree} {codes : List PlacedCode} {stack stack' callers : List Activation}
variable {block inner : BlockId} {level : Nat} {word : Word} {activation : Activation}

theorem IsFrameOf.mono (h : IsFrameOf tree codes stack block level word)
    (hstack : stack ⊆ stack') : IsFrameOf tree codes stack' block level word := by
  obtain ⟨activation, hmem, made, owner, hmade⟩ := h
  exact ⟨activation, hstack hmem, made, owner, hmade⟩

theorem IsFrameOf.congr (h : IsFrameOf tree codes stack block level word)
    (hsame : tree.frameAt inner level = tree.frameAt block level) :
    IsFrameOf tree codes stack inner level word := by
  obtain ⟨activation, hmem, made, owner, hframe, hpointer, hblock, howner⟩ := h
  exact ⟨activation, hmem, made, owner, hframe, hpointer, hblock, hsame.trans howner⟩

/-- What an activation has pushed does not matter. -/
theorem Reaches.replace (h : Reaches tree codes block (activation :: callers))
    (pushed : List (Nat × Word)) :
    Reaches tree codes block ({ activation with pushed } :: callers) := by
  obtain ⟨frame, hframe, hwords⟩ := h
  refine ⟨frame, hframe, fun level hpos hhigh => ?_⟩
  obtain ⟨word, hword, found, hmem, hfound⟩ := hwords level hpos hhigh
  refine ⟨word, hword, ?_⟩
  rcases List.mem_cons.mp hmem with rfl | hmem
  · exact ⟨_, List.mem_cons_self, hfound⟩
  · exact ⟨found, List.mem_cons_of_mem _ hmem, hfound⟩

end Frames

namespace CheckedProgram

variable {outline : Outline} {skeleton : Skeleton} {tree : Tree} {codes : List PlacedCode}
variable {stack : List Activation} {block inner : BlockId} {start site : Nat}

/-- A body without a frame of its own reaches what its caller reaches. -/
theorem reaches_of_shared (program : CheckedProgram outline skeleton tree)
    (hblock : block ∈ skeleton.blockIds) (hsees : tree.Sees block inner)
    (hshared : tree.isFramed inner = false) (h : Reaches tree codes block stack) :
    Reaches tree codes inner (.called start site :: stack) := by
  obtain ⟨frame, hframe, hwords⟩ := h
  obtain ⟨hle, hsame⟩ := program.frameAt_of_shared hblock hsees hshared
  refine ⟨frame, hframe, fun level hpos hhigh => ?_⟩
  obtain ⟨word, hword, hfound⟩ := hwords level hpos (Nat.le_trans hhigh hle)
  have hmono := hfound.mono (List.subset_cons_self (.called start site) stack)
  exact ⟨word, hword, hmono.congr (hsame level hpos hhigh)⟩

/-- A frame whose display has its own pointer after those of the frames around its block
reaches them all. -/
theorem reaches_of_framed (program : CheckedProgram outline skeleton tree)
    (hblock : block ∈ skeleton.blockIds) (hframed : tree.isFramed block = true)
    {activation : Activation} {made : MadeFrame} (hmade : activation.frame? = some made)
    (hstart : blockAt codes activation.start = some block)
    (hown : made.display[tree.frameLevel block - 1]? = some made.pointer)
    (houter : ∀ level, 1 ≤ level → level < tree.frameLevel block → ∃ word,
      made.display[level - 1]? = some word ∧ IsFrameOf tree codes stack block level word) :
    Reaches tree codes block (activation :: stack) := by
  refine ⟨made, by rw [List.findSome?_cons, hmade], fun level hpos hhigh => ?_⟩
  by_cases hlevel : level = tree.frameLevel block
  · subst hlevel
    exact ⟨made.pointer, hown, activation, List.mem_cons_self, made, block, hmade, rfl, hstart,
      program.frameAt_self hblock hframed⟩
  · obtain ⟨word, hword, hfound⟩ := houter level hpos (Nat.lt_of_le_of_ne hhigh hlevel)
    exact ⟨word, hword, hfound.mono (List.subset_cons_self activation stack)⟩

end CheckedProgram

end MiniPascal
