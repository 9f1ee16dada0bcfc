import MiniPascal.Scope
import Mathlib.Data.List.Nodup
import Mathlib.Data.Option.Basic

/-!
# Frames over a history of scopes

Blocks are entered and left and variables get their words in any order, from the library
on.  The blocks still open after a history are told apart by what was done before each was
entered, and the words handed out are put down to the innermost open block or to the
innermost one that owns its frame.  Two lists follow the whole chain of blocks: the bytes
of each block's own variables, and the next free offset of each frame in use.  They follow
it in whatever way bytes are counted, and whatever they are counted in is the exact count put
into that type.  With counters of 32 bits the numbers are right as long as no frame gets more
words than have offsets.
-/

namespace MiniPascal

/-- An operation on the blocks being checked. -/
inductive ScopeStep
  | push (block : BlockId) (ownsFrame : Bool)
  | pop
  | allocate
  deriving DecidableEq, Repr

/-- What an operation reports. -/
inductive ScopeReport (Count : Type)
  | entered
  | left (summary : FrameSummary Count)
  | refused (diagnostic : Diagnostic)
  | word (offset : Count)
  deriving DecidableEq, Repr

/-- A block that was entered, with all that was done before, the latest step first. -/
structure OpenScope where
  before : List ScopeStep
  block : BlockId
  ownsFrame : Bool
  deriving DecidableEq, Repr

namespace Scope

open ByteCount (ofInt)

variable {Count : Type} [Add Count] [Sub Count] [ByteCount Count]

def step (scope : Scope Count) : ScopeStep → ScopeReport Count × Scope Count
  | .push block ownsFrame => (.entered, scope.push block ownsFrame)
  | .pop =>
    match scope.pop? with
    | some (summary, outside) => (.left summary, outside)
    | none => (.refused emptyPop, scope)
  | .allocate => (.word scope.allocate.1, scope.allocate.2)

/-- The blocks being checked after a history from the start, the latest step first. -/
def after : List ScopeStep → Scope Count
  | [] => library
  | step :: history => ((after history).step step).2

/-- The blocks entered and not yet left, from the inside out. -/
def openAfter : List ScopeStep → List OpenScope
  | [] => []
  | .push block ownsFrame :: history => ⟨history, block, ownsFrame⟩ :: openAfter history
  | .pop :: history => (openAfter history).tail
  | .allocate :: history => openAfter history

/-- The innermost open block; none is the library. -/
def innermost (history : List ScopeStep) : Option OpenScope :=
  (openAfter history).head?

/-- The innermost open block that owns its frame; none is the library. -/
def frameAfter (history : List ScopeStep) : Option OpenScope :=
  (openAfter history).find? OpenScope.ownsFrame

/-- The number of words handed out while `place` is the given block. -/
def words (place : List ScopeStep → Option OpenScope) (scope : Option OpenScope) :
    List ScopeStep → Nat
  | [] => 0
  | .allocate :: history => words place scope history + if place history = scope then 1 else 0
  | .push _ _ :: history | .pop :: history => words place scope history

def ownWords (scope : Option OpenScope) (history : List ScopeStep) : Nat :=
  words innermost scope history

/-- The words handed out in the frame of a block, by it and by those that share it. -/
def frameWords (frame : Option OpenScope) (history : List ScopeStep) : Nat :=
  words frameAfter frame history

/-- The offsets handed out in the frame of a block, in order. -/
def frameOffsets (frame : Option OpenScope) : List ScopeStep → List Count
  | [] => []
  | .allocate :: history =>
    frameOffsets frame history ++
      if frameAfter history = frame then [(after history).allocate.1] else []
  | .push _ _ :: history | .pop :: history => frameOffsets frame history

/-! ### Open blocks -/

theorem before_lt_of_mem_openAfter {history : List ScopeStep} {scope : OpenScope}
    (h : scope ∈ openAfter history) : scope.before.length < history.length := by
  induction history with
  | nil => exact absurd h List.not_mem_nil
  | cons step history ih =>
      rw [List.length_cons]
      cases step with
      | push block ownsFrame =>
          obtain rfl | hmem := List.mem_cons.mp h
          · exact Nat.lt_succ_self _
          · exact Nat.lt_succ_of_lt (ih hmem)
      | pop => exact Nat.lt_succ_of_lt (ih (List.mem_of_mem_tail h))
      | allocate => exact Nat.lt_succ_of_lt (ih h)

/-- No block is open twice. -/
theorem openAfter_nodup (history : List ScopeStep) : (openAfter history).Nodup := by
  induction history with
  | nil => exact List.nodup_nil
  | cons step history ih =>
      cases step with
      | push block ownsFrame =>
          exact List.nodup_cons.mpr
            ⟨fun h => Nat.lt_irrefl _ (before_lt_of_mem_openAfter h), ih⟩
      | pop => exact ih.sublist (List.tail_sublist _)
      | allocate => exact ih

/-- Around an open block are those that were open when it was entered. -/
theorem openAfter_before {history : List ScopeStep} {scope : OpenScope}
    {around : List OpenScope} (h : scope :: around <:+ openAfter history) :
    around = openAfter scope.before := by
  induction history with
  | nil => cases List.suffix_nil.mp h
  | cons step history ih =>
      cases step with
      | push block ownsFrame =>
          rcases List.suffix_cons_iff.mp h with heq | hsuffix
          · obtain ⟨rfl, rfl⟩ := List.cons.inj heq
            rfl
          · exact ih hsuffix
      | pop => exact ih (h.trans (List.tail_suffix _))
      | allocate => exact ih h

/-- The library stands around all open blocks. -/
def withLibrary (scopes : List OpenScope) : List (Option OpenScope) :=
  scopes.map some ++ [none]

theorem withLibrary_nodup {scopes : List OpenScope} (h : scopes.Nodup) :
    (withLibrary scopes).Nodup := by
  refine List.nodup_append.mpr
    ⟨h.map (Option.some_injective _), List.nodup_singleton none, ?_⟩
  intro left hleft right hright heq
  obtain ⟨scope, -, rfl⟩ := List.mem_map.mp hleft
  rw [List.mem_singleton.mp hright] at heq
  exact Option.some_ne_none scope heq

theorem withLibrary_eq (scopes : List OpenScope) :
    withLibrary scopes = scopes.head? :: (withLibrary scopes).tail := by
  cases scopes <;> rfl

/-- The open blocks that own their frames. -/
def owners (history : List ScopeStep) : List OpenScope :=
  (openAfter history).filter OpenScope.ownsFrame

theorem head?_owners (history : List ScopeStep) :
    (owners history).head? = frameAfter history :=
  List.head?_filter ..

theorem mem_openAfter_of_innermost (history : List ScopeStep) (scope : OpenScope)
    (h : innermost history = some scope) : scope ∈ openAfter history :=
  List.mem_of_mem_head? h

theorem mem_openAfter_of_frameAfter (history : List ScopeStep) (scope : OpenScope)
    (h : frameAfter history = some scope) : scope ∈ openAfter history :=
  List.mem_of_find?_eq_some h

/-- The frame of an open block is settled when it is entered. -/
theorem frameAfter_of_innermost {history : List ScopeStep} {scope : OpenScope}
    (h : innermost history = some scope) :
    frameAfter history = if scope.ownsFrame then some scope else frameAfter scope.before := by
  obtain ⟨around, hopen⟩ := List.head?_eq_some_iff.mp h
  have haround : around = openAfter scope.before :=
    openAfter_before ⟨[], hopen.symm⟩
  rw [frameAfter, frameAfter, hopen, haround]
  cases hframe : scope.ownsFrame with
  | true => rw [List.find?_cons_of_pos hframe, if_pos rfl]
  | false => rw [List.find?_cons_of_neg (by simp [hframe]), if_neg Bool.false_ne_true]

/-! ### Words put down to a block -/

section Words

variable {place : List ScopeStep → Option OpenScope}

theorem words_allocate (history : List ScopeStep) (scope : Option OpenScope) :
    words place scope (.allocate :: history) =
      words place scope history + if place history = scope then 1 else 0 := rfl

theorem words_le_length (scope : Option OpenScope) (history : List ScopeStep) :
    words place scope history ≤ history.length := by
  induction history with
  | nil => exact Nat.le_refl 0
  | cons step history ih =>
      cases step with
      | push | pop => exact Nat.le_succ_of_le ih
      | allocate =>
          rw [words_allocate, List.length_cons]
          split <;> omega

/-- Nothing is put down to a block before it is entered. -/
theorem words_eq_zero (hopen : ∀ history scope, place history = some scope →
      scope ∈ openAfter history) {history : List ScopeStep} {scope : OpenScope}
    (h : history.length ≤ scope.before.length) : words place (some scope) history = 0 := by
  induction history with
  | nil => rfl
  | cons step history ih =>
      have hlater : history.length ≤ scope.before.length := Nat.le_of_succ_le h
      cases step with
      | push | pop => exact ih hlater
      | allocate =>
          have hother : place history ≠ some scope := fun hplace =>
            Nat.not_lt.mpr hlater (before_lt_of_mem_openAfter (hopen _ _ hplace))
          rw [words_allocate, ih hlater, if_neg hother]

/-- With the next word, the first of the blocks has one more, and the others have as many. -/
theorem map_words_allocate {history : List ScopeStep} {scopes : List OpenScope}
    (hnodup : scopes.Nodup) (hplace : scopes.head? = place history) {α : Type} (count : Nat → α)
    {first : α} {others : List α}
    (h : first :: others =
      (withLibrary scopes).map fun scope => count (words place scope history)) :
    first = count (words place (place history) history) ∧
      count (words place (place history) history + 1) :: others =
        (withLibrary scopes).map fun scope =>
          count (words place scope (.allocate :: history)) := by
  have hapart := withLibrary_nodup hnodup
  rw [withLibrary_eq, hplace] at hapart h ⊢
  obtain ⟨hfresh, -⟩ := List.nodup_cons.mp hapart
  rw [List.map_cons] at h ⊢
  obtain ⟨hfirst, hothers⟩ := List.cons.inj h
  refine ⟨hfirst, ?_⟩
  rw [words_allocate, if_pos rfl, hothers]
  refine congrArg _ (List.map_congr_left fun scope hmem => ?_)
  have hother : place history ≠ scope := fun heq => hfresh (heq ▸ hmem)
  rw [words_allocate, if_neg hother, Nat.add_zero]

end Words

/-- The words of an open block are in its frame. -/
theorem ownWords_le_frameWords {history : List ScopeStep} {scope : OpenScope}
    (h : innermost history = some scope) :
    ownWords (some scope) history ≤ frameWords (frameAfter history) history := by
  rw [frameAfter_of_innermost h]
  clear h
  induction history with
  | nil => exact Nat.le_refl 0
  | cons step history ih =>
      cases step with
      | push | pop => exact ih
      | allocate =>
          by_cases hscope : innermost history = some scope
          · have hframe := frameAfter_of_innermost hscope
            rw [ownWords, frameWords, words_allocate, words_allocate, if_pos hscope,
              if_pos hframe]
            exact Nat.succ_le_succ ih
          · rw [ownWords, frameWords, words_allocate, words_allocate, if_neg hscope]
            exact Nat.le_trans ih (Nat.le_add_right _ _)

/-! ### The chain of levels -/

/-- The library is never left. -/
theorem step_pop_of_nil {scope : Scope Count} (h : scope.outer = []) :
    scope.step .pop = (.refused emptyPop, scope) := by
  rw [step, pop?, h]

/-- From another block it goes back to the level around it, with the next offset of a frame
that they share. -/
theorem step_pop_of_cons {scope : Scope Count} {around : ScopeLevel Count}
    {outer : List (ScopeLevel Count)} (h : scope.outer = around :: outer) :
    scope.step .pop =
      (.left ⟨scope.current.ownBytes, ofInt Frame.firstLocalOffset - scope.current.nextOffset⟩,
        ⟨if scope.current.ownsFrame then around
          else { around with nextOffset := scope.current.nextOffset }, outer⟩) := by
  rw [step, pop?, h]

section Levels

variable (Count)

/-- Each open block has one level around it. -/
theorem length_outer (history : List ScopeStep) :
    (after history : Scope Count).outer.length = (openAfter history).length := by
  induction history with
  | nil => rfl
  | cons step history ih =>
      cases step with
      | push block ownsFrame => exact congrArg (· + 1) ih
      | allocate => exact ih
      | pop =>
          rw [after, openAfter, List.length_tail, ← ih]
          cases houter : (after history : Scope Count).outer with
          | nil => rw [step_pop_of_nil houter, houter, List.length_nil]
          | cons around outer =>
              rw [step_pop_of_cons houter, List.length_cons, Nat.add_sub_cancel]

/-- Either no block is open and the library alone is left, or there is a level around the
innermost block. -/
theorem open_cases (history : List ScopeStep) :
    (openAfter history = [] ∧ (after history : Scope Count).outer = []) ∨
      ∃ scope rest around outer, openAfter history = scope :: rest ∧
        (after history : Scope Count).outer = around :: outer := by
  have hlength := length_outer Count history
  cases hopen : openAfter history with
  | nil =>
      rw [hopen] at hlength
      exact .inl ⟨rfl, List.length_eq_zero_iff.mp hlength⟩
  | cons scope rest =>
      rw [hopen] at hlength
      obtain ⟨around, outer, houter⟩ := List.exists_cons_of_length_eq_add_one hlength
      exact .inr ⟨scope, rest, around, outer, rfl, houter⟩

end Levels

/-- A level but for the offset of its next variable. -/
def fixed (level : ScopeLevel Count) : ScopeLevel Count :=
  { level with nextOffset := ofInt 0 }

theorem eq_of_fixed_eq {level other : ScopeLevel Count} (h : fixed level = fixed other) :
    { level with nextOffset := other.nextOffset } = other :=
  congrArg (fun fixed : ScopeLevel Count => { fixed with nextOffset := other.nextOffset }) h

/-- Around each open block stands the level at which it was entered. -/
theorem outer_fixed (history : List ScopeStep) :
    (after history : Scope Count).outer.map fixed =
      (openAfter history).map fun scope => fixed (after scope.before).current := by
  induction history with
  | nil => rfl
  | cons step history ih =>
      cases step with
      | push block ownsFrame => exact congrArg (fixed (after history).current :: ·) ih
      | allocate => exact ih
      | pop =>
          rw [after, openAfter]
          obtain ⟨hopen, houter⟩ | ⟨scope, rest, around, outer, hopen, houter⟩ :=
            open_cases Count history
          · rw [step_pop_of_nil houter, hopen, houter]
            rfl
          · rw [step_pop_of_cons houter, hopen]
            rw [hopen, houter] at ih
            exact (List.cons.inj ih).2

/-- Leaving a block brings back the level at which it was entered but for the next offset. -/
theorem fixed_after_pop {history : List ScopeStep} {scope : OpenScope} {rest : List OpenScope}
    (h : openAfter history = scope :: rest) :
    fixed (after (.pop :: history) : Scope Count).current =
      fixed (after scope.before).current := by
  obtain ⟨hopen, -⟩ | ⟨_, _, around, outer, -, houter⟩ := open_cases Count history
  · rw [hopen] at h
    cases h
  · have hfixed := @outer_fixed Count _ _ _ history
    rw [h, houter] at hfixed
    refine Eq.trans ?_ (List.cons.inj hfixed).1
    rw [after, step_pop_of_cons houter]
    cases (after history : Scope Count).current.ownsFrame <;> rfl

/-! ### Counting along the chain -/

def bytesOf (words : Nat) : Count :=
  ofInt (4 * words)

/-- The offset that is handed out after a number of words of a frame. -/
def offsetAfter (words : Nat) : Count :=
  ofInt (-36 - 4 * words)

theorem bytesOf_succ (words : Nat) :
    (bytesOf (words + 1) : Count) = bytesOf words + ofInt Frame.wordSize := by
  rw [bytesOf, bytesOf, ← ByteCount.ofInt_add]
  rfl

theorem offsetAfter_succ (words : Nat) :
    (offsetAfter (words + 1) : Count) = offsetAfter words - ofInt Frame.wordSize := by
  have hnext : (-36 - 4 * (words + 1 : Nat) : Int) = -36 - 4 * words - Frame.wordSize := by
    rw [Frame.wordSize]
    omega
  rw [offsetAfter, offsetAfter, ← ByteCount.ofInt_sub, hnext]

/-- The bytes of a frame lie between its first offset and the next one. -/
theorem sub_offsetAfter (words : Nat) :
    (ofInt Frame.firstLocalOffset - offsetAfter words : Count) = bytesOf words := by
  have hbytes : (Frame.firstLocalOffset - (-36 - 4 * words) : Int) = 4 * words := by
    change (-36 : Int) - _ = _
    omega
  rw [offsetAfter, bytesOf, ← ByteCount.ofInt_sub, hbytes]

/-- The next free offsets of the frames around a block, from the inside out. -/
def offsetsAround : Bool → List (ScopeLevel Count) → List Count
  | _, [] => []
  | true, around :: outer => around.nextOffset :: offsetsAround around.ownsFrame outer
  | false, around :: outer => offsetsAround around.ownsFrame outer

variable (Count) in
/-- The whole chain of levels agrees with the history. -/
structure Tracked (history : List ScopeStep) : Prop where
  ownsFrame : (after history : Scope Count).current.ownsFrame ::
      (after history : Scope Count).outer.map (·.ownsFrame) =
    (openAfter history).map (·.ownsFrame) ++ [true]
  ownBytes : (after history : Scope Count).current.ownBytes ::
      (after history).outer.map (·.ownBytes) =
    (withLibrary (openAfter history)).map fun scope => bytesOf (words innermost scope history)
  nextOffset : (after history : Scope Count).current.nextOffset ::
      offsetsAround (after history : Scope Count).current.ownsFrame (after history).outer =
    (withLibrary (owners history)).map fun frame =>
      offsetAfter (words frameAfter frame history)

theorem Tracked.push {history : List ScopeStep} (h : Tracked Count history) (block : BlockId)
    (ownsFrame : Bool) : Tracked Count (.push block ownsFrame :: history) where
  ownsFrame := congrArg (ownsFrame :: ·) h.ownsFrame
  ownBytes := by
    have hfresh : words innermost (some ⟨history, block, ownsFrame⟩) history = 0 :=
      words_eq_zero mem_openAfter_of_innermost (Nat.le_refl _)
    simp only [words]
    rw [openAfter, withLibrary, List.map_cons, List.cons_append, List.map_cons, hfresh]
    exact congrArg (bytesOf 0 :: ·) h.ownBytes
  nextOffset := by
    simp only [words]
    cases ownsFrame with
    | false => exact h.nextOffset
    | true =>
        have hfresh : words frameAfter (some ⟨history, block, true⟩) history = 0 :=
          words_eq_zero mem_openAfter_of_frameAfter (Nat.le_refl _)
        rw [owners, openAfter, List.filter_cons_of_pos rfl, withLibrary, List.map_cons,
          List.cons_append, List.map_cons, hfresh]
        exact congrArg (offsetAfter 0 :: ·) h.nextOffset

theorem Tracked.allocate {history : List ScopeStep} (h : Tracked Count history) :
    Tracked Count (.allocate :: history) where
  ownsFrame := h.ownsFrame
  ownBytes := by
    obtain ⟨hfirst, hall⟩ := map_words_allocate (openAfter_nodup history) rfl bytesOf h.ownBytes
    refine Eq.trans (congrArg₂ _ ?_ rfl) hall
    change (after history).current.ownBytes + ofInt Frame.wordSize = _
    rw [hfirst, bytesOf_succ]
  nextOffset := by
    obtain ⟨hfirst, hall⟩ := map_words_allocate ((openAfter_nodup history).filter _)
      (head?_owners history) offsetAfter h.nextOffset
    refine Eq.trans (congrArg₂ _ ?_ rfl) hall
    change (after history).current.nextOffset - ofInt Frame.wordSize = _
    rw [hfirst, offsetAfter_succ]

theorem Tracked.pop {history : List ScopeStep} (h : Tracked Count history) :
    Tracked Count (.pop :: history) := by
  obtain ⟨hopen, houter⟩ | ⟨scope, rest, around, outer, hopen, houter⟩ :=
    open_cases Count history
  · have hafter : (after (.pop :: history) : Scope Count) = after history := by
      rw [after, step_pop_of_nil houter]
    have hstill : openAfter (.pop :: history) = openAfter history := by
      rw [openAfter, hopen, List.tail_nil]
    have howners : owners (.pop :: history) = owners history := by
      rw [owners, hstill, owners]
    exact
      { ownsFrame := by rw [hafter, hstill]; exact h.ownsFrame
        ownBytes := by rw [hafter, hstill]; exact h.ownBytes
        nextOffset := by rw [hafter, howners]; exact h.nextOffset }
  · obtain ⟨howns, hownBytes, hnext⟩ := h
    have hclosed : openAfter (.pop :: history) = rest := by
      rw [openAfter, hopen, List.tail_cons]
    rw [hopen, houter, List.map_cons, List.map_cons, List.cons_append] at howns
    obtain ⟨hfinished, howns⟩ := List.cons.inj howns
    rw [hopen, houter, List.map_cons, withLibrary, List.map_cons, List.cons_append,
      List.map_cons] at hownBytes
    have hownBytes := (List.cons.inj hownBytes).2
    rw [owners, hopen, houter] at hnext
    have howners : owners (.pop :: history) = rest.filter OpenScope.ownsFrame := by
      rw [owners, hclosed]
    have hafter : after (.pop :: history) =
        ⟨if scope.ownsFrame then around
          else { around with nextOffset := (after history : Scope Count).current.nextOffset },
          outer⟩ := by
      rw [after, step_pop_of_cons houter, hfinished]
    rw [hfinished] at hnext
    -- The next offset of a shared frame goes to the level around.
    cases hshared : scope.ownsFrame with
    | true =>
        rw [hshared, if_pos rfl] at hafter
        rw [hshared, List.filter_cons_of_pos hshared, withLibrary, List.map_cons,
          List.cons_append, List.map_cons] at hnext
        exact
          { ownsFrame := by rw [hafter, hclosed]; exact howns
            ownBytes := by rw [hafter, hclosed]; exact hownBytes
            nextOffset := by rw [hafter, howners]; exact (List.cons.inj hnext).2 }
    | false =>
        rw [hshared, if_neg Bool.false_ne_true] at hafter
        rw [hshared, List.filter_cons_of_neg (by simp [hshared])] at hnext
        exact
          { ownsFrame := by rw [hafter, hclosed]; exact howns
            ownBytes := by rw [hafter, hclosed]; exact hownBytes
            nextOffset := by rw [hafter, howners]; exact hnext }

variable (Count) in
/-- Every history keeps the chain of levels. -/
theorem tracked (history : List ScopeStep) : Tracked Count history := by
  induction history with
  | nil => exact ⟨rfl, rfl, rfl⟩
  | cons step history ih =>
      cases step with
      | push block ownsFrame => exact ih.push block ownsFrame
      | pop => exact ih.pop
      | allocate => exact ih.allocate

/-- The variables of the current block take one word each. -/
theorem ownBytes_after (history : List ScopeStep) :
    (after history : Scope Count).current.ownBytes =
      bytesOf (ownWords (innermost history) history) := by
  have h := (tracked Count history).ownBytes
  rw [withLibrary_eq, List.map_cons] at h
  exact (List.cons.inj h).1

/-- The next variable comes after the words of the current frame. -/
theorem nextOffset_after (history : List ScopeStep) :
    (after history : Scope Count).current.nextOffset =
      offsetAfter (frameWords (frameAfter history) history) := by
  have h := (tracked Count history).nextOffset
  rw [withLibrary_eq, List.map_cons, head?_owners] at h
  exact (List.cons.inj h).1

/-- The offsets of a frame go down by a word from the first, whatever other frames get in
between. -/
theorem frameOffsets_eq (frame : Option OpenScope) (history : List ScopeStep) :
    (frameOffsets frame history : List Count) =
      (List.range (frameWords frame history)).map offsetAfter := by
  induction history with
  | nil => rfl
  | cons step history ih =>
      cases step with
      | push | pop => exact ih
      | allocate =>
          rw [frameOffsets, frameWords, words_allocate, ih]
          by_cases hframe : frameAfter history = frame
          · rw [if_pos hframe, if_pos hframe, List.range_succ, List.map_append,
              List.map_singleton, allocate, nextOffset_after, hframe]
            rfl
          · rw [if_neg hframe, if_neg hframe, List.append_nil, Nat.add_zero]
            rfl

/-- Leaving a block reports its own bytes, and those of its frame so far. -/
theorem step_pop_eq_left {history : List ScopeStep} {scope : OpenScope} {rest : List OpenScope}
    (h : openAfter history = scope :: rest) :
    (after history : Scope Count).step .pop =
      (.left ⟨bytesOf (ownWords (some scope) history),
        bytesOf (frameWords (frameAfter history) history)⟩, after (.pop :: history)) := by
  obtain ⟨hopen, -⟩ | ⟨_, _, around, outer, -, houter⟩ := open_cases Count history
  · rw [hopen] at h
    cases h
  · have hinnermost : innermost history = some scope := by rw [innermost, h, List.head?_cons]
    rw [after, step_pop_of_cons houter, ownBytes_after, hinnermost, nextOffset_after,
      sub_offsetAfter]

theorem openAfter_replicate (count : Nat) (history : List ScopeStep) :
    openAfter (List.replicate count .allocate ++ history) = openAfter history := by
  induction count with
  | zero => rfl
  | succ count ih => exact ih

/-- Words handed out one after the other are handed out at once. -/
theorem after_replicate (count : Nat) (history : List ScopeStep) :
    (after (List.replicate count .allocate ++ history) : Scope Count) =
      (after history).allocateMany count := by
  induction count with
  | zero => rw [List.replicate_zero, List.nil_append, allocateMany_zero]
  | succ count ih =>
      rw [List.replicate_succ, List.cons_append, after, ih, step, allocateMany_succ]

/-! ### Exact counters -/

section Recount

/-- A level whose bytes are counted exactly, with counters of another type. -/
def recountLevel (level : ScopeLevel Int) : ScopeLevel Count :=
  { level with nextOffset := ofInt level.nextOffset, ownBytes := ofInt level.ownBytes }

def recount (scope : Scope Int) : Scope Count where
  current := recountLevel scope.current
  outer := scope.outer.map recountLevel

def recountReport : ScopeReport Int → ScopeReport Count
  | .entered => .entered
  | .left summary => .left ⟨ofInt summary.ownBytes, ofInt summary.frameBytes⟩
  | .refused diagnostic => .refused diagnostic
  | .word offset => .word (ofInt offset)

/-- A step with other counters does what it does with exact ones. -/
theorem step_recount (scope : Scope Int) (step : ScopeStep) :
    (recount scope : Scope Count).step step =
      (recountReport (scope.step step).1, recount (scope.step step).2) := by
  cases step with
  | push block ownsFrame => cases ownsFrame <;> rfl
  | allocate =>
      simp only [Scope.step, allocate, recount, recountLevel, recountReport,
        ByteCount.ofInt_sub, ByteCount.ofInt_add, ByteCount.ofInt_int]
  | pop =>
      obtain ⟨current, _ | ⟨around, outer⟩⟩ := scope
      · rfl
      · have hframe : (ofInt (Frame.firstLocalOffset - current.nextOffset) : Count) =
            ofInt Frame.firstLocalOffset - ofInt current.nextOffset := ByteCount.ofInt_sub _ _
        cases hshared : current.ownsFrame <;>
          simp [Scope.step, pop?, recount, recountLevel, recountReport, hshared, hframe]

/-- **Counters follow exact ones.**  After any history, counters of another type are the exact
ones put into it; with 32 bits they are those of a check, wrapped around. -/
theorem after_eq_recount (history : List ScopeStep) :
    (after history : Scope Count) = recount (after history) := by
  induction history with
  | nil => rfl
  | cons step history ih => rw [after, ih, step_recount, after]

end Recount

/-! ### Counters of 32 bits -/

/-- The words of a frame that have an offset of their own.  The next offset after them is
the least number of 32 bits. -/
def mostWords : Nat := 536870903

section Fitting

variable {words : Nat}

theorem toInt_bytesOf (h : words ≤ mostWords) : (bytesOf words : Int32).toInt = 4 * words := by
  rw [mostWords] at h
  exact Int32.toInt_ofInt_of_le (by omega) (by omega)

theorem toInt_offsetAfter (h : words ≤ mostWords) :
    (offsetAfter words : Int32).toInt = -36 - 4 * words := by
  rw [mostWords] at h
  exact Int32.toInt_ofInt_of_le (by omega) (by omega)

end Fitting

/-- **Frames apart.**  Whatever blocks are entered and left and variables get their words, in
any order from the library on, as long as no frame gets more words than have offsets: the
offsets handed out in a frame, by the block that owns it and by those that share it, are
-36, -40, -44, … in their order.  Leaving a block reports four bytes for each of its own
variables and for each word of its frame so far, and brings back the level at which it was
entered but for the next free offset.  It is refused, and changes nothing, when every block
entered has been left, and only then. -/
theorem frames_apart (history : List ScopeStep)
    (hfits : ∀ frame, frameWords frame history ≤ mostWords) :
    (∀ frame, (frameOffsets frame history).map Int32.toInt =
      (List.range (frameWords frame history)).map fun (k : Nat) => (-36 - 4 * k : Int)) ∧
    match openAfter history with
    | [] => (after history : Scope Int32).step .pop = (.refused emptyPop, after history)
    | scope :: _ =>
      (∃ summary : FrameSummary Int32,
        (after history).step .pop = (.left summary, after (.pop :: history)) ∧
          summary.ownBytes.toInt = 4 * ownWords (some scope) history ∧
          summary.frameBytes.toInt = 4 * frameWords (frameAfter history) history) ∧
        { (after (.pop :: history) : Scope Int32).current with
            nextOffset := (after scope.before).current.nextOffset } =
          (after scope.before).current := by
  constructor
  · intro frame
    rw [frameOffsets_eq, List.map_map]
    apply List.map_congr_left
    intro k hk
    have hword : k ≤ mostWords :=
      Nat.le_trans (Nat.le_of_lt (List.mem_range.mp hk)) (hfits frame)
    exact toInt_offsetAfter hword
  · cases hopen : openAfter history with
    | nil =>
        obtain ⟨-, houter⟩ | ⟨_, _, _, _, hcons, -⟩ := open_cases Int32 history
        · exact step_pop_of_nil houter
        · rw [hopen] at hcons
          cases hcons
    | cons scope rest =>
        have hinnermost : innermost history = some scope := by
          rw [innermost, hopen, List.head?_cons]
        have hframe := hfits (frameAfter history)
        have hown : ownWords (some scope) history ≤ mostWords :=
          Nat.le_trans (ownWords_le_frameWords hinnermost) hframe
        exact ⟨⟨_, step_pop_eq_left hopen, toInt_bytesOf hown, toInt_bytesOf hframe⟩,
          eq_of_fixed_eq (fixed_after_pop hopen)⟩

/-- A block with a frame of its own between two words of a shared one. -/
theorem frames_apart_shared :
    let history : List ScopeStep := [.allocate, .pop, .allocate, .push 3 true, .allocate,
      .push 2 false, .allocate, .push 1 true]
    (∀ frame, frameWords frame history ≤ mostWords) ∧
      (frameOffsets (some ⟨[], 1, true⟩) history).map Int32.toInt = [-36, -40, -44] ∧
      ∃ summary : FrameSummary Int32,
        (after history).step .pop = (.left summary, after (.pop :: history)) ∧
          summary.ownBytes.toInt = 8 ∧ summary.frameBytes.toInt = 12 := by
  intro history
  have hfits : ∀ frame, frameWords frame history ≤ mostWords := fun frame =>
    Nat.le_trans (words_le_length frame history) (by decide)
  obtain ⟨hoffsets, hpop⟩ := frames_apart history hfits
  exact ⟨hfits, hoffsets (some ⟨[], 1, true⟩), hpop.1⟩

/-- With two words more the next offset has wrapped around, so the words of the frame do not
lie below one another. -/
theorem offset_wraps_around :
    let history : List ScopeStep := List.replicate 536870904 .allocate ++ [.push 1 true]
    ((after history : Scope Int32).step .allocate).1 = .word 2147483644 ∧
      (frameOffsets (some ⟨[], 1, true⟩) (.allocate :: history)).map Int32.toInt ≠
        (List.range 536870905).map fun (k : Nat) => (-36 - 4 * k : Int) := by
  intro history
  have hoffset : (after history : Scope Int32).allocate.1 = 2147483644 := by
    rw [after_replicate]
    decide
  have hframe : frameAfter history = some ⟨[], 1, true⟩ := by
    rw [frameAfter, openAfter_replicate]
    rfl
  refine ⟨congrArg ScopeReport.word hoffset, fun heq => ?_⟩
  rw [frameOffsets, if_pos hframe, hoffset, List.map_append, List.map_singleton,
    List.range_succ, List.map_append, List.map_singleton] at heq
  have hlast := congrArg List.getLast? heq
  rw [List.getLast?_concat, List.getLast?_concat] at hlast
  exact absurd (Option.some.inj hlast) (by decide)

end Scope

end MiniPascal
