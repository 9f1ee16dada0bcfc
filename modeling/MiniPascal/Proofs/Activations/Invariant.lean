import MiniPascal.Proofs.Activations.Reaching
import MiniPascal.Proofs.Activations.Stacked
import MiniPascal.Proofs.Activations.Threads

/-!
# The invariant of activations

What holds of a run of a program's listing before every line.  The latest activation is at
a spot of the code of its block, the others wait for a call to return; all have their words
on the stack, and the display of the frame in use reaches what the running code can see.
-/

namespace MiniPascal

open MiniPascal.Assembly
open MiniPascal.Code
open MiniPascal.Machine

/-! ### Spots of a listing -/

abbrev PlacedCode.threading (placed : PlacedCode) (image : Image) (tree : Tree)
    (codes : List PlacedCode) : Threading where
  image
  tree
  codes
  block := placed.block
  whole := placed.code

/-- A line of a listing belongs to code. -/
def PlacedCode.Covers (placed : PlacedCode) (line : Nat) : Prop :=
  placed.start ≤ line ∧ line < placed.start + placed.code.length

/-- A line of a listing is at a spot in code. -/
structure PlacedCode.At (placed : PlacedCode) (image : Image) (tree : Tree)
    (codes : List PlacedCode) (front back : List Line) (comment : String) (line : Nat)
    (spot : Spot) : Prop where
  code_eq : placed.code = front ++ (back ++ [.instruction none .ret comment])
  line_eq : line = placed.start + front.length
  passed : (placed.threading image tree codes).Threads placed.start
    (.first tree placed.block) front spot
  ahead : (placed.threading image tree codes).Threads line spot back
    (.last tree placed.block)

theorem PlacedCode.At.covers {placed : PlacedCode} {image : Image} {tree : Tree}
    {codes : List PlacedCode} {front back : List Line} {comment : String} {line : Nat}
    {spot : Spot} (h : placed.At image tree codes front back comment line spot) :
    placed.Covers line := by
  rw [PlacedCode.Covers, h.code_eq, h.line_eq, List.length_append, List.length_append,
    List.length_singleton]
  omega

/-- A line of a listing is at a spot in the code of a block. -/
def Image.At (image : Image) (tree : Tree) (codes : List PlacedCode) (line : Nat)
    (block : BlockId) (spot : Spot) : Prop :=
  ∃ placed ∈ codes, placed.block = block ∧
    ∃ front back comment, placed.At image tree codes front back comment line spot

/-- A listing has the codes of a program's blocks, and the entry that calls the program. -/
structure Image.Loads (image : Image) (skeleton : Skeleton) (tree : Tree)
    (codes : List PlacedCode) (main : Nat) : Prop where
  distinct : image.Distinct
  placed : ∀ placed ∈ codes, image.Placed placed.start placed.code
  whole : ∀ placed ∈ codes, (placed.threading image tree codes).Whole placed.start
  blocks : ∀ placed ∈ codes, placed.block ∈ skeleton.blockIds
  disjoint : ∀ placed ∈ codes, ∀ other ∈ codes, ∀ line, placed.Covers line → other.Covers line →
    placed = other
  behind : ∀ placed ∈ codes, main + 2 < placed.start
  entry : ∃ label comment, ∃ placed ∈ codes,
    image.lines[main]? = some (.instruction (some (.global "main")) (.call label) comment) ∧
      image.target? label = some placed.start ∧ placed.block = tree.body
  status : ∃ comment,
    image.lines[main + 1]? = some (.instruction none (.move (.immediate 0) .eax) comment)
  ending : ∃ comment, image.lines[main + 2]? = some (.instruction none .ret comment)

section Spots

variable {image : Image} {skeleton : Skeleton} {tree : Tree} {codes : List PlacedCode}
variable {main line index : Nat} {block : BlockId} {spot spot' : Spot} {placed : PlacedCode}

theorem Image.Loads.covers_start (loads : image.Loads skeleton tree codes main)
    (hplaced : placed ∈ codes) : placed.Covers placed.start := by
  obtain ⟨lines, comment, hwhole, -⟩ := loads.whole placed hplaced
  change placed.code = _ at hwhole
  rw [PlacedCode.Covers, hwhole, List.length_append, List.length_singleton]
  omega

theorem Image.Loads.found (loads : image.Loads skeleton tree codes main)
    (hplaced : placed ∈ codes) : blockAt codes placed.start = some placed.block := by
  unfold blockAt
  cases hfind : codes.find? (·.start == placed.start) with
  | none =>
      have hnone := List.find?_eq_none.mp hfind placed hplaced
      exact absurd (beq_self_eq_true placed.start) hnone
  | some other =>
      have hother := List.mem_of_find?_eq_some hfind
      have hsame := List.find?_some hfind
      have hstart : other.start = placed.start := beq_iff_eq.mp hsame
      have hcovers := loads.covers_start hother
      rw [hstart] at hcovers
      rw [loads.disjoint other hother placed hplaced _ hcovers (loads.covers_start hplaced)]
      rfl

theorem Image.Loads.mem_blockIds (loads : image.Loads skeleton tree codes main) {start : Nat}
    (h : blockAt codes start = some block) : block ∈ skeleton.blockIds := by
  obtain ⟨placed, hfind, rfl⟩ := Option.map_eq_some_iff.mp h
  exact loads.blocks placed (List.mem_of_find?_eq_some hfind)

/-- Code begins where nothing is on the stack. -/
theorem Image.Loads.at_start (loads : image.Loads skeleton tree codes main)
    (hplaced : placed ∈ codes) :
    image.At tree codes placed.start placed.block (.first tree placed.block) := by
  obtain ⟨lines, comment, hwhole, hthreads⟩ := loads.whole placed hplaced
  exact ⟨placed, hplaced, rfl, [], lines, comment, hwhole, rfl, .nil, hthreads⟩

/-- On a line at a spot, the code returns, or a rule leads on to the next line. -/
theorem Image.At.cases (loads : image.Loads skeleton tree codes main)
    (h : image.At tree codes line block spot) :
    (spot = .last tree block ∧
      ∃ comment, image.lines[line]? = some (.instruction none .ret comment)) ∨
    ∃ placed ∈ codes, placed.block = block ∧ ∃ text spot', image.lines[line]? = some text ∧
      (placed.threading image tree codes).Rule line text spot spot' ∧
      image.At tree codes (line + 1) block spot' := by
  obtain ⟨placed, hplaced, rfl, front, back, comment, hcode, rfl, hpassed, hahead⟩ := h
  have hlies := loads.placed placed hplaced
  rw [hcode] at hlies
  have hback := (Image.placed_append.mp hlies).2
  cases hahead with
  | nil => exact .inl ⟨rfl, comment, hback.head⟩
  | @cons _ _ spot' _ text back rule rest =>
      refine .inr ⟨placed, hplaced, rfl, text, spot', hback.head, rule, placed, hplaced, rfl,
        front ++ [text], back, comment, ?_, ?_, ?_, rest⟩
      · rw [hcode, List.append_assoc]
        rfl
      · rw [List.length_append, List.length_singleton, Nat.add_assoc]
      · exact hpassed.append (.single rule)

/-- A label is found where nothing is on the stack. -/
theorem Image.Loads.at_target (loads : image.Loads skeleton tree codes main)
    (hplaced : placed ∈ codes) {label : Label} (hshown : .label label ∈ placed.code)
    (htarget : image.target? label = some index) :
    image.At tree codes index placed.block (.inside [] 0) := by
  obtain ⟨lines, comment, hwhole, hthreads⟩ := loads.whole placed hplaced
  change placed.code = _ at hwhole
  have hmem : .label label ∈ lines := by
    rw [hwhole] at hshown
    rcases List.mem_append.mp hshown with hmem | hlast
    · exact hmem
    · cases List.mem_singleton.mp hlast
  obtain ⟨front, back, rfl⟩ := List.append_of_mem hmem
  obtain ⟨spot, hfront, hlabel⟩ := hthreads.exists_of_append
  have hlies := loads.placed placed hplaced
  rw [hwhole, List.append_assoc] at hlies
  have hfound : image.target? label = some (placed.start + front.length) :=
    Image.target?_eq_some loads.distinct (Image.placed_append.mp hlies).2.head rfl
  obtain rfl := Option.some.inj (htarget.symm.trans hfound)
  have hspot : spot = .inside [] 0 := by
    cases hlabel with
    | cons rule _ =>
        cases rule with
        | label => rfl
        | silent hsilent | fetch hsilent => cases hsilent
  subst hspot
  refine ⟨placed, hplaced, rfl, front, .label label :: back, comment, ?_, rfl, hfront, hlabel⟩
  rw [hwhole, List.append_assoc]

end Spots

/-! ### The invariant -/

/-- The words of a spot that may have been changed. -/
def Code.Spot.stale : Spot → Nat
  | .inside _ stale => stale
  | .begun | .ended | .loaded .. => 0

/-- An activation of a block has made a frame and pushed words as it must have at a spot. -/
def Code.Spot.Fits (tree : Tree) (block : BlockId) (activation : Activation) : Spot → Prop
  | .begun | .ended => activation.frame? = none ∧ activation.pushed = []
  | .inside pushes _ | .loaded pushes _ =>
    activation.frame?.isSome = tree.isFramed block ∧ activation.pushed.map Prod.fst = pushes

/-- Activations were called one by the other, the first one by the entry.  Those that wait
are behind the call of a body that they see, and the display reaches what they see. -/
inductive Chained (image : Image) (tree : Tree) (codes : List PlacedCode) (main : Nat) :
    List Activation → Prop
  | root {activation : Activation} (hsite : activation.site = main)
      (hblock : blockAt codes activation.start = some tree.body) :
      Chained image tree codes main [activation]
  | call {callee caller : Activation} {callers : List Activation} {block body : BlockId}
      {args : List Expr} {lines pushes : List Nat}
      (hcallee : blockAt codes callee.start = some body)
      (hcaller : blockAt codes caller.start = some block)
      (hspot : image.At tree codes (callee.site + 1) block
        (.inside (lines ++ pushes) lines.length))
      (hfits : Spot.Fits tree block caller (.inside (lines ++ pushes) lines.length))
      (hcalls : image.CallsBody tree codes block body args lines callee.site)
      (hsees : tree.Sees block body)
      (hreaches : Reaches tree codes block (caller :: callers))
      (rest : Chained image tree codes main (caller :: callers)) :
      Chained image tree codes main (callee :: caller :: callers)

/-- The latest activation runs at a spot in the code of its block. -/
structure Active (image : Image) (tree : Tree) (codes : List PlacedCode) (main : Nat)
    (block : BlockId) (spot : Spot) (machine : Machine) (activation : Activation)
    (callers : List Activation) : Prop where
  block_eq : blockAt codes activation.start = some block
  fits : spot.Fits tree block activation
  stacked : Stacked image tree codes machine.memory spot.stale machine.esp.toNat machine.ebp
    (activation :: callers)
  chained : Chained image tree codes main (activation :: callers)
  reaches : spot ≠ .begun → spot ≠ .ended → Reaches tree codes block (activation :: callers)
  loaded : ∀ pushes level, spot = .loaded pushes level → machine.edx = machine.displayWord level
  given : spot = .begun → ∀ caller ∈ callers.head?,
    PushedWords machine.memory 0 (machine.esp.toNat + 4) caller.pushed

/-- What holds before every line: the entry runs, or an activation does. -/
inductive Sound (image : Image) (tree : Tree) (codes : List PlacedCode) (main : Nat) :
    Tracked → Prop
  | entry {line : Nat} {machine : Machine} (hlow : main ≤ line) (hhigh : line ≤ main + 2) :
      Sound image tree codes main ⟨⟨line, machine⟩, []⟩
  | active {line : Nat} {machine : Machine} {activation : Activation}
      {callers : List Activation} {block : BlockId} {spot : Spot}
      (hat : image.At tree codes line block spot)
      (active : Active image tree codes main block spot machine activation callers) :
      Sound image tree codes main ⟨⟨line, machine⟩, activation :: callers⟩

/-- Who called an activation depends only on where it was called and where its code is. -/
theorem Chained.replace {image : Image} {tree : Tree} {codes : List PlacedCode} {main : Nat}
    {activation activation' : Activation} {callers : List Activation}
    (h : Chained image tree codes main (activation :: callers))
    (hstart : activation'.start = activation.start) (hsite : activation'.site = activation.site) :
    Chained image tree codes main (activation' :: callers) := by
  cases h with
  | root hfound hblock =>
      exact .root (hsite.trans hfound) (hstart ▸ hblock)
  | call hcallee hcaller hspot hfits hcalls hsees hreaches rest =>
      exact .call (hstart ▸ hcallee) hcaller (hsite ▸ hspot) hfits (hsite ▸ hcalls) hsees hreaches
        rest

end MiniPascal
