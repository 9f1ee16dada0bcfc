import MiniPascal.Proofs.Activations.Arguments

/-!
# Runs keep the invariant

The invariant holds where the entry begins and is kept by every line, so it holds along
every run.  Inside the code of a block it says what the display reaches; and where a frame
is made, that the arguments of the call are above it.
-/

namespace MiniPascal

open MiniPascal.Assembly
open MiniPascal.Code
open MiniPascal.Machine

variable {outline : Outline} {skeleton : Skeleton} {image : Image} {tree : Tree}
variable {codes : List PlacedCode} {main line : Nat} {machine : Machine}

/-! ### One line -/

/-- A line that an activation runs keeps the invariant. -/
theorem Active.step {block : BlockId} {spot : Spot} {activation : Activation}
    {callers : List Activation} {after : Tracked}
    (active : Active image tree codes main block spot machine activation callers)
    (program : CheckedProgram outline skeleton tree) (loads : image.Loads skeleton tree codes main)
    (hat : image.At tree codes line block spot)
    (h : image.track ⟨⟨line, machine⟩, activation :: callers⟩ = some after) :
    Sound image tree codes main after := by
  rcases hat.cases loads with
    ⟨rfl, comment, hline⟩ | ⟨placed, hplaced, rfl, text, spot', hline, rule, next⟩
  · exact active.sound_of_ret loads hline h
  · cases rule with
    | silent hsilent => exact active.sound_of_silent hsilent hline h (.inl rfl) next
    | display => exact active.sound_of_display hline h next
    | @fetch _ level _ hsilent =>
        exact active.sound_of_silent hsilent hline h (.inr ⟨level, rfl⟩) next
    | store hstores => exact active.sound_of_store hstores hline h next
    | push => exact active.sound_of_push hline h next
    | pop hfree => exact active.sound_of_pop hfree hline h next
    | takeOff hstale => exact active.sound_of_takeOff hstale hline h next
    | label => exact active.sound_of_label hline h next
    | branch hbranch hshown =>
        exact active.sound_of_branch hbranch hline h next fun _ htarget =>
          loads.at_target hplaced hshown htarget
    | runtime htarget => exact active.sound_of_runtime htarget hline h next
    | call hcallee htarget hsees hcalls =>
        exact active.sound_of_call program loads (loads.blocks placed hplaced) hcallee htarget hsees
          hcalls hline h next
    | enter hframe hframed => exact active.sound_of_enter program loads hframed hframe hline h next
    | leave hframed => exact active.sound_of_leave hframed hline h next

/-- The entry calls the program, and returns a status after it. -/
theorem sound_of_entry {after : Tracked} (program : CheckedProgram outline skeleton tree)
    (loads : image.Loads skeleton tree codes main) (hlow : main ≤ line) (hhigh : line ≤ main + 2)
    (h : image.track ⟨⟨line, machine⟩, []⟩ = some after) :
    Sound image tree codes main after := by
  obtain rfl | rfl | rfl : line = main ∨ line = main + 1 ∨ line = main + 2 := by omega
  · obtain ⟨label, comment, callee, hcallee, hline, htarget, hblock⟩ := loads.entry
    obtain ⟨hroom, rfl⟩ := track_of_call htarget hline h
    apply Sound.active (loads.at_start hcallee)
    apply Active.of_call loads hcallee hroom
    case stacked =>
      rw [hblock, program.paramsOf_program]
      exact .nil machine.esp.isLt
    case chained => exact .root rfl (hblock ▸ loads.found hcallee)
    case words => exact nofun
    case reaches =>
      intro hshared
      rw [hblock, program.isFramed_program] at hshared
      cases hshared
  · obtain ⟨comment, hline⟩ := loads.status
    obtain ⟨⟨line', machine'⟩, stack'⟩ := after
    obtain ⟨hstep, haccount⟩ := Image.track_eq_some_iff.mp h
    unfold Image.account at haccount
    simp only [hline, List.modifyHead_nil, Option.some.injEq] at haccount
    subst haccount
    rw [Image.step_instruction hline] at hstep
    obtain ⟨rfl, rfl⟩ := Running.mk.inj (Option.some.inj hstep)
    exact .entry (Nat.le_add_right main 2) (Nat.le_refl _)
  · obtain ⟨comment, hline⟩ := loads.ending
    have haccount := (Image.track_eq_some_iff.mp h).2
    unfold Image.account at haccount
    simp only [hline] at haccount
    cases haccount

theorem Sound.step {before after : Tracked} (sound : Sound image tree codes main before)
    (program : CheckedProgram outline skeleton tree) (loads : image.Loads skeleton tree codes main)
    (h : image.track before = some after) : Sound image tree codes main after := by
  cases sound with
  | entry hlow hhigh => exact sound_of_entry program loads hlow hhigh h
  | active hat active => exact active.step program loads hat h

/-! ### Runs -/

theorem sound_of_tracks {state : Tracked} (program : CheckedProgram outline skeleton tree)
    (loads : image.Loads skeleton tree codes main)
    (h : image.Tracks ⟨⟨main, machine⟩, []⟩ state) : Sound image tree codes main state := by
  induction h with
  | refl => exact .entry (Nat.le_refl main) (Nat.le_add_right main 2)
  | tail _ hstep sound => exact sound.step program loads hstep

/-! ### What the invariant says inside code -/

section Inside

variable {within : Threading} {index : Nat} {spot spot' : Spot} {lines : List Line}

/-- Code that comes to an end of its frame has taken it down. -/
theorem Code.Threading.Threads.leave_mem (h : within.Threads index spot lines .ended)
    (hspot : spot ≠ .ended) : ∃ comment, .instruction none .leave comment ∈ lines := by
  -- the line that leads to the end of the frame for the first time is a `leave`
  generalize hended : Spot.ended = spot' at h
  induction h with
  | nil => exact absurd hended.symm hspot
  | @cons _ _ middle _ _ _ rule _ ih =>
      by_cases hmiddle : middle = .ended
      · subst hmiddle
        cases rule with
        | leave => exact ⟨_, List.mem_cons_self⟩
      · obtain ⟨comment, hmem⟩ := ih hmiddle hended
        exact ⟨comment, List.mem_cons_of_mem _ hmem⟩

/-- Code that begins with no frame of its own makes one. -/
theorem Code.Threading.Threads.enter_mem (h : within.Threads index .begun lines spot)
    (hspot : spot ≠ .begun) :
    ∃ label? size level comment, .instruction label? (.enter size level) comment ∈ lines := by
  cases h with
  | nil => exact absurd rfl hspot
  | cons rule _ =>
      cases rule with
      | enter => exact ⟨_, _, _, _, List.mem_cons_self⟩

end Inside

theorem Code.Spot.first_ne_ended (tree : Tree) (block : BlockId) :
    Spot.first tree block ≠ .ended := by
  unfold Spot.first
  split <;> exact nofun

theorem Code.Spot.last_ne_begun (tree : Tree) (block : BlockId) :
    Spot.last tree block ≠ .begun := by
  unfold Spot.last
  split <;> exact nofun

/-- On a line of code that lies inside of it, an activation of the block runs inside. -/
theorem Sound.exists_active {state : Tracked} (sound : Sound image tree codes main state)
    (loads : image.Loads skeleton tree codes main) {placed : PlacedCode}
    (hplaced : placed ∈ codes) (hcovers : placed.Covers state.line) :
    ∃ activation callers spot front back comment, state.stack = activation :: callers ∧
      placed.At image tree codes front back comment state.line spot ∧
      Active image tree codes main placed.block spot state.machine activation callers := by
  cases sound with
  | @entry line _ _ hhigh =>
      have hbehind := loads.behind placed hplaced
      have hstart : placed.start ≤ line := hcovers.1
      omega
  | @active _ _ activation callers _ spot hat active =>
      obtain ⟨other, hother, rfl, front, back, comment, hat⟩ := hat
      obtain rfl := loads.disjoint other hother placed hplaced _ hat.covers hcovers
      exact ⟨activation, callers, spot, front, back, comment, rfl, hat, active⟩

/-- Inside the code of a block, the display of the frame in use reaches all frames around
the block. -/
theorem Sound.displayReaches {state : Tracked} (sound : Sound image tree codes main state)
    (loads : image.Loads skeleton tree codes main) {placed : PlacedCode}
    (hplaced : placed ∈ codes) {index : Nat} (hindex : index < placed.code.length)
    (hline : state.line = placed.start + index) (hinside : IsInside placed.code index) :
    DisplayReaches tree codes placed.block state := by
  have hcovers : placed.Covers state.line := by
    rw [PlacedCode.Covers, hline]
    omega
  obtain ⟨activation, callers, spot, front, back, comment, hstack, hat, active⟩ :=
    sound.exists_active loads hplaced hcovers
  have hfront : front.length = index := by
    have hfound := hat.line_eq
    omega
  have hbegun : spot ≠ .begun := by
    rintro rfl
    obtain ⟨label?, size, level, comment', hmem⟩ := hat.ahead.enter_mem (Spot.last_ne_begun _ _)
    apply hinside.1 label? size level comment'
    rw [hat.code_eq, ← hfront, List.drop_left]
    exact List.mem_append_left _ hmem
  have hended : spot ≠ .ended := by
    rintro rfl
    obtain ⟨comment', hmem⟩ := hat.passed.leave_mem (Spot.first_ne_ended _ _)
    apply hinside.2 none comment'
    rw [hat.code_eq, ← hfront, List.take_left]
    exact hmem
  obtain ⟨frame, hframe, hwords⟩ := active.reaches hbegun hended
  obtain ⟨hpointer, hroom, hdisplay⟩ := active.stacked.frame hframe
  rw [DisplayReaches, Tracked.frame?, hstack]
  refine ⟨frame, hframe, hpointer, fun level hpos hhigh => ?_⟩
  obtain ⟨word, hword, hfound⟩ := hwords level hpos hhigh
  have hlength := (List.getElem?_eq_some_iff.mp hword).1
  have hread := hdisplay (level - 1) word hword
  rw [Nat.sub_add_cancel hpos] at hread
  refine ⟨word, ?_, hword, hfound⟩
  rw [Machine.read_display, Stacked.displayWord_eq (by omega), hread]

/-- Where the code of a block with parameters begins, it makes a frame, and above that are
the values of the arguments that the caller has computed. -/
theorem parametersHold_of_tracks {state after : Tracked}
    (program : CheckedProgram outline skeleton tree) (loads : image.Loads skeleton tree codes main)
    (htracks : image.Tracks ⟨⟨main, machine⟩, []⟩ state) {placed : PlacedCode}
    (hplaced : placed ∈ codes) (hline : state.line = placed.start)
    (hparams : tree.paramsOf placed.block ≠ []) (h : image.track state = some after) :
    ParametersHold image tree codes ⟨⟨main, machine⟩, []⟩ placed.block after := by
  have sound := sound_of_tracks program loads htracks
  obtain ⟨activation, callers, spot, front, back, comment, hstack, hat, active⟩ :=
    sound.exists_active loads hplaced (hline ▸ loads.covers_start hplaced)
  have hfront : front = [] := by
    have hfound := hat.line_eq
    exact List.length_eq_zero_iff.mp (by omega)
  subst hfront
  have hframed := program.isFramed_of_params (loads.blocks placed hplaced) hparams
  have hspot : spot = .begun := by
    have hpassed := hat.passed
    rw [Spot.first, hframed] at hpassed
    cases hpassed
    rfl
  subst hspot
  obtain ⟨⟨line, machine⟩, stack⟩ := state
  obtain rfl : stack = activation :: callers := hstack
  rcases Image.At.cases loads ⟨placed, hplaced, rfl, [], back, comment, hat⟩ with
    ⟨hlast, -⟩ | ⟨other, -, hother, text, spot', htext, rule, -⟩
  · exact absurd hlast.symm (Spot.last_ne_begun _ _)
  · cases rule with
    | enter hframe _ =>
        change tree.blocks[other.block]? = _ at hframe
        rw [hother] at hframe
        exact active.parametersHold program loads hframed hframe htext rfl htracks h hparams

end MiniPascal
