import MiniPascal.Proofs.Activations.Steps

/-!
# Arguments of calls

An activation keeps the words it has pushed until it takes them off.  So each of them is
what `eax` held when the run came to the line of the push, in the same activation and with
the same words below.  When a routine makes its frame, the words above it are those of its
caller, so its parameters are the values of the arguments.
-/

namespace MiniPascal

open MiniPascal.Assembly
open MiniPascal.Code
open MiniPascal.Machine

variable {image : Image} {line : Nat} {machine : Machine}

/-- The words of an activation after an instruction are those before, less some of the
latest; or a word was pushed. -/
theorem Activation.pushed_ran (activation : Activation) (line : Nat) (machine : Machine)
    (instruction : Instruction) :
    (∃ source, instruction = .push source ∧
      (activation.ran line machine instruction).pushed =
        (line, machine.top) :: activation.pushed) ∨
    ∃ count, (activation.ran line machine instruction).pushed =
      activation.pushed.drop count := by
  unfold ran
  split
  · exact .inl ⟨_, rfl, rfl⟩
  · exact .inr ⟨1, List.drop_one.symm⟩
  · exact .inr ⟨_, rfl⟩
  · exact .inr ⟨0, rfl⟩
  · exact .inr ⟨0, rfl⟩
  · exact .inr ⟨0, rfl⟩

/-- An instruction changes neither the code of an activation nor the line of its call. -/
theorem Activation.place_ran (activation : Activation) (line : Nat) (machine : Machine)
    (instruction : Instruction) :
    (activation.ran line machine instruction).start = activation.start ∧
      (activation.ran line machine instruction).site = activation.site := by
  unfold ran
  split <;> exact ⟨rfl, rfl⟩

/-- A line begins an activation, ends the latest one, or is run by it. -/
theorem Image.account_cases {stack stack' : List Activation}
    (h : image.account line machine stack = some stack') :
    stack' = stack ∨ (∃ start, stack' = .called start line :: stack) ∨
      (∃ activation, stack = activation :: stack') ∨
      ∃ label? instruction comment,
        image.lines[line]? = some (.instruction label? instruction comment) ∧
        stack' = stack.modifyHead (·.ran line machine instruction) := by
  unfold account at h
  split at h
  · split at h
    · exact .inr (.inl ⟨_, (Option.some.inj h).symm⟩)
    · exact .inl (Option.some.inj h).symm
  · split at h
    · cases h
    · exact .inr (.inr (.inl ⟨_, congrArg _ (Option.some.inj h)⟩))
  · next hline =>
      split at h
      · exact .inr (.inr (.inr ⟨_, _, _, hline, (Option.some.inj h).symm⟩))
      · cases h
  · next hline => exact .inr (.inr (.inr ⟨_, _, _, hline, (Option.some.inj h).symm⟩))
  all_goals exact .inl (Option.some.inj h).symm

section Steps

variable {initial before after : Tracked} {activation activation' : Activation}
variable {callers : List Activation} {index index' : Nat} {word : Word}

/-- What was computed stays computed as long as the word is kept. -/
theorem Image.HasComputed.step
    (h : image.HasComputed initial before activation callers index line word)
    (hstep : image.track before = some after)
    (hplace : activation'.start = activation.start ∧ activation'.site = activation.site)
    (hwords : activation'.pushed.drop index' = activation.pushed.drop index) :
    image.HasComputed initial after activation' callers index' line word := by
  obtain ⟨hword, earlier, pusher, hbefore, hafter, hline, heax, hstack, hstart, hsite, hbelow⟩ := h
  refine ⟨?_, earlier, pusher, hbefore, hafter.tail hstep, hline, heax, hstack,
    hstart.trans hplace.1.symm, hsite.trans hplace.2.symm, ?_⟩
  · rw [← List.head?_drop, hwords, List.head?_drop]
    exact hword
  · rw [hbelow, ← List.drop_drop, ← List.drop_drop, hwords]

/-- The word that is pushed is the one in `eax`. -/
theorem Image.HasComputed.of_push {label? : Option Label} {comment : String}
    (hbefore : image.Tracks initial before)
    (hstep : image.track before = some after) (hstack : before.stack = activation :: callers)
    (hpush : image.lines[before.line]? = some (.instruction label? (.push .eax) comment))
    (hplace : activation'.start = activation.start ∧ activation'.site = activation.site)
    (hwords : activation'.pushed = (before.line, after.machine.top) :: activation.pushed) :
    image.HasComputed initial after activation' callers 0 before.line after.machine.top := by
  obtain ⟨hrun, -⟩ := Image.track_eq_some_iff.mp hstep
  have hpushed : after.machine.top = before.machine.eax := by
    obtain ⟨⟨from', machine⟩, stack⟩ := before
    rw [Image.step_instruction hpush] at hrun
    obtain ⟨found, hexec, hfound⟩ := Option.map_eq_some_iff.mp hrun
    obtain ⟨-, rfl⟩ := push_eq_some_iff.mp hexec
    rw [← hfound]
    exact word_pushed machine machine.eax
  refine ⟨?_, before, activation, hbefore, .single hstep, rfl, hpushed.symm, hstack,
    hplace.1.symm, hplace.2.symm, ?_⟩
  · rw [hwords, List.getElem?_cons_zero]
  · rw [hwords, List.drop_one, List.tail_cons]

/-- The words of an activation that ran an instruction were computed, if those before were. -/
theorem Image.hasComputed_of_ran {label? label'? : Option Label} {instruction : Instruction}
    {comment comment' : String} (hbefore : image.Tracks initial before)
    (hstep : image.track before = some after) (hstack : before.stack = activation :: callers)
    (hrun : image.lines[before.line]? = some (.instruction label? instruction comment))
    (hpush : image.lines[line]? = some (.instruction label'? (.push .eax) comment'))
    (known : ∀ {index}, activation.pushed[index]? = some (line, word) →
      image.HasComputed initial before activation callers index line word)
    (hword : (activation.ran before.line after.machine instruction).pushed[index]? =
      some (line, word)) :
    image.HasComputed initial after (activation.ran before.line after.machine instruction)
      callers index line word := by
  have hplace := activation.place_ran before.line after.machine instruction
  rcases activation.pushed_ran before.line after.machine instruction with
    ⟨source, rfl, hpushed⟩ | ⟨count, hpushed⟩
  · cases index with
    | zero =>
        rw [hpushed, List.getElem?_cons_zero] at hword
        obtain ⟨rfl, rfl⟩ := Prod.mk.inj (Option.some.inj hword)
        exact .of_push hbefore hstep hstack hpush hplace hpushed
    | succ index =>
        rw [hpushed, List.getElem?_cons_succ] at hword
        apply (known hword).step hstep hplace
        rw [hpushed, List.drop_succ_cons]
  · rw [hpushed, List.getElem?_drop] at hword
    apply (known hword).step hstep hplace
    rw [hpushed, List.drop_drop]

end Steps

/-- Along every run from a line on, the words that were pushed from `eax` and are still on
the stack were computed. -/
theorem Image.hasComputed_of_tracks {initial state : Tracked} (h : image.Tracks initial state)
    (hempty : initial.stack = []) {activation : Activation} {callers : List Activation}
    (hsuffix : activation :: callers <:+ state.stack) {index line : Nat} {word : Word}
    (hword : activation.pushed[index]? = some (line, word)) {label? : Option Label}
    {comment : String}
    (hline : image.lines[line]? = some (.instruction label? (.push .eax) comment)) :
    image.HasComputed initial state activation callers index line word := by
  induction h generalizing activation callers index with
  | refl =>
      rw [hempty] at hsuffix
      cases List.suffix_nil.mp hsuffix
  | @tail before after htracks hstep ih =>
      have kept : ∀ {index}, activation :: callers <:+ before.stack →
          activation.pushed[index]? = some (line, word) →
            image.HasComputed initial after activation callers index line word :=
        fun hsuffix hword => (ih hsuffix hword).step hstep ⟨rfl, rfl⟩ rfl
      obtain ⟨-, haccount⟩ := Image.track_eq_some_iff.mp hstep
      rcases Image.account_cases haccount with
        hstack | ⟨start, hstack⟩ | ⟨left, hstack⟩ | ⟨label'?, instruction, comment', hrun, hstack⟩
      · exact kept (hstack ▸ hsuffix) hword
      · rw [hstack] at hsuffix
        rcases List.suffix_cons_iff.mp hsuffix with heq | hsuffix
        · obtain ⟨rfl, -⟩ := List.cons.inj heq
          cases hword
        · exact kept hsuffix hword
      · exact kept (hstack ▸ hsuffix.trans (List.suffix_cons _ _)) hword
      · cases hcalls : before.stack with
        | nil =>
            rw [hcalls, List.modifyHead_nil] at hstack
            rw [hstack] at hsuffix
            cases List.suffix_nil.mp hsuffix
        | cons caller rest =>
            rw [hcalls, List.modifyHead_cons] at hstack
            rw [hcalls] at ih kept
            rw [hstack] at hsuffix
            rcases List.suffix_cons_iff.mp hsuffix with heq | hsuffix
            · obtain ⟨rfl, rfl⟩ := List.cons.inj heq
              exact Image.hasComputed_of_ran htracks hstep hcalls hrun hline
                (ih (List.suffix_refl _)) hword
            · exact kept (hsuffix.trans (List.suffix_cons _ _)) hword

/-- When a block with parameters has made its frame, the values of the arguments of its call
are above it. -/
theorem Active.parametersHold {outline : Outline} {skeleton : Skeleton} {tree : Tree}
    {codes : List PlacedCode} {main : Nat} {block : BlockId} {activation : Activation}
    {callers : List Activation} {frame : Block} {label? : Option Label} {comment : String}
    {initial after : Tracked}
    (active : Active image tree codes main block .begun machine activation callers)
    (program : CheckedProgram outline skeleton tree) (loads : image.Loads skeleton tree codes main)
    (hframed : tree.isFramed block = true) (hframe : tree.blocks[block]? = some frame)
    (hline : image.lines[line]? = some (.instruction label?
      (.enter (Frame.size frame.frameBytes) frame.frameLevel) comment))
    (hempty : initial.stack = [])
    (htracks : image.Tracks initial ⟨⟨line, machine⟩, activation :: callers⟩)
    (h : image.track ⟨⟨line, machine⟩, activation :: callers⟩ = some after)
    (hparams : tree.paramsOf block ≠ []) : ParametersHold image tree codes initial block after := by
  obtain ⟨-, enters, hstack⟩ := active.entered program loads hframed hframe hline h
  obtain ⟨hnone, hpushed⟩ := active.fits
  obtain ⟨-, rest⟩ := active.stacked.returns active.block_eq hnone hpushed
  cases active.chained with
  | root _ hprogram =>
      obtain rfl := Option.some.inj (hprogram.symm.trans active.block_eq)
      exact absurd program.paramsOf_program hparams
  | @call _ caller callers around _ args lines pushes hcallee hcaller _ hfits hcalls =>
      obtain rfl := Option.some.inj (hcallee.symm.trans active.block_eq)
      refine ⟨_, caller, callers, around, args, lines, hstack, hcaller, hcalls,
        fun index param hparam => ?_⟩
      obtain ⟨site, body, occurs, rfl, -⟩ :=
        program.exists_occurs (loads.mem_blockIds active.block_eq)
      have hindex := (List.getElem?_eq_some_iff.mp hparam).1
      have hentry : (caller.pushed.map Prod.fst)[index]? = lines[index]? := by
        rw [hfits.2, List.getElem?_append_left (hcalls.length_lines ▸ hindex)]
      obtain ⟨line, hpush⟩ : ∃ line, lines[index]? = some line :=
        ⟨_, List.getElem?_eq_getElem (hcalls.length_lines ▸ hindex)⟩
      rw [hpush, List.getElem?_map, Option.map_eq_some_iff] at hentry
      obtain ⟨⟨_, word⟩, hword, rfl⟩ := hentry
      obtain ⟨_, _, _, _, _, _, -, -, -, -, -, -, hpushes, -⟩ := hcalls.exists_call
      have hcomputed := Image.hasComputed_of_tracks (htracks.tail h) hempty
        (hstack ▸ List.suffix_cons _ _) hword
        (hpushes.push_of_mem (List.mem_of_getElem? hpush))
      refine ⟨program.layout?_paramsOf occurs hparam, _, word, hpush, hcomputed, ?_⟩
      have hargument := rest.argument_lt hindex
      have hgiven : machine.memory.word (machine.esp.toNat + 4 + 4 * index) = word :=
        active.given rfl caller rfl index _ (Nat.zero_le index) hword
      have hup := enters.toNat_ebp
      have haddress : (after.machine.ebp + BitVec.ofInt 32 (Frame.paramOffset index)).toNat =
          machine.esp.toNat + 4 + 4 * index := by
        apply toNat_add_ofInt
        · rw [Frame.paramOffset, Frame.firstParamOffset, Frame.wordSize]
          omega
        · exact hargument
      change some (after.machine.memory.word
        (after.machine.ebp + BitVec.ofInt 32 (Frame.paramOffset index)).toNat) = _
      rw [haddress, ← hgiven]
      apply congrArg some
      apply Memory.word_congr
      exact fun byte hlow _ => enters.memory byte (.inr (by omega))

end MiniPascal
