import MiniPascal.Proofs.Activations.Invariant

/-!
# Steps keep the invariant

One line after the other, by what it does to the stack: most lines leave it alone, others
push words and take them off, store to slots, call, make frames and take them down, or
return.
-/

namespace MiniPascal

open MiniPascal.Assembly
open MiniPascal.Code
open MiniPascal.Machine

/-! ### Lines that leave the stack alone -/

/-- The registers of the stack and all memory are as they were. -/
structure Machine.SameStack (before after : Machine) : Prop where
  ebp : after.ebp = before.ebp
  esp : after.esp = before.esp
  memory : after.memory = before.memory

section Silent

variable {image : Image} {line : Nat} {text : Line} {machine after : Machine} {running : Running}
variable {stack : List Activation} {target : Operand} {value : Word}

theorem sameStack_of_write (hfree : isFree target = true)
    (h : machine.write value target = some after) : machine.SameStack after := by
  cases target with
  | immediate | memory => cases hfree
  | register register =>
      cases register with
      | ebp | esp => cases hfree
      | al => cases h
      | eax | ecx | edx =>
          obtain rfl := Option.some.inj h
          exact ⟨rfl, rfl, rfl⟩

theorem sameStack_of_exec {instruction : Instruction} {label? : Option Label} {comment : String}
    (hsilent : isSilent (.instruction label? instruction comment) = true)
    (h : machine.exec instruction = some after) : machine.SameStack after := by
  cases instruction with
  | move source target =>
      obtain ⟨value, -, hwrite⟩ := Option.bind_eq_some_iff.mp h
      exact sameStack_of_write hsilent hwrite
  | arith op source target =>
      obtain ⟨right, -, h⟩ := Option.bind_eq_some_iff.mp h
      obtain ⟨left, -, hwrite⟩ := Option.bind_eq_some_iff.mp h
      obtain ⟨hebp, hesp, hmemory⟩ := sameStack_of_write hsilent hwrite
      exact ⟨hebp, hesp, hmemory⟩
  | negate target =>
      obtain ⟨value, -, hwrite⟩ := Option.bind_eq_some_iff.mp h
      obtain ⟨hebp, hesp, hmemory⟩ := sameStack_of_write hsilent hwrite
      exact ⟨hebp, hesp, hmemory⟩
  | signExtend =>
      obtain rfl := Option.some.inj h
      exact ⟨rfl, rfl, rfl⟩
  | divide divisor =>
      obtain ⟨word, -, h⟩ := Option.bind_eq_some_iff.mp h
      obtain ⟨result, -, h⟩ := Option.bind_eq_some_iff.mp h
      obtain rfl := Option.some.inj h
      exact ⟨rfl, rfl, rfl⟩
  | compare source target =>
      obtain ⟨right, -, h⟩ := Option.bind_eq_some_iff.mp h
      obtain ⟨left, -, h⟩ := Option.bind_eq_some_iff.mp h
      obtain rfl := Option.some.inj h
      exact ⟨rfl, rfl, rfl⟩
  | storeCondition relation target =>
      cases target with
      | register register =>
          cases register with
          | al =>
              obtain ⟨words, -, h⟩ := Option.bind_eq_some_iff.mp h
              obtain rfl := Option.some.inj h
              exact ⟨rfl, rfl, rfl⟩
          | eax | ecx | edx | ebp | esp => cases h
      | immediate | memory => cases h
  | loadAddress => cases h
  | push | pop | jump | jumpIfEqual | call | enter | leave | ret => cases hsilent

/-- A silent line goes on to the next one and leaves the stack alone. -/
theorem sameStack_of_silent (hsilent : isSilent text = true)
    (hline : image.lines[line]? = some text) (h : image.step ⟨line, machine⟩ = some running) :
    running.line = line + 1 ∧ machine.SameStack running.machine := by
  cases text with
  | label => cases hsilent
  | directive | datum =>
      unfold Image.step at h
      simp only [hline] at h
      obtain rfl := Option.some.inj h
      exact ⟨rfl, rfl, rfl, rfl⟩
  | instruction label? instruction comment =>
      rw [Image.step_instruction hline] at h
      cases instruction with
      | move | arith | negate | divide | compare | storeCondition =>
          obtain ⟨after, hexec, rfl⟩ := Option.map_eq_some_iff.mp h
          exact ⟨rfl, sameStack_of_exec hsilent hexec⟩
      | signExtend =>
          obtain rfl := Option.some.inj h
          exact ⟨rfl, rfl, rfl, rfl⟩
      | loadAddress source target =>
          obtain ⟨after, hwrite, rfl⟩ := Option.map_eq_some_iff.mp h
          exact ⟨rfl, sameStack_of_write hsilent hwrite⟩
      | push | pop | jump | jumpIfEqual | call | enter | leave | ret => cases hsilent

theorem ran_of_silent {instruction : Instruction} {label? : Option Label} {comment : String}
    (hsilent : isSilent (.instruction label? instruction comment) = true)
    (activation : Activation) : activation.ran line machine instruction = activation := by
  cases instruction with
  | arith op source target =>
      cases op with
      | add =>
          cases source with
          | immediate =>
              cases target with
              | register register =>
                  cases register with
                  | esp => cases hsilent
                  | eax | ecx | edx | ebp | al => rfl
              | immediate | memory => rfl
          | register | memory => rfl
      | subtract | multiply | and | or | xor => rfl
  | move | negate | signExtend | divide | compare | storeCondition | loadAddress => rfl
  | push | pop | jump | jumpIfEqual | call | enter | leave | ret => cases hsilent

theorem account_of_silent (hsilent : isSilent text = true)
    (hline : image.lines[line]? = some text) :
    image.account line machine stack = some stack := by
  unfold Image.account
  simp only [hline]
  cases text with
  | label | directive | datum => rfl
  | instruction label? instruction comment =>
      have hran : stack.modifyHead (·.ran line machine instruction) = stack := by
        cases stack with
        | nil => rfl
        | cons activation callers => rw [List.modifyHead_cons, ran_of_silent hsilent]
      cases instruction with
      | push | pop | jump | jumpIfEqual | call | enter | leave | ret => cases hsilent
      | move | arith | negate | signExtend | divide | compare | storeCondition | loadAddress =>
          exact congrArg some hran

end Silent

/-! ### Steps of the latest activation -/

theorem Image.track_eq_some_iff {image : Image} {state after : Tracked} :
    image.track state = some after ↔ image.step state.toRunning = some after.toRunning ∧
      image.account state.line after.machine state.stack = some after.stack := by
  unfold Image.track
  constructor
  · intro h
    obtain ⟨running, hstep, h⟩ := Option.bind_eq_some_iff.mp h
    obtain ⟨stack, haccount, h⟩ := Option.bind_eq_some_iff.mp h
    obtain rfl := Option.some.inj h
    exact ⟨hstep, haccount⟩
  · rintro ⟨hstep, haccount⟩
    rw [hstep, Option.bind_eq_bind, Option.bind_some, haccount]
    rfl

/-- The machine executes the instruction and goes on to the next line. -/
def Assembly.Instruction.goesOn : Instruction → Bool
  | .jump _ | .jumpIfEqual _ | .call _ | .loadAddress .. | .enter .. | .ret => false
  | .move .. | .push _ | .pop _ | .arith .. | .negate _ | .signExtend | .divide _ | .compare ..
  | .storeCondition .. | .leave => true

section GoesOn

variable {image : Image} {line : Nat} {machine : Machine} {stack : List Activation}
variable {label? : Option Label} {instruction : Instruction} {comment : String}

theorem execAt_of_goesOn (h : instruction.goesOn = true) :
    image.execAt line machine instruction =
      (machine.exec instruction).map (⟨line + 1, ·⟩) := by
  cases instruction with
  | jump | jumpIfEqual | call | loadAddress | enter | ret => cases h
  | move | push | pop | arith | negate | signExtend | divide | compare | storeCondition | leave =>
      rfl

theorem account_of_goesOn (h : instruction.goesOn = true)
    (hline : image.lines[line]? = some (.instruction label? instruction comment)) :
    image.account line machine stack =
      some (stack.modifyHead (·.ran line machine instruction)) := by
  unfold Image.account
  simp only [hline]
  cases instruction with
  | jump | jumpIfEqual | call | loadAddress | enter | ret => cases h
  | move | push | pop | arith | negate | signExtend | divide | compare | storeCondition | leave =>
      rfl

/-- What such an instruction does is done by the latest activation. -/
theorem track_of_goesOn {activation : Activation} {callers : List Activation} {after : Tracked}
    (hgoesOn : instruction.goesOn = true)
    (hline : image.lines[line]? = some (.instruction label? instruction comment))
    (h : image.track ⟨⟨line, machine⟩, activation :: callers⟩ = some after) :
    ∃ machine', machine.exec instruction = some machine' ∧
      after = ⟨⟨line + 1, machine'⟩, activation.ran line machine' instruction :: callers⟩ := by
  obtain ⟨⟨line', machine'⟩, stack'⟩ := after
  obtain ⟨hstep, haccount⟩ := Image.track_eq_some_iff.mp h
  rw [Image.step_instruction hline, execAt_of_goesOn hgoesOn] at hstep
  obtain ⟨found, hexec, hrunning⟩ := Option.map_eq_some_iff.mp hstep
  obtain ⟨rfl, rfl⟩ := Running.mk.inj hrunning
  rw [account_of_goesOn hgoesOn hline, List.modifyHead_cons] at haccount
  have hstack : stack' = activation.ran line found instruction :: callers :=
    (Option.some.inj haccount).symm
  subst hstack
  exact ⟨found, hexec, rfl⟩

end GoesOn

section Calls

variable {image : Image} {line : Nat} {machine : Machine} {stack : List Activation}
variable {label? : Option Label} {function : Label} {comment : String} {after : Tracked}

/-- A call of a label in the code pushes the address of the next line and begins an
activation. -/
theorem track_of_call {index : Nat} (htarget : image.target? function = some index)
    (hline : image.lines[line]? = some (.instruction label? (.call function) comment))
    (h : image.track ⟨⟨line, machine⟩, stack⟩ = some after) :
    4 ≤ machine.esp.toNat ∧ after = ⟨⟨index, machine.pushed (image.address (line + 1))⟩,
      .called index line :: stack⟩ := by
  obtain ⟨⟨line', machine'⟩, stack'⟩ := after
  obtain ⟨hstep, haccount⟩ := Image.track_eq_some_iff.mp h
  rw [Image.step_instruction hline] at hstep
  unfold Image.account at haccount
  simp only [hline, htarget, Option.some.injEq] at haccount
  subst haccount
  unfold Image.execAt at hstep
  simp only [htarget] at hstep
  obtain ⟨_, hpush, hrunning⟩ := Option.map_eq_some_iff.mp hstep
  obtain ⟨hroom, rfl⟩ := push_eq_some_iff.mp hpush
  obtain ⟨rfl, rfl⟩ := Running.mk.inj hrunning
  exact ⟨hroom, rfl⟩

/-- A call of a runtime function leaves the activations as they are. -/
theorem track_of_runtime (htarget : image.target? function = none)
    (hline : image.lines[line]? = some (.instruction label? (.call function) comment))
    (h : image.track ⟨⟨line, machine⟩, stack⟩ = some after) :
    ∃ machine', image.callRuntime function.text machine = some machine' ∧
      after = ⟨⟨line + 1, machine'⟩, stack⟩ := by
  obtain ⟨⟨line', machine'⟩, stack'⟩ := after
  obtain ⟨hstep, haccount⟩ := Image.track_eq_some_iff.mp h
  rw [Image.step_instruction hline] at hstep
  unfold Image.account at haccount
  simp only [hline, htarget, Option.some.injEq] at haccount
  subst haccount
  unfold Image.execAt at hstep
  simp only [htarget] at hstep
  obtain ⟨found, hcall, hrunning⟩ := Option.map_eq_some_iff.mp hstep
  obtain ⟨rfl, rfl⟩ := Running.mk.inj hrunning
  exact ⟨found, hcall, rfl⟩

end Calls

namespace Active

variable {image : Image} {tree : Tree} {codes : List PlacedCode} {main line : Nat}
variable {block : BlockId} {spot spot' : Spot} {machine machine' : Machine}
variable {activation : Activation} {callers : List Activation} {pushes : List Nat}
variable {text : Line} {comment : String} {after : Tracked}

/-- Inside the code of its block an activation needs no more than its words and what the
display reaches. -/
theorem of_inside {stale : Nat} (block_eq : blockAt codes activation.start = some block)
    (fits : (Spot.inside pushes stale).Fits tree block activation)
    (stacked : Stacked image tree codes machine.memory stale machine.esp.toNat machine.ebp
      (activation :: callers))
    (chained : Chained image tree codes main (activation :: callers))
    (reaches : Reaches tree codes block (activation :: callers)) :
    Active image tree codes main block (.inside pushes stale) machine activation callers :=
  ⟨block_eq, fits, stacked, chained, fun _ _ => reaches, nofun, nofun⟩

/-- As long as the stack is the same, the activation can go on at a spot like it. -/
theorem of_sameStack (active : Active image tree codes main block spot machine activation callers)
    (hsame : machine.SameStack machine') (hbegun : spot ≠ .begun) (hended : spot ≠ .ended)
    (hbegun' : spot' ≠ .begun) (hfits : spot'.Fits tree block activation)
    (hstale : spot'.stale = spot.stale)
    (hloaded : ∀ pushes level, spot' = .loaded pushes level →
      machine'.edx = machine'.displayWord level) :
    Active image tree codes main block spot' machine' activation callers where
  block_eq := active.block_eq
  fits := hfits
  stacked := by
    rw [hsame.ebp, hsame.esp, hsame.memory, hstale]
    exact active.stacked
  chained := active.chained
  reaches _ _ := active.reaches hbegun hended
  loaded := hloaded
  given h := absurd h hbegun'

theorem sound_of_silent
    (active : Active image tree codes main block spot machine activation callers)
    (hsilent : isSilent text = true) (hline : image.lines[line]? = some text)
    (h : image.track ⟨⟨line, machine⟩, activation :: callers⟩ = some after)
    (hspot : spot = .inside pushes 0 ∨ ∃ level, spot = .loaded pushes level)
    (next : image.At tree codes (line + 1) block (.inside pushes 0)) :
    Sound image tree codes main after := by
  obtain ⟨⟨line', machine'⟩, stack'⟩ := after
  obtain ⟨hstep, haccount⟩ := Image.track_eq_some_iff.mp h
  obtain ⟨rfl, hsame⟩ := sameStack_of_silent hsilent hline hstep
  obtain rfl := Option.some.inj ((account_of_silent hsilent hline).symm.trans haccount)
  apply Sound.active next
  rcases hspot with rfl | ⟨level, rfl⟩
  · exact active.of_sameStack hsame nofun nofun nofun active.fits rfl nofun
  · exact active.of_sameStack hsame nofun nofun nofun active.fits rfl nofun

theorem sound_of_display {level : Nat}
    (active : Active image tree codes main block (.inside pushes 0) machine activation callers)
    (hline : image.lines[line]? =
      some (.instruction none (.move (.memory (Frame.displayOffset level) .ebp) .edx) comment))
    (h : image.track ⟨⟨line, machine⟩, activation :: callers⟩ = some after)
    (next : image.At tree codes (line + 1) block (.loaded pushes level)) :
    Sound image tree codes main after := by
  obtain ⟨_, hexec, rfl⟩ := track_of_goesOn rfl hline h
  obtain rfl := Option.some.inj hexec
  have hsame : machine.SameStack { machine with edx := machine.displayWord level } :=
    ⟨rfl, rfl, rfl⟩
  apply Sound.active next
  refine @of_sameStack _ _ _ _ _ _ (.loaded pushes level) _ _ _ _ active hsame nofun nofun
    nofun active.fits rfl ?_
  intro pushes' level' heq
  obtain ⟨rfl, rfl⟩ := Spot.loaded.inj heq
  rfl

/-- A word of the display that was reached and loaded is the pointer of a frame around the
block, so a store to a slot of it leaves what is on the stack. -/
theorem sound_of_store {layout : Layout}
    (active : Active image tree codes main block (.loaded pushes layout.frameLevel) machine
      activation callers)
    (hstores : tree.StoresTo block layout)
    (hline : image.lines[line]? = some (.instruction none (.move .eax layout.slot) comment))
    (h : image.track ⟨⟨line, machine⟩, activation :: callers⟩ = some after)
    (next : image.At tree codes (line + 1) block (.inside pushes 0)) :
    Sound image tree codes main after := by
  obtain ⟨_, hexec, rfl⟩ := track_of_goesOn rfl hline h
  obtain rfl := Option.some.inj hexec
  apply Sound.active next
  obtain ⟨hpos, hlevel, owner, howner, hslot⟩ := hstores
  obtain ⟨frame, hframe, hwords⟩ := active.reaches nofun nofun
  obtain ⟨word, hword, found, hmem, made, owner', hmade, hpointer, hblock, howner'⟩ :=
    hwords layout.frameLevel hpos hlevel
  obtain rfl := Option.some.inj (howner'.symm.trans howner)
  obtain ⟨hebp, hroom, hdisplay⟩ := active.stacked.frame hframe
  have hlength := (List.getElem?_eq_some_iff.mp hword).1
  have hread : machine.edx = made.pointer := by
    rw [active.loaded pushes layout.frameLevel rfl, hpointer, Stacked.displayWord_eq (by omega),
      ← hdisplay (layout.frameLevel - 1) word hword, Nat.sub_add_cancel hpos]
  obtain ⟨address, haddress, hlow, hhigh, hstored⟩ :=
    @Stacked.store_slot image tree codes _ _ _ _ machine.eax found _ _ _ active.stacked hmem hmade
      hblock _ hslot
  have hstore : (machine.edx + BitVec.ofInt 32 layout.offset).toNat = address := by
    rw [hread]
    exact toNat_add_ofInt haddress hhigh
  apply of_inside
  case block_eq => exact active.block_eq
  case fits => exact active.fits
  case stacked =>
    rw [← hstore] at hstored
    exact hstored
  case chained => exact active.chained
  case reaches => exact active.reaches nofun nofun

theorem sound_of_push
    (active : Active image tree codes main block (.inside pushes 0) machine activation callers)
    (hline : image.lines[line]? = some (.instruction none (.push .eax) comment))
    (h : image.track ⟨⟨line, machine⟩, activation :: callers⟩ = some after)
    (next : image.At tree codes (line + 1) block (.inside (line :: pushes) 0)) :
    Sound image tree codes main after := by
  obtain ⟨_, hexec, rfl⟩ := track_of_goesOn rfl hline h
  obtain ⟨hroom, rfl⟩ := push_eq_some_iff.mp hexec
  have htop : (machine.pushed machine.eax).top = machine.eax := word_pushed machine machine.eax
  rw [Activation.ran, htop]
  apply Sound.active next
  have hstacked := active.stacked
  have hdown := @toNat_esp_pushed machine machine.eax hroom
  have hup : machine.esp.toNat = (machine.esp - 4).toNat + 4 := by
    rw [toNat_sub_word hroom]
    omega
  apply of_inside
  case block_eq => exact active.block_eq
  case fits =>
    obtain ⟨hframed, hpushed⟩ := active.fits
    exact ⟨hframed, congrArg (line :: ·) hpushed⟩
  case stacked =>
    rw [hup] at hstacked
    exact hstacked.push line
  case chained => exact active.chained.replace rfl rfl
  case reaches => exact (active.reaches Spot.noConfusion Spot.noConfusion).replace _

/-- Words that are taken off were pushed before. -/
theorem taken {pushes pushes' : List Nat} {stale : Nat}
    (active : Active image tree codes main block (.inside (pushes ++ pushes') stale) machine
      activation callers) (hstale : stale ≤ pushes.length)
    (hebp : machine'.ebp = machine.ebp) (hmemory : machine'.memory = machine.memory)
    (hesp : machine'.esp = machine.esp + BitVec.ofInt 32 (Frame.wordSize * pushes.length)) :
    Active image tree codes main block (.inside pushes' 0) machine'
      { activation with pushed := activation.pushed.drop pushes.length } callers := by
  obtain ⟨hframed, hpushed⟩ := active.fits
  have hlength : pushes.length ≤ activation.pushed.length := by
    have hmap := congrArg List.length hpushed
    rw [List.length_map, List.length_append] at hmap
    omega
  have hstacked := active.stacked.takeOff hstale hlength
  have hup : machine'.esp.toNat = machine.esp.toNat + 4 * pushes.length := by
    rw [hesp]
    apply toNat_add_ofInt _ hstacked.top_lt
    rw [Frame.wordSize]
    omega
  apply of_inside
  case block_eq => exact active.block_eq
  case fits =>
    refine ⟨hframed, ?_⟩
    rw [List.map_drop, hpushed, List.drop_left]
  case stacked =>
    rw [hebp, hmemory, hup]
    exact hstacked
  case chained => exact active.chained.replace rfl rfl
  case reaches => exact (active.reaches Spot.noConfusion Spot.noConfusion).replace _

theorem sound_of_takeOff {pushes pushes' : List Nat} {stale : Nat}
    (active : Active image tree codes main block (.inside (pushes ++ pushes') stale) machine
      activation callers) (hstale : stale ≤ pushes.length)
    (hline : image.lines[line]? = some (.instruction none
      (.arith .add (.immediate (Frame.wordSize * pushes.length)) .esp) comment))
    (h : image.track ⟨⟨line, machine⟩, activation :: callers⟩ = some after)
    (next : image.At tree codes (line + 1) block (.inside pushes' 0)) :
    Sound image tree codes main after := by
  obtain ⟨_, hexec, rfl⟩ := track_of_goesOn rfl hline h
  obtain rfl := Option.some.inj hexec
  have hcount : (Frame.wordSize * (pushes.length : Int)).toNat / 4 = pushes.length := by
    rw [Frame.wordSize]
    omega
  rw [Activation.ran, hcount]
  exact .active next (active.taken hstale rfl rfl rfl)

theorem sound_of_pop {first : Nat} {target : Operand} (hfree : isFree target = true)
    (active : Active image tree codes main block (.inside (first :: pushes) 0) machine activation
      callers)
    (hline : image.lines[line]? = some (.instruction none (.pop target) comment))
    (h : image.track ⟨⟨line, machine⟩, activation :: callers⟩ = some after)
    (next : image.At tree codes (line + 1) block (.inside pushes 0)) :
    Sound image tree codes main after := by
  obtain ⟨_, hwrite, rfl⟩ := track_of_goesOn rfl hline h
  obtain ⟨hebp, hesp, hmemory⟩ := sameStack_of_write hfree hwrite
  rw [Activation.ran, ← List.drop_one]
  apply Sound.active next
  exact @taken _ _ _ _ _ _ _ _ _ [first] pushes 0 active (Nat.zero_le _) hebp hmemory hesp

/-! ### Branches -/

theorem sound_of_label {label : Label}
    (active : Active image tree codes main block (.inside [] 0) machine activation callers)
    (hline : image.lines[line]? = some (.label label))
    (h : image.track ⟨⟨line, machine⟩, activation :: callers⟩ = some after)
    (next : image.At tree codes (line + 1) block (.inside [] 0)) :
    Sound image tree codes main after := by
  obtain ⟨⟨line', machine'⟩, stack'⟩ := after
  obtain ⟨hstep, haccount⟩ := Image.track_eq_some_iff.mp h
  unfold Image.step at hstep
  unfold Image.account at haccount
  simp only [hline, Option.some.injEq] at hstep haccount
  obtain ⟨rfl, rfl⟩ := Running.mk.inj hstep
  subst haccount
  exact .active next active

theorem sound_of_branch {target : Label} {instruction : Instruction}
    (active : Active image tree codes main block (.inside [] 0) machine activation callers)
    (hbranch : instruction = .jump target ∨ instruction = .jumpIfEqual target)
    (hline : image.lines[line]? = some (.instruction none instruction comment))
    (h : image.track ⟨⟨line, machine⟩, activation :: callers⟩ = some after)
    (next : image.At tree codes (line + 1) block (.inside [] 0))
    (taken : ∀ index, image.target? target = some index →
      image.At tree codes index block (.inside [] 0)) :
    Sound image tree codes main after := by
  obtain ⟨⟨line', machine'⟩, stack'⟩ := after
  obtain ⟨hstep, haccount⟩ := Image.track_eq_some_iff.mp h
  rw [Image.step_instruction hline] at hstep
  unfold Image.account at haccount
  rcases hbranch with rfl | rfl
  · simp only [hline, List.modifyHead_cons, Activation.ran, Option.some.injEq] at haccount
    subst haccount
    obtain ⟨index, htarget, hrunning⟩ := Option.map_eq_some_iff.mp hstep
    obtain ⟨rfl, rfl⟩ := Running.mk.inj hrunning
    exact .active (taken index htarget) active
  · simp only [hline, List.modifyHead_cons, Activation.ran, Option.some.injEq] at haccount
    subst haccount
    obtain ⟨⟨left, right⟩, -, hstep⟩ := Option.bind_eq_some_iff.mp hstep
    simp only at hstep
    split at hstep
    · obtain ⟨index, htarget, hrunning⟩ := Option.map_eq_some_iff.mp hstep
      obtain ⟨rfl, rfl⟩ := Running.mk.inj hrunning
      exact .active (taken index htarget) active
    · obtain ⟨rfl, rfl⟩ := Running.mk.inj (Option.some.inj hstep)
      exact .active next active

/-! ### Calls and returns -/

theorem sound_of_runtime {function : Label}
    (active : Active image tree codes main block (.inside pushes 0) machine activation callers)
    (htarget : image.target? function = none)
    (hline : image.lines[line]? = some (.instruction none (.call function) comment))
    (h : image.track ⟨⟨line, machine⟩, activation :: callers⟩ = some after)
    (next : image.At tree codes (line + 1) block (.inside pushes 0)) :
    Sound image tree codes main after := by
  obtain ⟨_, hcall, rfl⟩ := track_of_runtime htarget hline h
  obtain ⟨event, -, rfl⟩ := Option.map_eq_some_iff.mp hcall
  apply Sound.active next
  apply of_inside
  case block_eq => exact active.block_eq
  case fits => exact active.fits
  case stacked => exact active.stacked.of_memory fun byte hlow => if_pos hlow
  case chained => exact active.chained
  case reaches => exact active.reaches nofun nofun

/-- A new activation begins where nothing is on the stack but the address to return to. -/
theorem of_call {skeleton : Skeleton} {callee : PlacedCode} {site : Nat}
    {stack : List Activation} (loads : image.Loads skeleton tree codes main)
    (hcallee : callee ∈ codes) (hroom : 4 ≤ machine.esp.toNat)
    (stacked : Stacked image tree codes machine.memory (tree.paramsOf callee.block).length
      machine.esp.toNat machine.ebp stack)
    (chained : Chained image tree codes main (.called callee.start site :: stack))
    (words : ∀ caller ∈ stack.head?,
      PushedWords machine.memory 0 machine.esp.toNat caller.pushed)
    (reaches : tree.isFramed callee.block = false →
      Reaches tree codes callee.block (.called callee.start site :: stack)) :
    Active image tree codes main callee.block (.first tree callee.block)
      (machine.pushed (image.address (site + 1))) (.called callee.start site) stack := by
  have hblock := loads.found hcallee
  have hup : machine.esp.toNat = (machine.esp - 4).toNat + 4 := by
    rw [toNat_sub_word hroom]
    omega
  rw [hup] at stacked
  have hcalled := @Stacked.call image tree codes _ _ _ _ _ _ site hblock stacked
  cases hframed : tree.isFramed callee.block with
  | true =>
      rw [Spot.first, if_pos hframed]
      refine ⟨hblock, ⟨rfl, rfl⟩, hcalled, chained, fun hne => absurd rfl hne,
        fun _ _ hspot => Spot.noConfusion hspot, ?_⟩
      intro _ caller hcaller
      change PushedWords _ 0 ((machine.esp - 4).toNat + 4) caller.pushed
      rw [← hup]
      apply (words caller hcaller).of_memory
      intro byte hlow _
      exact memory_pushed hroom (.inr (by omega))
  | false =>
      rw [Spot.first, hframed]
      exact ⟨hblock, ⟨hframed.symm, rfl⟩, hcalled, chained, fun _ _ => reaches hframed,
        fun _ _ hspot => Spot.noConfusion hspot, fun hspot => Spot.noConfusion hspot⟩

theorem sound_of_call {outline : Outline} {skeleton : Skeleton} {label : Label} {args : List Expr}
    {lines : List Nat} {callee : PlacedCode}
    (active : Active image tree codes main block (.inside (lines ++ pushes) 0) machine activation
      callers)
    (program : CheckedProgram outline skeleton tree)
    (loads : image.Loads skeleton tree codes main) (hblock : block ∈ skeleton.blockIds)
    (hcallee : callee ∈ codes) (htarget : image.target? label = some callee.start)
    (hsees : tree.Sees block callee.block)
    (hcalls : image.CallsBody tree codes block callee.block args lines line)
    (hline : image.lines[line]? = some (.instruction none (.call label) comment))
    (h : image.track ⟨⟨line, machine⟩, activation :: callers⟩ = some after)
    (next : image.At tree codes (line + 1) block (.inside (lines ++ pushes) lines.length)) :
    Sound image tree codes main after := by
  obtain ⟨hroom, rfl⟩ := track_of_call htarget hline h
  have hreaches := active.reaches nofun nofun
  have hargs : (tree.paramsOf callee.block).length ≤ activation.pushed.length := by
    have hmap := congrArg List.length active.fits.2
    rw [List.length_map, List.length_append] at hmap
    rw [← hcalls.length_lines]
    omega
  apply Sound.active (loads.at_start hcallee)
  apply of_call loads hcallee hroom
  · exact active.stacked.raise (Nat.zero_le _) hargs
  · exact .call (loads.found hcallee) active.block_eq next active.fits hcalls hsees hreaches
      active.chained
  · intro found hfound
    obtain rfl := Option.some.inj hfound
    exact active.stacked.words
  · exact fun hshared => program.reaches_of_shared hblock hsees hshared hreaches

theorem sound_of_ret {skeleton : Skeleton}
    (active : Active image tree codes main block (.last tree block) machine activation callers)
    (loads : image.Loads skeleton tree codes main)
    (hline : image.lines[line]? = some (.instruction none .ret comment))
    (h : image.track ⟨⟨line, machine⟩, activation :: callers⟩ = some after) :
    Sound image tree codes main after := by
  have hempty : activation.frame? = none ∧ activation.pushed = [] := by
    have hfits := active.fits
    cases hframed : tree.isFramed block with
    | true =>
        rw [Spot.last, if_pos hframed] at hfits
        exact hfits
    | false =>
        rw [Spot.last, hframed] at hfits
        obtain ⟨hframe, hpushed⟩ := hfits
        rw [hframed, Option.isSome_eq_false_iff, Option.isNone_iff_eq_none] at hframe
        exact ⟨hframe, List.map_eq_nil_iff.mp hpushed⟩
  obtain ⟨hreturn, rest⟩ := active.stacked.returns active.block_eq hempty.1 hempty.2
  obtain ⟨⟨line', machine'⟩, stack'⟩ := after
  obtain ⟨hstep, haccount⟩ := Image.track_eq_some_iff.mp h
  rw [Image.step_instruction hline] at hstep
  unfold Image.account at haccount
  simp only [hline, Option.some.injEq] at haccount
  subst haccount
  obtain ⟨index, haddress, hrunning⟩ := Option.map_eq_some_iff.mp hstep
  obtain ⟨rfl, rfl⟩ := Running.mk.inj hrunning
  -- the address on top is that of the line behind the call
  have hback : ∀ site, activation.site = site → site + 1 ≤ image.lines.length →
      index = site + 1 := by
    rintro site rfl hle
    have hfound : image.line? machine.top = some (activation.site + 1) := by
      rw [Machine.top, hreturn]
      exact image.line?_address _ hle
    exact Option.some.inj (haddress.symm.trans hfound)
  have htop : (machine.esp + 4).toNat = machine.esp.toNat + 4 := toNat_add_word rest.top_lt
  cases active.chained with
  | root hsite _ =>
      obtain ⟨comment', hstatus⟩ := loads.status
      have hle := (List.getElem?_eq_some_iff.mp hstatus).1
      obtain rfl := hback main hsite (Nat.le_of_lt hle)
      exact .entry (Nat.le_succ main) (Nat.le_succ (main + 1))
  | @call _ caller callers block' body args lines pushes hcallee hcaller hspot hfits hcalls hsees
      hreaches chained =>
      obtain ⟨_, _, _, _, _, _, -, -, -, -, -, -, -, hsite⟩ := hcalls.exists_call
      have hle := (List.getElem?_eq_some_iff.mp hsite).1
      obtain rfl := hback activation.site rfl hle
      obtain rfl := Option.some.inj (hcallee.symm.trans active.block_eq)
      -- the caller goes on as it waited, with arguments that may have been changed
      apply Sound.active hspot
      apply of_inside
      case block_eq => exact hcaller
      case fits => exact hfits
      case stacked =>
        change Stacked image tree codes machine.memory lines.length (machine.esp + 4).toNat
          machine.ebp (caller :: callers)
        rw [htop, hcalls.length_lines]
        exact rest
      case chained => exact chained
      case reaches => exact hreaches

/-! ### Frames -/

section Enter

variable {outline : Outline} {skeleton : Skeleton} {label? : Option Label} {frame : Block}
variable (active : Active image tree codes main block .begun machine activation callers)
variable (program : CheckedProgram outline skeleton tree)
variable (loads : image.Loads skeleton tree codes main) (hframed : tree.isFramed block = true)

include active program loads hframed

/-- Where a block with a frame of its own begins, the display in use leads to the frames
around it. -/
theorem outer {level : Nat} (hpos : 1 ≤ level) (hlevel : level < tree.frameLevel block) :
    machine.esp.toNat + 4 * level ≤ machine.ebp.toNat ∧
      IsFrameOf tree codes callers block level
        (machine.memory.word (machine.ebp.toNat - 4 * level)) := by
  obtain ⟨hnone, hpushed⟩ := active.fits
  obtain ⟨-, rest⟩ := active.stacked.returns active.block_eq hnone hpushed
  cases active.chained with
  | root _ hprogram =>
      obtain rfl := Option.some.inj (hprogram.symm.trans active.block_eq)
      -- the program's own frame is the first one
      rw [program.frameLevel_program] at hlevel
      omega
  | call hcallee hcaller _ _ _ hsees hreaches _ =>
      -- the caller sees the block, so its display has all levels below that of the block
      obtain rfl := Option.some.inj (hcallee.symm.trans active.block_eq)
      obtain ⟨frame, hframe, hwords⟩ := hreaches
      obtain ⟨-, hroom, hdisplay⟩ := rest.frame hframe
      obtain ⟨hle, hsame⟩ :=
        program.frameAt_of_framed (loads.mem_blockIds hcaller) hsees hframed
      obtain ⟨word, hword, hfound⟩ := hwords level hpos (by omega)
      have hlength := (List.getElem?_eq_some_iff.mp hword).1
      have hread := hdisplay (level - 1) word hword
      rw [Nat.sub_add_cancel hpos] at hread
      rw [hread]
      exact ⟨by omega, hfound.congr (hsame level hpos hlevel)⟩

variable (hframe : tree.blocks[block]? = some frame)
variable (hline : image.lines[line]? = some (.instruction label?
  (.enter (Frame.size frame.frameBytes) frame.frameLevel) comment))
variable (h : image.track ⟨⟨line, machine⟩, activation :: callers⟩ = some after)

include hframe hline h

/-- What an `enter` of a block with a frame of its own does. -/
theorem entered :
    after.line = line + 1 ∧
      Enters (tree.frameSize block) (tree.frameLevel block) machine after.machine ∧
      after.stack = { activation with
        frame? := some (after.machine.madeFrame (tree.frameLevel block)) } :: callers := by
  obtain ⟨site, body, occurs, rfl, -⟩ :=
    program.exists_occurs (loads.mem_blockIds active.block_eq)
  have hlevel : frame.frameLevel = tree.frameLevel body.id := by
    rw [Tree.frameLevel, hframe]
    rfl
  rw [program.size_eq_frameSize occurs hframed hframe, hlevel] at hline
  obtain ⟨⟨line', machine'⟩, stack'⟩ := after
  obtain ⟨hstep, haccount⟩ := Image.track_eq_some_iff.mp h
  rw [Image.step_instruction hline] at hstep
  obtain ⟨_, henter, hrunning⟩ := Option.map_eq_some_iff.mp hstep
  obtain ⟨rfl, rfl⟩ := Running.mk.inj hrunning
  unfold Image.account at haccount
  simp only [hline] at haccount
  split at haccount
  · next hsize =>
      have hmax := program.frameLevel_le occurs
      rw [Frame.maxLevel] at hmax
      have habove : ∀ index, 1 ≤ index → index < tree.frameLevel body.id →
          machine.esp.toNat + 4 * index ≤ machine.ebp.toNat :=
        fun index hpos hlt => (active.outer program loads hframed hpos hlt).1
      refine ⟨rfl, ?_, (Option.some.inj haccount).symm⟩
      exact enters_of_enter (program.one_le_frameLevel occurs) (by omega) (by omega) habove henter
  · cases haccount

theorem sound_of_enter (next : image.At tree codes (line + 1) block (.inside [] 0)) :
    Sound image tree codes main after := by
  obtain ⟨hafter, enters, hstack⟩ := active.entered program loads hframed hframe hline h
  obtain ⟨⟨line', machine'⟩, stack'⟩ := after
  obtain rfl : line' = line + 1 := hafter
  change stack' = { activation with
    frame? := some (machine'.madeFrame (tree.frameLevel block)) } :: callers at hstack
  subst hstack
  obtain ⟨site, body, occurs, rfl, -⟩ :=
    program.exists_occurs (loads.mem_blockIds active.block_eq)
  have hpos := program.one_le_frameLevel occurs
  have hmax := program.frameLevel_le occurs
  have hroom : 4 * tree.frameLevel body.id ≤ machine'.ebp.toNat :=
    enters.esp ▸ Nat.le_trans (Nat.le_add_left _ _) (Nat.le_add_right _ _)
  obtain ⟨hnone, hpushed⟩ := active.fits
  apply Sound.active next
  apply of_inside
  case block_eq => exact active.block_eq
  case fits => exact ⟨hframed.symm, congrArg (List.map Prod.fst) hpushed⟩
  case stacked => exact active.stacked.enter active.block_eq hnone hpushed hmax enters
  case chained => exact active.chained.replace rfl rfl
  case reaches =>
    apply program.reaches_of_framed (loads.mem_blockIds active.block_eq) hframed
    case hmade => exact rfl
    case hstart => exact active.block_eq
    case hown =>
      rw [Machine.display_madeFrame machine' (by omega), Nat.sub_add_cancel hpos,
        Stacked.displayWord_eq (by omega)]
      exact congrArg some enters.own
    case houter =>
      intro level hlow hlt
      obtain ⟨-, hfound⟩ := active.outer program loads hframed hlow hlt
      refine ⟨_, ?_, hfound⟩
      rw [Machine.display_madeFrame machine' (by omega), Nat.sub_add_cancel hlow,
        Stacked.displayWord_eq (by omega)]
      exact congrArg some (enters.display level hlow hlt)

end Enter

theorem sound_of_leave
    (active : Active image tree codes main block (.inside [] 0) machine activation callers)
    (hframed : tree.isFramed block = true)
    (hline : image.lines[line]? = some (.instruction none .leave comment))
    (h : image.track ⟨⟨line, machine⟩, activation :: callers⟩ = some after)
    (next : image.At tree codes (line + 1) block .ended) :
    Sound image tree codes main after := by
  obtain ⟨_, hexec, rfl⟩ := track_of_goesOn rfl hline h
  obtain rfl := Option.some.inj hexec
  obtain ⟨hframe, hpushed⟩ := active.fits
  rw [hframed] at hframe
  obtain ⟨made, hmade⟩ := Option.isSome_iff_exists.mp hframe
  have hempty := List.map_eq_nil_iff.mp hpushed
  have hleft := active.stacked.leave hmade hempty
  apply Sound.active next
  constructor
  case block_eq => exact active.block_eq
  case fits => exact ⟨rfl, hempty⟩
  case stacked =>
    have htop : (machine.ebp + 4).toNat = machine.ebp.toNat + 4 := toNat_add_word hleft.top_lt
    rw [← htop] at hleft
    exact hleft
  case chained => exact active.chained.replace rfl rfl
  case reaches => exact fun _ hne => absurd rfl hne
  case loaded => exact nofun
  case given => exact nofun

end Active

end MiniPascal
