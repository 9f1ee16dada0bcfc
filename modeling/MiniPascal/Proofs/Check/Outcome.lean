import MiniPascal.Check

/-!
# How a step of a check ends

A step ends in a result and a state, or in a diagnostic and a state.  `Ends`
says of a step and the state before it what holds in either case; a sequence of
steps is followed one step at a time.
-/

namespace MiniPascal.Check

variable {α β : Type}

/-- From a state, a step ends either well, with `done`, or not, with `failed`. -/
def Ends (step : Check α) (start : Checking) (done : α → Checking → Prop)
    (failed : Diagnostic → Checking → Prop) : Prop :=
  match step.run start with
  | .ok value state => done value state
  | .error diagnostic state => failed diagnostic state

variable {start : Checking} {failed : Diagnostic → Checking → Prop}

theorem Ends.mono {step : Check α} {done done' : α → Checking → Prop}
    (h : step.Ends start done failed) (himp : ∀ value state, done value state → done' value state) :
    step.Ends start done' failed := by
  unfold Ends at *
  split at h
  · exact himp _ _ h
  · exact h

theorem Ends.mono_failed {step : Check α} {done : α → Checking → Prop}
    {failed' : Diagnostic → Checking → Prop} (h : step.Ends start done failed)
    (himp : ∀ diagnostic state, failed diagnostic state → failed' diagnostic state) :
    step.Ends start done failed' := by
  unfold Ends at *
  split at h
  · exact h
  · exact himp _ _ h

/-- What holds twice of how a step ends holds together. -/
theorem Ends.and {step : Check α} {done done' : α → Checking → Prop}
    {failed' : Diagnostic → Checking → Prop} (h : step.Ends start done failed)
    (h' : step.Ends start done' failed') :
    step.Ends start (fun value state => done value state ∧ done' value state)
      (fun diagnostic state => failed diagnostic state ∧ failed' diagnostic state) := by
  unfold Ends at *
  split at h <;> simp_all

theorem ends_pure {value : α} {done : α → Checking → Prop} (h : done value start) :
    Ends (pure value) start done failed := h

theorem ends_throw {diagnostic : Diagnostic} {done : α → Checking → Prop}
    (h : failed diagnostic start) : Ends (throw diagnostic) start done failed := h

/-- Of two steps in a row the second begins where the first ends well. -/
theorem ends_bind {first : Check α} {next : α → Check β} {done : β → Checking → Prop}
    (h : first.Ends start (fun value state => (next value).Ends state done failed) failed) :
    Ends (first >>= next) start done failed := by
  unfold Ends at h
  change match EStateM.bind first next start with
    | .ok value state => done value state
    | .error diagnostic state => failed diagnostic state
  unfold EStateM.bind
  cases hfirst : first start with
  | ok value state => simpa only [EStateM.run, hfirst] using h
  | error diagnostic state => simpa only [EStateM.run, hfirst] using h

theorem ends_map {first : Check α} {change : α → β} {done : β → Checking → Prop}
    (h : first.Ends start (fun value state => done (change value) state) failed) :
    Ends (change <$> first) start done failed := by
  unfold Ends at h
  change match EStateM.map change first start with
    | .ok value state => done value state
    | .error diagnostic state => failed diagnostic state
  unfold EStateM.map
  cases hfirst : first start with
  | ok value state => simpa only [EStateM.run, hfirst] using h
  | error diagnostic state => simpa only [EStateM.run, hfirst] using h

theorem ends_get {done : Checking → Checking → Prop} (h : done start start) :
    Ends get start done failed := h

theorem ends_modify {change : Checking → Checking} {done : Unit → Checking → Prop}
    (h : done () (change start)) : Ends (modify change) start done failed := h

theorem ends_onTree {step : Tree → Except Diagnostic Tree} {tree : Tree}
    {done : Unit → Checking → Prop} (hstep : step start.tree = .ok tree)
    (h : done () { start with tree }) : Ends (onTree step) start done failed := by
  unfold onTree
  refine ends_bind (ends_get ?_)
  rw [hstep]
  exact ends_modify h

theorem ends_onTree_error {step : Tree → Except Diagnostic Tree} {diagnostic : Diagnostic}
    {done : Unit → Checking → Prop} (hstep : step start.tree = .error diagnostic)
    (h : failed diagnostic start) : Ends (onTree step) start done failed := by
  unfold onTree
  refine ends_bind (ends_get ?_)
  rw [hstep]
  exact ends_throw h

/-- A change of the tree is made, or it is refused and the state stays. -/
theorem ends_onTree_cases {step : Tree → Except Diagnostic Tree} {done : Unit → Checking → Prop}
    (hok : ∀ tree, step start.tree = .ok tree → done () { start with tree })
    (herror : ∀ diagnostic, step start.tree = .error diagnostic → failed diagnostic start) :
    Ends (onTree step) start done failed := by
  cases hstep : step start.tree with
  | ok tree => exact ends_onTree hstep (hok tree hstep)
  | error diagnostic => exact ends_onTree_error hstep (herror diagnostic hstep)

theorem ends_ask {query : Tree → Except Diagnostic α} {answer : α}
    {done : α → Checking → Prop} (hquery : query start.tree = .ok answer)
    (h : done answer start) : Ends (ask query) start done failed := by
  unfold ask
  refine ends_bind (ends_get ?_)
  rw [hquery]
  exact ends_pure h

end MiniPascal.Check
