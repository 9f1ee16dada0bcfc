import MiniPascal.Proofs.Source.Semantics

/-!
# Running the meaning

What statements do can be computed, up to a number of steps.  Enough steps find what a
statement does whenever it ends, so a statement does one thing at most.
-/

namespace MiniPascal.Source

open MiniPascal.Machine

/-- One run after another. -/
def followed (first : Option (List Event × Store)) (next : Store → Option (List Event × Store)) :
    Option (List Event × Store) :=
  first.bind fun (events, middle) => (next middle).map fun (events', final) =>
    (events ++ events', final)

theorem followed_eq_some_iff {first : Option (List Event × Store)}
    {next : Store → Option (List Event × Store)} {events : List Event} {final : Store} :
    followed first next = some (events, final) ↔ ∃ front middle back,
      first = some (front, middle) ∧ next middle = some (back, final) ∧ events = front ++ back := by
  constructor
  · intro h
    obtain ⟨⟨front, middle⟩, hfirst, hrest⟩ := Option.bind_eq_some_iff.mp h
    obtain ⟨⟨back, last⟩, hnext, hresult⟩ := Option.map_eq_some_iff.mp hrest
    cases hresult
    exact ⟨front, middle, back, hfirst, hnext, rfl⟩
  · rintro ⟨front, middle, back, rfl, hnext, rfl⟩
    exact Option.map_eq_some_iff.mpr ⟨_, hnext, rfl⟩

/-- What a statement writes and the store where it ends, if that takes few steps. -/
def run? (names : Names) : Nat → Store → Statement → Option (List Event × Store)
  | 0, _, _ => none
  | fuel + 1, store, statement =>
    match statement with
    | .assign target index source =>
      if names target.name = some .variable ∧
          index.all (fun inner => (value names store inner).isSome) then
        (value names store source).map fun word => ([], store.set target.name word)
      else none
    | .call ref args =>
      if names ref.name = some .write then
        (args.mapM (event? names store)).map (·, store)
      else none
    | .empty _ | .compound [] _ => some ([], store)
    | .compound (first :: others) line =>
      followed (run? names fuel store first) fun middle =>
        run? names fuel middle (.compound others line)
    | .ifThen condition consequence _ => do
      if (← value names store condition) = 0 then some ([], store)
      else run? names fuel store consequence
    | .ifElse condition consequence alternative _ => do
      run? names fuel store
        (if (← value names store condition) = 0 then alternative else consequence)
    | .whileDo condition body line => do
      if (← value names store condition) = 0 then some ([], store)
      else
        followed (run? names fuel store body) fun middle =>
          run? names fuel middle (.whileDo condition body line)

variable {names : Names} {fuel : Nat} {store final : Store} {statement : Statement}
  {events : List Event}

/-- One step more changes nothing. -/
theorem run?_succ (h : run? names fuel store statement = some (events, final)) :
    run? names (fuel + 1) store statement = some (events, final) := by
  induction fuel generalizing store statement events final with
  | zero => cases h
  | succ fuel ih =>
      cases statement with
      | assign | call | empty => exact h
      | compound body line =>
          cases body with
          | nil => exact h
          | cons first others =>
              rw [run?] at h ⊢
              obtain ⟨front, middle, back, hfirst, hothers, rfl⟩ := followed_eq_some_iff.mp h
              exact followed_eq_some_iff.mpr ⟨front, middle, back, ih hfirst, ih hothers, rfl⟩
      | ifThen condition consequence line =>
          obtain ⟨word, hword, hrest⟩ := Option.bind_eq_some_iff.mp h
          apply Option.bind_eq_some_iff.mpr
          refine ⟨word, hword, ?_⟩
          split at hrest
          · next hzero => exact (if_pos hzero).trans hrest
          · next hzero => exact (if_neg hzero).trans (ih hrest)
      | ifElse condition consequence alternative line =>
          obtain ⟨word, hword, hrest⟩ := Option.bind_eq_some_iff.mp h
          exact Option.bind_eq_some_iff.mpr ⟨word, hword, ih hrest⟩
      | whileDo condition body line =>
          obtain ⟨word, hword, hrest⟩ := Option.bind_eq_some_iff.mp h
          apply Option.bind_eq_some_iff.mpr
          refine ⟨word, hword, ?_⟩
          split at hrest
          · next hzero => exact (if_pos hzero).trans hrest
          · next hzero =>
              obtain ⟨front, middle, back, hbody, hothers, rfl⟩ := followed_eq_some_iff.mp hrest
              apply (if_neg hzero).trans
              exact followed_eq_some_iff.mpr ⟨front, middle, back, ih hbody, ih hothers, rfl⟩

theorem run?_of_le {fuel' : Nat} (hle : fuel ≤ fuel')
    (h : run? names fuel store statement = some (events, final)) :
    run? names fuel' store statement = some (events, final) := by
  induction hle with
  | refl => exact h
  | step _ ih => exact run?_succ ih

/-- What is computed is what the statement does. -/
theorem exec_of_run? (h : run? names fuel store statement = some (events, final)) :
    Exec names store statement events final := by
  induction fuel generalizing store statement events final with
  | zero => cases h
  | succ fuel ih =>
      cases statement with
      | assign target index source =>
          rw [run?] at h
          split at h
          · next hdefined =>
              obtain ⟨word, hword, hresult⟩ := Option.map_eq_some_iff.mp h
              cases hresult
              apply Exec.assign hdefined.1 hword
              intro inner hinner
              obtain rfl := hinner
              exact hdefined.2
          · cases h
      | call ref args =>
          rw [run?] at h
          split at h
          · next hwrite =>
              obtain ⟨written, hwritten, hresult⟩ := Option.map_eq_some_iff.mp h
              cases hresult
              exact .write hwrite hwritten
          · cases h
      | empty line =>
          cases h
          exact .empty
      | compound body line =>
          cases body with
          | nil =>
              cases h
              exact .compoundNil
          | cons first others =>
              rw [run?] at h
              obtain ⟨front, middle, back, hfirst, hothers, rfl⟩ := followed_eq_some_iff.mp h
              exact .compoundCons (ih hfirst) (ih hothers)
      | ifThen condition consequence line =>
          obtain ⟨word, hword, hrest⟩ := Option.bind_eq_some_iff.mp h
          split at hrest
          · next hzero =>
              subst hzero
              cases hrest
              exact .ifThenSkip hword
          · next hzero => exact .ifThen hword hzero (ih hrest)
      | ifElse condition consequence alternative line =>
          obtain ⟨word, hword, hrest⟩ := Option.bind_eq_some_iff.mp h
          exact .ifElse hword (ih hrest)
      | whileDo condition body line =>
          obtain ⟨word, hword, hrest⟩ := Option.bind_eq_some_iff.mp h
          split at hrest
          · next hzero =>
              subst hzero
              cases hrest
              exact .whileDone hword
          · next hzero =>
              obtain ⟨front, middle, back, hbody, hothers, rfl⟩ := followed_eq_some_iff.mp hrest
              exact .whileStep hword hzero (ih hbody) (ih hothers)

/-- What a statement does is computed in enough steps. -/
theorem exists_run?_of_exec (h : Exec names store statement events final) :
    ∃ fuel, run? names fuel store statement = some (events, final) := by
  induction h with
  | @assign store target index source word targeted valued indexed =>
      refine ⟨1, (if_pos ⟨targeted, ?_⟩).trans (by rw [valued]; rfl)⟩
      cases index with
      | none => rfl
      | some inner => exact indexed inner rfl
  | write called written => exact ⟨1, (if_pos called).trans (by rw [written]; rfl)⟩
  | empty | compoundNil => exact ⟨1, rfl⟩
  | compoundCons _ _ ihFirst ihOthers =>
      obtain ⟨fuel, hfirst⟩ := ihFirst
      obtain ⟨fuel', hothers⟩ := ihOthers
      refine ⟨max fuel fuel' + 1, ?_⟩
      rw [run?]
      exact followed_eq_some_iff.mpr ⟨_, _, _, run?_of_le (Nat.le_max_left _ _) hfirst,
        run?_of_le (Nat.le_max_right _ _) hothers, rfl⟩
  | ifThen tested nonzero _ ih =>
      obtain ⟨fuel, hbody⟩ := ih
      exact ⟨fuel + 1, Option.bind_eq_some_iff.mpr ⟨_, tested, (if_neg nonzero).trans hbody⟩⟩
  | ifThenSkip tested | whileDone tested =>
      exact ⟨1, Option.bind_eq_some_iff.mpr ⟨_, tested, rfl⟩⟩
  | ifElse tested _ ih =>
      obtain ⟨fuel, hbody⟩ := ih
      exact ⟨fuel + 1, Option.bind_eq_some_iff.mpr ⟨_, tested, hbody⟩⟩
  | whileStep tested nonzero _ _ ihBody ihRest =>
      obtain ⟨fuel, hbody⟩ := ihBody
      obtain ⟨fuel', hrest⟩ := ihRest
      refine ⟨max fuel fuel' + 1, Option.bind_eq_some_iff.mpr ⟨_, tested, ?_⟩⟩
      apply (if_neg nonzero).trans
      exact followed_eq_some_iff.mpr ⟨_, _, _, run?_of_le (Nat.le_max_left _ _) hbody,
        run?_of_le (Nat.le_max_right _ _) hrest, rfl⟩

/-- The meaning of statements is what is computed for them. -/
theorem exec_iff_exists_run? :
    Exec names store statement events final ↔
      ∃ fuel, run? names fuel store statement = some (events, final) :=
  ⟨exists_run?_of_exec, fun ⟨_, h⟩ => exec_of_run? h⟩

/-- A statement does one thing at most. -/
theorem Exec.deterministic {events' : List Event} {final' : Store}
    (h : Exec names store statement events final)
    (h' : Exec names store statement events' final') : events' = events ∧ final' = final := by
  obtain ⟨fuel, hrun⟩ := exists_run?_of_exec h
  obtain ⟨fuel', hrun'⟩ := exists_run?_of_exec h'
  have hsame := (run?_of_le (Nat.le_max_right fuel fuel') hrun').symm.trans
    (run?_of_le (Nat.le_max_left fuel fuel') hrun)
  exact Prod.mk.inj (Option.some.inj hsame)

end MiniPascal.Source
