import MiniPascal.Code.Emit

/-!
# What an emission writes

`Emits` says of an emission, from a label counter, which lines it writes and what
it ends with, when it does not stop at a fault.  The lines of a sequence are those
of its parts, one after another.  An emission succeeds when it emits something
from every label counter.
-/

namespace MiniPascal.Code.Emit

open MiniPascal.Assembly

variable {α β : Type}

/-- From a label counter, an emission writes lines and ends with another counter
and a value. -/
def Emits (emit : Emit α) (counter : Nat) (lines : List Line) (final : Nat) (value : α) : Prop :=
  emit counter = { lines, counter := final, result := .ok value }

variable {counter final : Nat} {lines : List Line} {value : α}

theorem Emits.unique {emit : Emit α} {lines' : List Line} {final' : Nat} {value' : α}
    (h : emit.Emits counter lines final value) (h' : emit.Emits counter lines' final' value') :
    lines = lines' ∧ final = final' ∧ value = value' := by
  obtain ⟨hlines, hfinal, hvalue⟩ := Emission.mk.inj (Eq.trans (Eq.symm h) h')
  exact ⟨hlines, hfinal, Except.ok.inj hvalue⟩

/-! ### Emissions of each kind -/

theorem emits_pure_iff {given : α} :
    Emits (pure given) counter lines final value ↔
      lines = [] ∧ final = counter ∧ value = given := by
  constructor
  · intro h
    obtain ⟨rfl, rfl, rfl⟩ := Emits.unique h (Eq.refl _)
    exact ⟨rfl, rfl, rfl⟩
  · rintro ⟨rfl, rfl, rfl⟩
    rfl

theorem not_emits_stop {fault : Fault} :
    ¬Emits (stop fault : Emit α) counter lines final value := by
  intro h
  cases (Emission.mk.inj h).2.2

theorem emits_ofExcept_iff {given : Except Fault α} :
    Emits (ofExcept given) counter lines final value ↔
      lines = [] ∧ final = counter ∧ given = .ok value := by
  constructor
  · intro h
    obtain ⟨hlines, hfinal, hvalue⟩ := Emission.mk.inj h
    exact ⟨hlines.symm, hfinal.symm, hvalue⟩
  · rintro ⟨rfl, rfl, rfl⟩
    rfl

theorem emits_freshNumber_iff {number : Nat} :
    Emits freshNumber counter lines final number ↔
      lines = [] ∧ final = counter + 1 ∧ number = counter + 1 := by
  constructor
  · intro h
    obtain ⟨rfl, rfl, rfl⟩ := Emits.unique h (Eq.refl _)
    exact ⟨rfl, rfl, rfl⟩
  · rintro ⟨rfl, rfl, rfl⟩
    rfl

theorem emits_line_iff {text : Line} {done : Unit} :
    Emits (line text) counter lines final done ↔ lines = [text] ∧ final = counter := by
  constructor
  · intro h
    obtain ⟨rfl, rfl, -⟩ := Emits.unique h (Eq.refl _)
    exact ⟨rfl, rfl⟩
  · rintro ⟨rfl, rfl⟩
    rfl

/-- A sequence writes what its first part writes, and then what follows it. -/
theorem emits_bind_iff {first : Emit α} {next : α → Emit β} {result : β} :
    Emits (first >>= next) counter lines final result ↔
      ∃ front middle value back, first.Emits counter front middle value ∧
        (next value).Emits middle back final result ∧ lines = front ++ back := by
  change andThen first next counter = _ ↔ _
  unfold andThen Emits
  constructor
  · intro h
    split at h
    · next front middle value hfirst =>
        obtain ⟨rfl, rfl, hresult⟩ := Emission.mk.inj h
        exact ⟨front, middle, value, _, hfirst,
          congrArg (Emission.mk _ _) hresult, rfl⟩
    · cases (Emission.mk.inj h).2.2
  · rintro ⟨front, middle, value, back, hfirst, hnext, rfl⟩
    rw [hfirst]
    simp only [hnext]

theorem emits_freshLabel_iff {label : Label} :
    Emits freshLabel counter lines final label ↔
      lines = [] ∧ final = counter + 1 ∧ label = .numbered (counter + 1) := by
  unfold freshLabel
  simp only [emits_bind_iff, emits_freshNumber_iff, emits_pure_iff]
  constructor
  · rintro ⟨_, _, _, _, ⟨rfl, rfl, rfl⟩, ⟨rfl, rfl, rfl⟩, rfl⟩
    exact ⟨rfl, rfl, rfl⟩
  · rintro ⟨rfl, rfl, rfl⟩
    exact ⟨_, _, _, _, ⟨rfl, rfl, rfl⟩, ⟨rfl, rfl, rfl⟩, rfl⟩

/-! ### Success -/

/-- From every label counter, the emission ends with a value of which `post` holds. -/
def Succeeds (emit : Emit α) (post : α → Prop) : Prop :=
  ∀ counter, ∃ lines final value, emit.Emits counter lines final value ∧ post value

variable {post : α → Prop}

theorem Succeeds.mono {emit : Emit α} {post' : α → Prop} (h : emit.Succeeds post)
    (himp : ∀ value, post value → post' value) : emit.Succeeds post' := by
  intro counter
  obtain ⟨lines, final, value, hemits, hpost⟩ := h counter
  exact ⟨lines, final, value, hemits, himp value hpost⟩

theorem succeeds_pure (h : post value) : Succeeds (pure value) post :=
  fun counter => ⟨[], counter, value, rfl, h⟩

theorem succeeds_bind {first : Emit α} {next : α → Emit β} {after : β → Prop}
    (h : first.Succeeds post) (hnext : ∀ value, post value → (next value).Succeeds after) :
    Succeeds (first >>= next) after := by
  intro counter
  obtain ⟨front, middle, value, hfirst, hpost⟩ := h counter
  obtain ⟨back, final, result, hsecond, hafter⟩ := hnext value hpost middle
  exact ⟨_, final, result,
    emits_bind_iff.mpr ⟨front, middle, value, back, hfirst, hsecond, rfl⟩, hafter⟩

/-- A first part whose value does not matter. -/
theorem succeeds_then {first : Emit Unit} {next : Emit β} {after : β → Prop}
    (h : first.Succeeds fun _ => True) (hnext : next.Succeeds after) :
    Succeeds (first >>= fun _ => next) after :=
  succeeds_bind h fun _ _ => hnext

theorem succeeds_ofExcept {given : Except Fault α} (hgiven : given = .ok value) (h : post value) :
    Succeeds (ofExcept given) post :=
  fun counter => ⟨[], counter, value, congrArg (Emission.mk [] counter) hgiven, h⟩

theorem succeeds_ofExcept_bind {given : Except Fault α} {next : α → Emit β} {after : β → Prop}
    (hgiven : given = .ok value) (hnext : (next value).Succeeds after) :
    Succeeds (ofExcept given >>= next) after := by
  refine succeeds_bind (succeeds_ofExcept hgiven (Eq.refl value)) ?_
  rintro _ rfl
  exact hnext

theorem succeeds_freshNumber : Succeeds freshNumber fun _ => True :=
  fun counter => ⟨[], counter + 1, counter + 1, rfl, trivial⟩

theorem succeeds_freshLabel : Succeeds freshLabel fun _ => True :=
  succeeds_bind succeeds_freshNumber fun _ _ => succeeds_pure trivial

@[simp]
theorem succeeds_line (text : Line) : Succeeds (line text) fun _ => True :=
  fun counter => ⟨[text], counter, (), rfl, trivial⟩

@[simp]
theorem succeeds_commented (instruction : Instruction) (comment : String) :
    Succeeds (commented instruction comment) fun _ => True :=
  succeeds_line _

@[simp]
theorem succeeds_instruction (instruction : Instruction) :
    Succeeds (Emit.instruction instruction) fun _ => True :=
  succeeds_line _

@[simp]
theorem succeeds_labelled (label : Label) (instruction : Instruction) (comment : String) :
    Succeeds (labelled label instruction comment) fun _ => True :=
  succeeds_line _

@[simp]
theorem succeeds_label (label : Label) : Succeeds (Emit.label label) fun _ => True :=
  succeeds_line _

@[simp]
theorem succeeds_directive (directive : Directive) :
    Succeeds (Emit.directive directive) fun _ => True :=
  succeeds_line _

end MiniPascal.Code.Emit
