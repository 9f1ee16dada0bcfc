import MiniPascal.Token.Scan
import Mathlib.Data.List.Infix

/-!
# Gaps

Between the lexemes of a text there are gaps: runs of blanks and of comments that are
closed.  Scanning takes one blank or comment at a time off the front of a text, so it
passes a gap as a whole, and stops where the gap cannot be extended.
-/

namespace MiniPascal.Token.Scan

open MiniPascal.Text

/-- A word of a language with which a text begins, as long as any other such word. -/
structure LongestIn (language : List Char → Prop) (front text : List Char) : Prop where
  mem : language front
  begins : front <+: text
  longest : ∀ other, other <+: text → language other → other.length ≤ front.length

/-- A blank, or a comment through the first mark that closes it. -/
inductive IsSeparator : List Char → Prop
  | blank {c : Char} (h : isBlank c = true) : IsSeparator [c]
  | brace {inside : List Char} (h : '}' ∉ inside) : IsSeparator ('{' :: (inside ++ ['}']))
  | starSlash {inside : List Char} (h : ¬['*', '/'] <:+: inside) :
      IsSeparator ('/' :: '*' :: (inside ++ ['*', '/']))

/-- A run of blanks and comments. -/
inductive IsGap : List Char → Prop
  | nil : IsGap []
  | cons {unit gap : List Char} (first : IsSeparator unit) (rest : IsGap gap) : IsGap (unit ++ gap)

theorem IsGap.append {gap gap' : List Char} (h : IsGap gap) (h' : IsGap gap') :
    IsGap (gap ++ gap') := by
  induction h with
  | nil => exact h'
  | cons first _ ih =>
      rw [List.append_assoc]
      exact .cons first ih

theorem IsSeparator.isGap {unit : List Char} (h : IsSeparator unit) : IsGap unit := by
  have hgap := IsGap.cons h .nil
  rwa [List.append_nil] at hgap

/-! ### Comments -/

theorem throughBrace_cons {c : Char} (h : c ≠ '}') (text : List Char) :
    throughBrace (c :: text) = (throughBrace text).map fun (front, back) => (c :: front, back) := by
  rw [throughBrace]
  exact h

/-- A comment in braces ends at the first closing brace. -/
theorem throughBrace_append_cons {inside : List Char} (h : '}' ∉ inside) (rest : List Char) :
    throughBrace (inside ++ '}' :: rest) = some (inside ++ ['}'], rest) := by
  induction inside with
  | nil => rfl
  | cons c inside ih =>
      obtain ⟨hne, hinside⟩ := not_or.mp (mt List.mem_cons.mpr h)
      rw [List.cons_append, throughBrace_cons (Ne.symm hne), ih hinside]
      rfl

theorem exists_of_throughBrace {text front back : List Char}
    (h : throughBrace text = some (front, back)) :
    ∃ inside, front = inside ++ ['}'] ∧ '}' ∉ inside := by
  fun_induction throughBrace text generalizing front with
  | case1 => cases h
  | case2 rest =>
      obtain ⟨rfl, -⟩ := Prod.mk.inj (Option.some.inj h)
      exact ⟨[], rfl, List.not_mem_nil⟩
  | case3 c rest hne ih =>
      obtain ⟨⟨front', back'⟩, hinner, houter⟩ := Option.map_eq_some_iff.mp h
      obtain ⟨rfl, rfl⟩ := Prod.mk.inj houter
      obtain ⟨inside, rfl, hinside⟩ := ih hinner
      exact ⟨c :: inside, rfl, List.not_mem_cons_of_ne_of_not_mem (Ne.symm hne) hinside⟩

/-- A comment between stars ends at the first star with a slash behind it. -/
theorem throughStarSlash_append_cons {inside : List Char} (h : ¬['*', '/'] <:+: inside)
    (rest : List Char) :
    throughStarSlash (inside ++ '*' :: '/' :: rest) = some (inside ++ ['*', '/'], rest) := by
  induction inside with
  | nil => rfl
  | cons c inside ih =>
      obtain ⟨hhere, hinside⟩ := not_or.mp (mt List.infix_cons_iff.mpr h)
      have hnot : ∀ after, c = '*' → inside ++ '*' :: '/' :: rest = '/' :: after → False := by
        rintro after rfl heq
        cases inside with
        | nil => cases heq
        | cons d inside =>
            obtain ⟨rfl, -⟩ := List.cons.inj heq
            exact hhere ⟨inside, rfl⟩
      rw [List.cons_append, throughStarSlash, ih hinside]
      · rfl
      · exact hnot

theorem exists_of_throughStarSlash {text front back : List Char}
    (h : throughStarSlash text = some (front, back)) :
    ∃ inside, front = inside ++ ['*', '/'] ∧ ¬['*', '/'] <:+: inside := by
  fun_induction throughStarSlash text generalizing front with
  | case1 => cases h
  | case2 rest =>
      obtain ⟨rfl, -⟩ := Prod.mk.inj (Option.some.inj h)
      exact ⟨[], rfl, by decide⟩
  | case3 c rest hnot ih =>
      obtain ⟨⟨front', back'⟩, hinner, houter⟩ := Option.map_eq_some_iff.mp h
      obtain ⟨rfl, rfl⟩ := Prod.mk.inj houter
      obtain ⟨inside, rfl, hinside⟩ := ih hinner
      refine ⟨c :: inside, rfl, ?_⟩
      rw [List.infix_cons_iff, not_or]
      refine ⟨?_, hinside⟩
      rintro ⟨after, heq⟩
      obtain ⟨rfl, rfl⟩ := List.cons.inj heq
      have hrest := throughStarSlash_append hinner
      exact hnot (after ++ ['*', '/'] ++ back') rfl hrest

/-! ### Gaps as they are passed -/

/-- A blank or a comment is taken off as a whole. -/
theorem step_separator {unit : List Char} (h : IsSeparator unit) (rest : List Char) :
    step (unit ++ rest) = .gap unit rest := by
  cases h with
  | @blank c hblank =>
      have hbrace : c ≠ '{' := by
        rintro rfl
        cases hblank
      have hslash : c ≠ '/' := by
        rintro rfl
        cases hblank
      rw [List.singleton_append, step, if_pos hblank]
      · exact hbrace
      · exact fun _ heq => absurd heq hslash
  | @brace inside hinside =>
      rw [List.cons_append, List.append_assoc, List.singleton_append, step,
        throughBrace_append_cons hinside]
  | @starSlash inside hinside =>
      have htext : '/' :: '*' :: (inside ++ ['*', '/']) ++ rest =
          '/' :: '*' :: (inside ++ '*' :: '/' :: rest) := by
        simp
      rw [htext, step, throughStarSlash_append_cons hinside]

theorem isSeparator_of_step {text unit rest : List Char} (h : step text = .gap unit rest) :
    IsSeparator unit := by
  unfold step at h
  split at h
  · cases h
  · split at h
    · next hclosed =>
        obtain ⟨rfl, rfl⟩ := Step.gap.inj h
        obtain ⟨inside, rfl, hinside⟩ := exists_of_throughBrace hclosed
        exact .brace hinside
    · cases h
  · split at h
    · next hclosed =>
        obtain ⟨rfl, rfl⟩ := Step.gap.inj h
        obtain ⟨inside, rfl, hinside⟩ := exists_of_throughStarSlash hclosed
        exact .starSlash hinside
    · cases h
  · split at h
    · next hblank =>
        obtain ⟨rfl, rfl⟩ := Step.gap.inj h
        exact .blank hblank
    · exact absurd h lexeme_ne_gap

/-- A text begins with a blank or a comment. -/
def BeginsGap (text : List Char) : Prop :=
  ∃ unit rest, step text = .gap unit rest

theorem IsGap.length_le {gap other text : List Char} (hgap : IsGap gap) (hstop : ¬BeginsGap text)
    (hother : IsGap other) (hbegins : other <+: gap ++ text) : other.length ≤ gap.length := by
  induction hgap generalizing other with
  | nil =>
      cases hother with
      | nil => exact Nat.le_refl 0
      | cons first _ =>
          obtain ⟨after, rfl⟩ := hbegins
          rw [List.append_assoc] at hstop
          exact absurd ⟨_, _, step_separator first _⟩ hstop
  | @cons unit gap first _ ih =>
      cases hother with
      | nil => exact Nat.zero_le _
      | @cons unit' other' first' rest' =>
          obtain ⟨after, heq⟩ := hbegins
          have hstep := step_separator first (gap ++ text)
          rw [← List.append_assoc, ← heq, List.append_assoc, step_separator first'] at hstep
          obtain ⟨rfl, hrest⟩ := Step.gap.inj hstep
          rw [List.length_append, List.length_append]
          exact Nat.add_le_add_left (ih rest' ⟨after, hrest⟩) _

/-- A gap is as long as it can be if no blank or comment comes after it. -/
theorem longestIn_isGap_iff {gap text : List Char} :
    LongestIn IsGap gap (gap ++ text) ↔ IsGap gap ∧ ¬BeginsGap text := by
  constructor
  · intro h
    refine ⟨h.mem, ?_⟩
    rintro ⟨unit, rest, hstep⟩
    have hunit := isSeparator_of_step hstep
    obtain ⟨rfl, hne⟩ := step_gap hstep
    have hlonger := h.longest (gap ++ unit) ⟨rest, List.append_assoc _ _ _⟩
      (h.mem.append hunit.isGap)
    rw [List.length_append] at hlonger
    have := List.length_pos_iff.mpr hne
    omega
  · rintro ⟨hgap, hstop⟩
    exact ⟨hgap, List.prefix_append _ _, fun _ hbegins hother =>
      hgap.length_le hstop hother hbegins⟩

end MiniPascal.Token.Scan
