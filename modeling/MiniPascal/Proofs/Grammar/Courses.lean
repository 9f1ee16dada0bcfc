import MiniPascal.Outline.Parse
import MiniPascal.Proofs.Grammar.Rules

/-!
# Halted derivations

A derivation halts where it expects a token that does not come.  The tokens before it are
derived, and some productions are still open: those on the path from the rule where the
derivation began.  The course of a rule has both the words it derives and the places where
it halts, so the course of a sequence of rules is a product.
-/

namespace MiniPascal

open Token (Kind)
open Outline (Expectation)

/-- What is expected in place of a whole production, where there is a name for it. -/
def Production.expectation? : Production → Option Expectation
  | constant => some .constant
  | type => some .type
  | factor => some .factor
  | _ => none

namespace Ebnf

/-- By the right side of a rule some kinds are derived, some productions are then open, the
outermost first, and something is expected there. -/
inductive Halts : Ebnf → List Kind → List Production → Expectation → Prop
  | name : Halts name [] [] (.token .name)
  | number : Halts number [] [] (.token .number)
  | text : Halts text [] [] (.token .text)
  | word (keyword : Keyword) : Halts (word keyword) [] [] (.token (.keyword keyword))
  | mark (symbol : Symbol) : Halts (mark symbol) [] [] (.token (.symbol symbol))
  | production {production : Production} {kinds : List Kind} {path : List Production}
      {expected : Expectation} (h : Halts production.rule kinds path expected) :
      Halts production kinds (production :: path) expected
  /-- None of a production was read. -/
  | whole {production : Production} {expected : Expectation}
      (h : production.expectation? = some expected) : Halts production [] [production] expected
  /-- All of a program was read, but not all of the tokens. -/
  | over {kinds : List Kind} (h : Derives Production.program.rule kinds) :
      Halts Production.program kinds [.program] (.token .endOfFile)
  | first {first second : Ebnf} {kinds : List Kind} {path : List Production}
      {expected : Expectation} (h : Halts first kinds path expected) :
      Halts (first ++ second) kinds path expected
  | second {first second : Ebnf} {kinds kinds' : List Kind} {path : List Production}
      {expected : Expectation} (h : Derives first kinds) (h' : Halts second kinds' path expected) :
      Halts (first ++ second) (kinds ++ kinds') path expected
  | left {left right : Ebnf} {kinds : List Kind} {path : List Production}
      {expected : Expectation} (h : Halts left kinds path expected) :
      Halts (left ||| right) kinds path expected
  | right {left right : Ebnf} {kinds : List Kind} {path : List Production}
      {expected : Expectation} (h : Halts right kinds path expected) :
      Halts (left ||| right) kinds path expected
  | item {item : Ebnf} {kinds : List Kind} {path : List Production} {expected : Expectation}
      (h : Halts item kinds path expected) : Halts (many item) kinds path expected
  | another {item : Ebnf} {kinds kinds' : List Kind} {path : List Production}
      {expected : Expectation} (h : Derives item kinds)
      (h' : Halts (many item) kinds' path expected) :
      Halts (many item) (kinds ++ kinds') path expected

end Ebnf

/-! ### Courses -/

/-- Words that are read to the end, and for a path of open productions and an expectation
those that are read up to a halt there. -/
@[ext]
structure Course where
  words : Language Kind
  halts : List Production → Expectation → Language Kind

namespace Course

instance : LE Course :=
  ⟨fun course course' => course.words ≤ course'.words ∧
    ∀ path expected, course.halts path expected ≤ course'.halts path expected⟩

/-- One after the other.  The second is halted when the first was read to its end. -/
instance : Mul Course :=
  ⟨fun first second =>
    { words := first.words * second.words
      halts := fun path expected =>
        first.halts path expected + first.words * second.halts path expected }⟩

theorem words_mul (first second : Course) :
    (first * second).words = first.words * second.words := rfl

theorem halts_mul (first second : Course) (path : List Production) (expected : Expectation) :
    (first * second).halts path expected =
      first.halts path expected + first.words * second.halts path expected := rfl

theorem mem_halts_mul {first second : Course} {path : List Production} {expected : Expectation}
    {kinds : List Kind} : kinds ∈ (first * second).halts path expected ↔
      kinds ∈ first.halts path expected ∨
        ∃ front ∈ first.words, ∃ back ∈ second.halts path expected, front ++ back = kinds := by
  rw [halts_mul, Language.mem_add, Language.mem_mul]

instance : Semigroup Course where
  mul_assoc first second third := by
    apply Course.ext
    · exact mul_assoc _ _ _
    · funext path expected
      simp only [halts_mul, words_mul, mul_add, mul_assoc, add_assoc]

/-- What goes on in a production that was entered. -/
def inside (production : Production) : Course where
  words := production.rule.words
  halts path expected :=
    { kinds | Ebnf.Halts production kinds (production :: path) expected }

/-- The end of the file, which is expected and not read. -/
def ending : Course where
  words := 1
  halts path expected := { kinds | kinds = [] ∧ path = [] ∧ expected = .token .endOfFile }

end Course

namespace Ebnf

/-- The course of the right side of a rule. -/
def course (rule : Ebnf) : Course where
  words := rule.words
  halts path expected := { kinds | rule.Halts kinds path expected }

variable {first second item : Ebnf}

theorem course_append : (first ++ second).course = first.course * second.course := by
  apply Course.ext words_append
  funext path expected
  apply Language.ext
  intro kinds
  rw [Course.mem_halts_mul]
  constructor
  · intro h
    cases h with
    | first h => exact .inl h
    | second h h' => exact .inr ⟨_, h, _, h', rfl⟩
  · rintro (h | ⟨front, hfront, back, hback, rfl⟩)
    · exact .first h
    · exact .second hfront hback

theorem course_le_or_left : first.course ≤ (first ||| second).course :=
  ⟨fun _ => .left, fun _ _ _ => .left⟩

theorem course_le_or_right : second.course ≤ (first ||| second).course :=
  ⟨fun _ => .right, fun _ _ _ => .right⟩

/-- A single token is never left out. -/
theorem not_derives_name_nil : ¬name.Derives [] := by
  intro h
  cases h

theorem not_derives_word_nil (keyword : Keyword) : ¬(word keyword).Derives [] := by
  intro h
  cases h

theorem not_derives_mark_nil (symbol : Symbol) : ¬(mark symbol).Derives [] := by
  intro h
  cases h

/-- Before a course nothing needs to be read if a rule derives nothing. -/
theorem le_course_mul {rule : Ebnf} (h : rule.Derives []) (course : Course) :
    course ≤ rule.course * course := by
  constructor
  · exact fun kinds hkinds => Language.mem_mul.mpr ⟨[], h, kinds, hkinds, rfl⟩
  · exact fun path expected kinds hkinds =>
      Course.mem_halts_mul.mpr (.inr ⟨[], h, kinds, hkinds, rfl⟩)

/-- An item and more of them are some items. -/
theorem course_mul_course_many_le : item.course * (many item).course ≤ (many item).course := by
  constructor
  · intro kinds hkinds
    obtain ⟨front, hfront, back, hback, rfl⟩ := Language.mem_mul.mp hkinds
    exact .another hfront hback
  · intro path expected kinds hkinds
    rcases Course.mem_halts_mul.mp hkinds with hitem | ⟨front, hfront, back, hback, rfl⟩
    · exact .item hitem
    · exact .another hfront hback

theorem course_rule_le_inside (production : Production) :
    production.rule.course ≤ Course.inside production :=
  ⟨fun _ h => h, fun _ _ _ => .production⟩

/-- After a program only the end of the file is expected. -/
theorem course_program_le_inside :
    Production.program.rule.course * Course.ending ≤ Course.inside .program := by
  constructor
  · rw [Course.words_mul]
    exact (mul_one _).le
  · intro path expected kinds hkinds
    rcases Course.mem_halts_mul.mp hkinds with hrule | ⟨front, hfront, back, ⟨rfl, rfl, rfl⟩, rfl⟩
    · exact .production hrule
    · rw [List.append_nil]
      exact .over hfront

end Ebnf

end MiniPascal
