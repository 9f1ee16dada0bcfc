import MiniPascal.Text.Quoted
import Mathlib.Algebra.Ring.Parity
import Mathlib.Data.List.Induction

/-!
# Reading quoted texts

A quoted text is read from left to right: a backslash and the mark after it stand for one
character, and the first quote that stands for itself ends the text.  The reader accepts
what `quote` writes and nothing else, whatever follows, so a quoted text ends neither early
nor late.  Beside the reader, a quote or a backslash stands for itself or belongs to an
escape by the parity of the backslashes in front of it.
-/

namespace MiniPascal.Text

/-! ### The reader -/

/-- The character that a mark stands for behind a backslash. -/
def unescape : Char → Option Char
  | '"' => some '"'
  | '\\' => some '\\'
  | 'n' => some '\n'
  | 't' => some '\t'
  | _ => none

/-- The characters that are never written as they are. -/
def special : List Char :=
  ['"', '\\', '\n', '\t']

/-- The text up to the first quote that stands for itself, and what follows. -/
def readInside : List Char → Option (List Char × List Char)
  | [] => none
  | '"' :: back => some ([], back)
  | '\\' :: mark :: back => do
    let c ← unescape mark
    let (text, rest) ← readInside back
    return (c :: text, rest)
  | c :: back =>
    if c ∈ special then
      none
    else do
      let (text, rest) ← readInside back
      return (c :: text, rest)

def unquote : List Char → Option (String × List Char)
  | '"' :: inside => do
    let (text, back) ← readInside inside
    return (String.ofList text, back)
  | _ => none

/-- The number of backslashes at the end of a text.  If it is odd, the last of them takes
what comes next for its mark. -/
def slashesBefore (front : List Char) : Nat :=
  (front.reverse.takeWhile (· = '\\')).length

/-- The inside of a quoted text: no line feed and no tab stands in it, every quote is
escaped, and a backslash that is not escaped itself begins an escape. -/
structure IsInside (inside : List Char) : Prop where
  no_lineFeed : '\n' ∉ inside
  no_tab : '\t' ∉ inside
  quote_escaped : ∀ front back, inside = front ++ '"' :: back → Odd (slashesBefore front)
  slash_escapes : ∀ front back, inside = front ++ '\\' :: back → Even (slashesBefore front) →
    ∃ mark rest, back = mark :: rest ∧ (unescape mark).isSome = true

/-! ### Escapes -/

/-- A character is escaped by a backslash and its mark, or stands for itself. -/
theorem escape_cases (c : Char) :
    (∃ mark, escape c = ['\\', mark] ∧ unescape mark = some c) ∨
      escape c = [c] ∧ c ∉ special := by
  unfold escape
  split
  · exact .inl ⟨'"', rfl, rfl⟩
  · exact .inl ⟨'\\', rfl, rfl⟩
  · exact .inl ⟨'n', rfl, rfl⟩
  · exact .inl ⟨'t', rfl, rfl⟩
  · next hquote hslash hfeed htab =>
      refine .inr ⟨rfl, ?_⟩
      simp only [special, List.mem_cons, List.not_mem_nil, or_false, not_or]
      exact ⟨hquote, hslash, hfeed, htab⟩

/-- A mark stands for one character, which is escaped by it. -/
theorem escape_of_unescape {mark c : Char} (h : unescape mark = some c) :
    escape c = ['\\', mark] := by
  unfold unescape at h
  split at h <;> cases h <;> rfl

theorem escape_of_notMem {c : Char} (h : c ∉ special) : escape c = [c] := by
  obtain ⟨mark, -, hmark⟩ | ⟨hescape, -⟩ := escape_cases c
  · refine absurd ?_ h
    unfold unescape at hmark
    split at hmark <;> cases hmark <;> decide
  · exact hescape

/-- In an escape there are backslashes, marks, and characters that stand for themselves. -/
theorem mem_escape {c d : Char} (h : d ∈ escape c) :
    d = '\\' ∨ (unescape d).isSome = true ∨ d ∉ special := by
  obtain ⟨mark, hescape, hmark⟩ | ⟨hescape, hc⟩ := escape_cases c
  · rw [hescape] at h
    obtain rfl | h := List.mem_cons.mp h
    · exact .inl rfl
    · obtain rfl := List.mem_singleton.mp h
      exact .inr (.inl (Option.isSome_of_mem hmark))
  · rw [hescape] at h
    obtain rfl := List.mem_singleton.mp h
    exact .inr (.inr hc)

theorem lineFeed_notMem_escape (c : Char) : '\n' ∉ escape c :=
  fun h => absurd (mem_escape h) (by decide)

theorem tab_notMem_escape (c : Char) : '\t' ∉ escape c :=
  fun h => absurd (mem_escape h) (by decide)

theorem toList_quote (text : String) :
    (quote text).toList = '"' :: (text.toList.flatMap escape ++ ['"']) := by
  rw [quote, String.toList_ofList]
  rfl

/-! ### Reading what was written, and nothing else -/

/-- A character that is not special is read as itself. -/
theorem readInside_cons {c : Char} (h : c ∉ special) (back : List Char) :
    readInside (c :: back) = (readInside back).map fun found => (c :: found.1, found.2) := by
  rw [readInside, if_neg h]
  · cases readInside back <;> rfl
  · rintro rfl
    exact h (by decide)
  · rintro mark rest rfl
    exact absurd (by decide) h

/-- A backslash is read with its mark. -/
theorem readInside_slash {mark c : Char} (h : unescape mark = some c) (back : List Char) :
    readInside ('\\' :: mark :: back) =
      (readInside back).map fun found => (c :: found.1, found.2) := by
  rw [readInside, h]
  cases readInside back <;> rfl

theorem readInside_escape (c : Char) (back : List Char) :
    readInside (escape c ++ back) =
      (readInside back).map fun found => (c :: found.1, found.2) := by
  obtain ⟨mark, hescape, hmark⟩ | ⟨hescape, hc⟩ := escape_cases c
  · rw [hescape]
    exact readInside_slash hmark back
  · rw [hescape]
    exact readInside_cons hc back

theorem readInside_flatMap_escape (text back : List Char) :
    readInside (text.flatMap escape ++ '"' :: back) = some (text, back) := by
  induction text with
  | nil => rfl
  | cons c text ih => rw [List.flatMap_cons, List.append_assoc, readInside_escape, ih]; rfl

theorem eq_of_readInside {source text back : List Char}
    (h : readInside source = some (text, back)) :
    source = text.flatMap escape ++ '"' :: back := by
  fun_induction readInside source generalizing text with
  | case1 => cases h
  | case2 rest =>
      cases h
      rfl
  | case3 mark rest ih =>
      simp only [Option.bind_eq_bind, Option.bind_eq_some_iff] at h
      obtain ⟨c, hmark, ⟨found, after⟩, hread, hsome⟩ := h
      cases hsome
      rw [ih hread, List.flatMap_cons, escape_of_unescape hmark]
      rfl
  | case4 c rest => cases h
  | case5 c rest _ _ hc ih =>
      simp only [Option.bind_eq_bind, Option.bind_eq_some_iff] at h
      obtain ⟨⟨found, after⟩, hread, hsome⟩ := h
      cases hsome
      rw [ih hread, List.flatMap_cons, escape_of_notMem hc]
      rfl

/-- A source begins with a text in quotes if it is that text quoted, and what follows. -/
theorem unquote_eq_some_iff {source back : List Char} {text : String} :
    unquote source = some (text, back) ↔ source = (quote text).toList ++ back := by
  rw [toList_quote, List.cons_append, List.append_assoc, List.singleton_append]
  constructor
  · intro h
    unfold unquote at h
    split at h
    · simp only [Option.bind_eq_bind, Option.bind_eq_some_iff] at h
      obtain ⟨⟨found, after⟩, hread, hsome⟩ := h
      cases hsome
      rw [eq_of_readInside hread, String.toList_ofList]
    · cases h
  · rintro rfl
    rw [unquote, readInside_flatMap_escape]
    simp

/-- Two quoted texts with something after them are told apart at the closing quote. -/
theorem eq_of_quote_append_eq {text text' : String} {back back' : List Char}
    (h : (quote text).toList ++ back = (quote text').toList ++ back') :
    text = text' ∧ back = back' := by
  have hread := unquote_eq_some_iff.mpr h
  rw [unquote_eq_some_iff.mpr rfl] at hread
  cases hread
  exact ⟨rfl, rfl⟩

/-- Nothing shorter than a quoted text is read. -/
theorem unquote_eq_none {text : String} {front back : List Char}
    (h : (quote text).toList = front ++ back) (hback : back ≠ []) : unquote front = none := by
  rw [Option.eq_none_iff_forall_ne_some]
  rintro ⟨found, rest⟩ hread
  rw [unquote_eq_some_iff.mp hread, List.append_assoc] at h
  obtain ⟨-, hrest⟩ := eq_of_quote_append_eq ((List.append_nil _).trans h)
  exact hback (List.append_eq_nil_iff.mp hrest.symm).2

/-! ### The parity of backslashes -/

@[simp]
theorem slashesBefore_nil : slashesBefore [] = 0 := rfl

theorem slashesBefore_concat (front : List Char) (c : Char) :
    slashesBefore (front ++ [c]) = if c = '\\' then slashesBefore front + 1 else 0 := by
  rw [slashesBefore, List.reverse_concat, List.takeWhile_cons]
  by_cases h : c = '\\'
  · simp [h, slashesBefore]
  · simp [h]

/-- What comes first does not count if it leaves no backslash without its mark. -/
theorem even_slashesBefore_append {first : List Char} (h : Even (slashesBefore first))
    (front : List Char) :
    Even (slashesBefore (first ++ front)) ↔ Even (slashesBefore front) := by
  induction front using List.reverseRecOn with
  | nil => simp [h]
  | append_singleton front c ih =>
      rw [← List.append_assoc, slashesBefore_concat, slashesBefore_concat]
      split
      · rw [Nat.even_add_one, Nat.even_add_one, ih]
      · rfl

theorem even_slashesBefore_escape (c : Char) : Even (slashesBefore (escape c)) := by
  obtain ⟨mark, hescape, -⟩ | ⟨hescape, hc⟩ := escape_cases c
  · rw [hescape]
    by_cases hslash : mark = '\\'
    · subst hslash
      decide
    · have hzero : slashesBefore ['\\', mark] = 0 := by
        have hconcat := slashesBefore_concat ['\\'] mark
        rwa [if_neg hslash] at hconcat
      rw [hzero]
      exact Even.zero
  · have hslash : '\\' ≠ c := ne_of_mem_of_not_mem (by decide) hc
    have hzero := slashesBefore_concat [] c
    rw [List.nil_append, if_neg hslash.symm] at hzero
    rw [hescape, hzero]
    exact Even.zero

/-- In a quoted text there are marks, characters that stand for themselves, and backslashes
with their marks. -/
theorem inside_cases {text front back : List Char} {c : Char}
    (h : text.flatMap escape = front ++ c :: back) :
    Odd (slashesBefore front) ∨ c ∉ special ∨
      c = '\\' ∧ ∃ mark rest, back = mark :: rest ∧ (unescape mark).isSome = true := by
  induction text generalizing front with
  | nil => cases front <;> cases h
  | cons first text ih =>
      have hlater {later : List Char} (hfront : front = escape first ++ later) :
          Odd (slashesBefore front) ∨ c ∉ special ∨
            c = '\\' ∧ ∃ mark rest, back = mark :: rest ∧ (unescape mark).isSome = true := by
        subst hfront
        rw [List.flatMap_cons, List.append_assoc] at h
        have heven := even_slashesBefore_append (even_slashesBefore_escape first) later
        rw [← Nat.not_even_iff_odd, heven, Nat.not_even_iff_odd]
        exact ih (List.append_cancel_left h)
      obtain ⟨mark, hescape, hmark⟩ | ⟨hescape, hfirst⟩ := escape_cases first
      · rw [List.flatMap_cons, hescape] at h
        rw [hescape] at hlater
        match front, h with
        | [], h =>
            obtain ⟨rfl, rfl⟩ := List.cons.inj h
            exact .inr (.inr ⟨rfl, mark, _, rfl, Option.isSome_of_mem hmark⟩)
        | [slash], h =>
            obtain ⟨rfl, -⟩ := List.cons.inj h
            exact .inl (by decide)
        | slash :: other :: later, h =>
            obtain ⟨rfl, hothers⟩ := List.cons.inj h
            obtain ⟨rfl, -⟩ := List.cons.inj hothers
            exact hlater rfl
      · rw [List.flatMap_cons, hescape] at h
        rw [hescape] at hlater
        match front, h with
        | [], h =>
            obtain ⟨rfl, -⟩ := List.cons.inj h
            exact .inr (.inl hfirst)
        | other :: later, h =>
            obtain ⟨rfl, -⟩ := List.cons.inj h
            exact hlater rfl

theorem isInside_flatMap_escape (text : List Char) : IsInside (text.flatMap escape) where
  no_lineFeed := by
    rw [List.mem_flatMap]
    rintro ⟨c, -, hc⟩
    exact lineFeed_notMem_escape c hc
  no_tab := by
    rw [List.mem_flatMap]
    rintro ⟨c, -, hc⟩
    exact tab_notMem_escape c hc
  quote_escaped front back h := by
    obtain hodd | hplain | ⟨hslash, -⟩ := inside_cases h
    · exact hodd
    · exact absurd (by decide) hplain
    · cases hslash
  slash_escapes front back h heven := by
    obtain hodd | hplain | ⟨-, hmark⟩ := inside_cases h
    · exact absurd heven (Nat.not_even_iff_odd.mpr hodd)
    · exact absurd (by decide) hplain
    · exact hmark

/-- **Quoting keeps a text.**  A quoted text stands between two quotes, and between them
there is no line feed, no tab, no quote that is not escaped, and no backslash that does not
begin an escape.  Read from left to right in front of anything, it gives back the text and
stops right behind its closing quote; nothing shorter than it can be read.  So quoting is
injective, and no quoted text runs into what follows it. -/
theorem quote_survives (text : String) :
    (∃ inside, (quote text).toList = '"' :: (inside ++ ['"']) ∧ IsInside inside) ∧
      (∀ source back, unquote source = some (text, back) ↔
        source = (quote text).toList ++ back) ∧
      (∀ front back, (quote text).toList = front ++ back → back ≠ [] → unquote front = none) ∧
      (∀ text' back back', (quote text).toList ++ back = (quote text').toList ++ back' →
        text = text' ∧ back = back') ∧
      Function.Injective quote := by
  refine ⟨⟨_, toList_quote text, isInside_flatMap_escape _⟩, fun _ _ => unquote_eq_some_iff,
    fun _ _ => unquote_eq_none, fun _ _ _ => eq_of_quote_append_eq, ?_⟩
  intro left right h
  have happend : (quote left).toList ++ [] = (quote right).toList ++ [] := by rw [h]
  exact (eq_of_quote_append_eq happend).1

/-- Backslashes and quotes in a row, before a letter that is also a mark. -/
example :
    quote "\\\"n\\" = "\"\\\\\\\"n\\\\\"" ∧
      unquote "\"\\\\\\\"n\\\\\" # x".toList = some ("\\\"n\\", " # x".toList) := by
  decide

end MiniPascal.Text
