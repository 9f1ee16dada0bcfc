/-!
# Blanks

The characters that separate tokens, and that never end a rendered line: those
with the Unicode property `White_Space`.  The table is the whole property, so
a text is treated alike whatever script its blanks come from.
-/

namespace MiniPascal.Text

/-- The code points with the property `White_Space`, as closed ranges. -/
def blankRanges : List (Nat × Nat) :=
  [(0x9, 0xD), (0x20, 0x20), (0x85, 0x85), (0xA0, 0xA0), (0x1680, 0x1680),
    (0x2000, 0x200A), (0x2028, 0x2029), (0x202F, 0x202F), (0x205F, 0x205F),
    (0x3000, 0x3000)]

def isBlank (c : Char) : Bool :=
  blankRanges.any fun range => range.1 ≤ c.toNat && c.toNat ≤ range.2

/-- Every blank of the core library is a blank here. -/
theorem isBlank_of_isWhitespace {c : Char} (h : c.isWhitespace = true) : isBlank c = true := by
  simp only [Char.isWhitespace, Bool.or_eq_true, decide_eq_true_eq] at h
  rcases h with ((rfl | rfl) | rfl) | rfl <;> decide

/-- Drops the blanks at the end. -/
def trimEnd (text : List Char) : List Char :=
  (text.reverse.dropWhile isBlank).reverse

@[simp]
theorem trimEnd_nil : trimEnd [] = [] := rfl

/-- A text that ends in no blank is left as it is. -/
theorem trimEnd_append_singleton {text : List Char} {c : Char} (h : isBlank c = false) :
    trimEnd (text ++ [c]) = text ++ [c] := by
  simp [trimEnd, h]

/-- Fills a text up to a width, counted in characters, with blanks on the right. -/
def padRight (width : Nat) (text : List Char) : List Char :=
  text ++ List.replicate (width - text.length) ' '

/-- The number of line feeds, which is the number of line ends. -/
def lineFeeds (text : List Char) : Nat :=
  text.count '\n'

@[simp]
theorem lineFeeds_append (left right : List Char) :
    lineFeeds (left ++ right) = lineFeeds left + lineFeeds right := by
  simp [lineFeeds]

end MiniPascal.Text
