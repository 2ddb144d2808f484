/-!
# Blank characters

The characters with the Unicode property White_Space, as a table of code
point ranges. Two rules use it: a value is empty when every character of it
is blank (`Text.isBlank`), and a comma is forgiven when only blank characters
stand between it and a closing bracket.

`isBlank_of_isWhitespace` says that the table extends the ASCII class of the
core library.
-/

namespace DocPlan.Text

/-- The code point ranges of the property White_Space, ends included. -/
def blankRanges : List (Nat × Nat) :=
  [(0x9, 0xD), (0x20, 0x20), (0x85, 0x85), (0xA0, 0xA0), (0x1680, 0x1680),
   (0x2000, 0x200A), (0x2028, 0x2029), (0x202F, 0x202F), (0x205F, 0x205F),
   (0x3000, 0x3000)]

/-- Whether a character has the property White_Space. -/
def isBlankChar (c : Char) : Bool :=
  blankRanges.any fun range => range.1 ≤ c.toNat && c.toNat ≤ range.2

/-- Whether a text holds nothing but blank characters. -/
def isBlank (text : String) : Bool :=
  text.toList.all isBlankChar

example : isBlank " \t\u3000" = true ∧ isBlank "" = true ∧ isBlank "\u200b" = false := by
  decide

/-- Every character of the core library's class is blank. -/
theorem isBlank_of_isWhitespace (c : Char) (h : c.isWhitespace = true) :
    isBlankChar c = true := by
  simp only [Char.isWhitespace, Bool.or_eq_true, decide_eq_true_eq] at h
  rcases h with ((rfl | rfl) | rfl) | rfl <;> decide

end DocPlan.Text
