import SchemaEvolution.Text.CharRange

/-!
# Blank characters

A character is blank when it has the Unicode property `White_Space`. Trimming takes blanks, and
nothing else, off the ends of a text.
-/

namespace SchemaEvolution.Text

/-- The ranges of the property `White_Space`. -/
def blankRanges : List CharRange :=
  [⟨0x9, 0xD⟩, ⟨0x20, 0x20⟩, ⟨0x85, 0x85⟩, ⟨0xA0, 0xA0⟩, ⟨0x1680, 0x1680⟩, ⟨0x2000, 0x200A⟩,
    ⟨0x2028, 0x2029⟩, ⟨0x202F, 0x202F⟩, ⟨0x205F, 0x205F⟩, ⟨0x3000, 0x3000⟩]

/-- Whether a character is blank. -/
def isBlank (c : Char) : Bool := CharRange.covers blankRanges c

/-- Every blank of ASCII that a character class of the core library knows is blank. -/
theorem isBlank_of_isWhitespace {c : Char} (h : c.isWhitespace = true) : isBlank c = true := by
  simp only [Char.isWhitespace, Bool.or_eq_true, decide_eq_true_eq] at h
  rcases h with ((h | h) | h) | h <;> subst h <;> decide

/-- Takes the blanks off the front. -/
def trimStart (cs : List Char) : List Char := cs.dropWhile isBlank

/-- Takes the blanks off the back. -/
def trimEnd (cs : List Char) : List Char := (trimStart cs.reverse).reverse

/-- Takes the blanks off both ends. -/
def trim (cs : List Char) : List Char := trimEnd (trimStart cs)

end SchemaEvolution.Text
