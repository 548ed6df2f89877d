/-! # Blank and control characters

A character is blank when it has the Unicode property White_Space, which 25 characters have. Text is
trimmed of blanks at its start, at its end, or at both. -/

namespace UnitLint.Text

/-- Whether `c` has the Unicode property White_Space. -/
def isBlank (c : Char) : Bool :=
  let n := c.toNat
  (9 ≤ n && n ≤ 13) || n == 0x20 || n == 0x85 || n == 0xA0 || n == 0x1680 ||
    (0x2000 ≤ n && n ≤ 0x200A) || n == 0x2028 || n == 0x2029 || n == 0x202F || n == 0x205F ||
    n == 0x3000

/-- The four ASCII blanks that separate words are blank. -/
theorem isBlank_of_isWhitespace {c : Char} (h : c.isWhitespace = true) : isBlank c = true := by
  rcases c with ⟨v, hv⟩
  simp only [Char.isWhitespace, Bool.or_eq_true, decide_eq_true_eq] at h
  rcases h with ((h | h) | h) | h <;> rw [h] <;> rfl

/-- Whether `c` is a control character: the general category Cc. -/
def isControl (c : Char) : Bool :=
  let n := c.toNat
  n ≤ 0x1F || (0x7F ≤ n && n ≤ 0x9F)

/-- The text without the blanks at its start. -/
def trimStart (s : List Char) : List Char := s.dropWhile isBlank

/-- The text without the blanks at its end. -/
def trimEnd (s : List Char) : List Char := (s.reverse.dropWhile isBlank).reverse

/-- The text without the blanks at either end. -/
def trim (s : List Char) : List Char := trimEnd (trimStart s)

/-- How many blanks the text starts with. -/
def indent (s : List Char) : Nat := (s.takeWhile isBlank).length

/-- Nothing is lost at the start but the indentation. -/
theorem indent_add_length_trimStart (s : List Char) :
    indent s + (trimStart s).length = s.length := by
  rw [indent, trimStart, ← List.length_append, List.takeWhile_append_dropWhile]

end UnitLint.Text
