/-! # Physical lines

A line ends at a line feed, or at a carriage return followed by a line feed. The end mark belongs to
no line; the last line may lack it, and then a carriage return at its end stays. -/

namespace UnitLint.Text

/-- The physical lines of a text. -/
def lines : List Char → List (List Char)
  | [] => []
  | '\n' :: s => [] :: lines s
  | '\r' :: '\n' :: s => [] :: lines s
  | c :: s =>
    match lines s with
    | [] => [[c]]
    | l :: ls => (c :: l) :: ls

theorem lines_eq_nil {s : List Char} : lines s = [] ↔ s = [] := by
  fun_cases lines s <;> simp_all

end UnitLint.Text
