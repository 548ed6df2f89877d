import UnitLint.Text.Digit

/-! # Integers

An integer may have one sign. It is hexadecimal after `0x` or `0X`, octal after a leading zero that
is not alone, and decimal otherwise. The whole text counts, and the magnitude stays below 2 to the
63rd. -/

namespace UnitLint.Text

/-- One more than the greatest magnitude of an integer. -/
def magnitudeBound : Nat := 0x8000000000000000

/-- The radix that the text after the sign announces, and the digits after the announcement. -/
def radixOf : List Char → Nat × List Char
  | '0' :: 'x' :: s => (16, s)
  | '0' :: 'X' :: s => (16, s)
  | '0' :: c :: s => (8, c :: s)
  | s => (10, s)

/-- The magnitude that the text after the sign stands for. -/
def magnitude? (s : List Char) : Option Nat :=
  let (radix, ds) := radixOf s
  if ds.isEmpty then none
  else
    match digits radix 0 ds with
    | .ok n => if n < magnitudeBound then some n else none
    | .error _ => none

/-- The integer that the whole text stands for. -/
def integer? : List Char → Option Int
  | '-' :: s => (magnitude? s).map fun n => -(n : Int)
  | '+' :: s => (magnitude? s).map fun n => (n : Int)
  | s => (magnitude? s).map fun n => (n : Int)

end UnitLint.Text
