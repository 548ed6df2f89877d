/-! # Elapsed time

A time is written in the greatest of seconds, milliseconds, microseconds and nanoseconds that it is
at least one of, with a fraction without zeros at its end. -/

namespace UnitLint.Cli

/-- A count of the last of `places` decimals, with its unit. -/
def decimalText (count places : Nat) (unit : String) : String :=
  let scale := Nat.pow 10 places
  let fraction := Nat.toDigits 10 (count % scale + scale)
  let kept := (fraction.tail.reverse.dropWhile (· == '0')).reverse
  toString (count / scale) ++ (if kept.isEmpty then "" else "." ++ String.ofList kept) ++ unit

/-- The text of a time in nanoseconds. -/
def elapsedText (nanoseconds : Nat) : String :=
  if 1000000000 ≤ nanoseconds then decimalText nanoseconds 9 "s"
  else if 1000000 ≤ nanoseconds then decimalText nanoseconds 6 "ms"
  else if 1000 ≤ nanoseconds then decimalText nanoseconds 3 "µs"
  else decimalText nanoseconds 0 "ns"

end UnitLint.Cli
