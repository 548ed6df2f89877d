/-! # Digits and numbers

Digits are the ASCII digits and letters, in either case, and stand for the values below the radix.
-/

namespace UnitLint.Text

/-- The value of `c` as a digit of the radix, which is at most 16. -/
def digit? (radix : Nat) (c : Char) : Option Nat :=
  let value :=
    if '0' ≤ c && c ≤ '9' then some (c.toNat - '0'.toNat)
    else if 'a' ≤ c && c ≤ 'f' then some (c.toNat - 'a'.toNat + 10)
    else if 'A' ≤ c && c ≤ 'F' then some (c.toNat - 'A'.toNat + 10)
    else none
  value.filter (· < radix)

/-- The value that digits have after the digits of `value`, or the first character that is no digit.
-/
def digits (radix value : Nat) : List Char → Except Char Nat
  | [] => .ok value
  | c :: s =>
    match digit? radix c with
    | some d => digits radix (value * radix + d) s
    | none => .error c

theorem digit?_lt {radix d : Nat} {c : Char} (h : digit? radix c = some d) : d < radix := by
  obtain ⟨_, hd⟩ := Option.filter_eq_some_iff.mp h
  exact of_decide_eq_true hd

end UnitLint.Text
