/-! # Locations

A position in a unit file: lines count from 1, columns from 0, both in characters. Line 0 stands for
the file as a whole, as when a group is missing. Locations are ordered by line, then by column. -/

namespace UnitLint

/-- A line, counted from 1, and a column, counted from 0. -/
structure Location where
  line : Nat
  column : Nat
  deriving DecidableEq, Repr, Inhabited

namespace Location

/-- The place of a finding about the whole file. -/
def wholeFile : Location := ⟨0, 0⟩

/-- The location as `line:column`. -/
def text (l : Location) : String := toString l.line ++ ":" ++ toString l.column

/-- Whether `a` comes no later than `b`. -/
def before (a b : Location) : Bool :=
  a.line < b.line || (a.line == b.line && a.column ≤ b.column)

theorem before_refl (a : Location) : before a a = true := by simp [before]

theorem before_trans {a b c : Location} (h : before a b = true) (h' : before b c = true) :
    before a c = true := by
  simp only [before, Bool.or_eq_true, Bool.and_eq_true, decide_eq_true_eq, beq_iff_eq] at *
  omega

theorem before_total (a b : Location) : (before a b || before b a) = true := by
  simp only [before, Bool.or_eq_true, Bool.and_eq_true, decide_eq_true_eq, beq_iff_eq]
  omega

end Location

end UnitLint
