import UnitLint.Check.Port
import UnitLint.Lookup.Basic

/-! # Tests of values

What a rule may demand of all the values of a field together. A test that takes a boolean or an
integer view of the field fails where there is none. -/

namespace UnitLint

/-- A test of all the values of a field. -/
inductive ValueTest where
  /-- There is no value. -/
  | absent
  /-- There is a value. -/
  | present
  /-- There is at most one value. -/
  | atMostOne
  /-- The field is set to true. -/
  | isTrue
  /-- The field is not set to true. -/
  | isNotTrue
  /-- The value is an integer above zero. -/
  | positive
  /-- Every value is a port that can be published. -/
  | publishedPorts
  /-- Every value is a port that can be exposed. -/
  | exposedPorts
  deriving DecidableEq, Repr

/-- Whether what a field resolves to passes a test. -/
def ValueTest.passes (r : Resolution) : ValueTest → Except ScalarError Bool
  | absent => .ok (!r.found)
  | present => .ok r.found
  | atMostOne => .ok (r.values.length ≤ 1)
  | isTrue => r.truthy
  | isNotTrue => do return !(← r.truthy)
  | positive => do return 0 < (← r.integer)
  | publishedPorts => .ok (r.values.all fun v => Port.isPublished v.text.toList)
  | exposedPorts => .ok (r.values.all fun v => Port.isExposed v.text.toList)

end UnitLint
