import UnitLint.Lookup.Basic

/-! # Conditions

Conditions on a unit file, and tests on what a field resolves to. Those that take a boolean or an
integer view of a field fail where there is none; a conjunction looks no further than its first
false part. -/

namespace UnitLint

/-- A condition on a unit file, where `φ` is the type of references to fields. -/
inductive Condition (φ : Type) where
  | always
  /-- The field has a value. -/
  | present (field : φ)
  /-- Some value of the field is among the texts. -/
  | equals (field : φ) (texts : List String)
  /-- The field is set to true. -/
  | flag (field : φ)
  /-- The unit file has the group. -/
  | hasGroup (name : String)
  | both (first second : Condition φ)
  | negated (inner : Condition φ)
  deriving DecidableEq, Repr

namespace Condition

/-- The condition that all of the conditions hold. -/
def conjunction {φ : Type} (conditions : List (Condition φ)) : Condition φ :=
  conditions.foldr both always

/-- Whether a condition holds of a unit file. -/
def holds (u : UnitFile) : Condition Field → Except ScalarError Bool
  | always => .ok true
  | present field => .ok (lookup u field).found
  | equals field texts => .ok ((lookup u field).values.any fun v => texts.contains v.text)
  | flag field => (lookup u field).truthy
  | hasGroup name => .ok (u.hasGroup name)
  | both first second => do
    if ← first.holds u then second.holds u else return false
  | negated inner => do return !(← inner.holds u)

/-- The condition with its references replaced by what `bind` finds for them, or the first failure.
-/
def bindFields {φ ψ ε : Type} (bind : φ → Except ε ψ) : Condition φ → Except ε (Condition ψ)
  | always => .ok always
  | present field => do return present (← bind field)
  | equals field texts => do return equals (← bind field) texts
  | flag field => do return flag (← bind field)
  | hasGroup name => .ok (hasGroup name)
  | both first second => do return both (← first.bindFields bind) (← second.bindFields bind)
  | negated inner => do return negated (← inner.bindFields bind)

end Condition

end UnitLint
