import UnitLint.Location

/-! # Findings

A finding says what is wrong with a unit file whose syntax is right. Its category fixes its
severity. -/

namespace UnitLint

/-- How grave a finding is. -/
inductive Severity where
  | warning
  | error
  deriving DecidableEq, Repr

/-- The name of a severity. -/
def Severity.name : Severity → String
  | warning => "warning"
  | error => "error"

/-- What a finding is about. -/
inductive Category where
  | unknownKey
  | requiredKey
  | keyConflict
  | invalidValue
  | deprecatedKey
  | unsatisfiedDependency
  | invalidReference
  | ambiguousImageName
  deriving DecidableEq, Repr

namespace Category

/-- Every category. -/
def all : List Category :=
  [unknownKey, requiredKey, keyConflict, invalidValue, deprecatedKey, unsatisfiedDependency,
   invalidReference, ambiguousImageName]

/-- The name of a category. -/
def name : Category → String
  | unknownKey => "unknown-key"
  | requiredKey => "required-key"
  | keyConflict => "key-conflict"
  | invalidValue => "invalid-value"
  | deprecatedKey => "deprecated-key"
  | unsatisfiedDependency => "unsatisfied-dependency"
  | invalidReference => "invalid-reference"
  | ambiguousImageName => "ambiguous-image-name"

/-- An ambiguous image name is a warning; all else is an error. -/
def severity : Category → Severity
  | ambiguousImageName => .warning
  | _ => .error

end Category

/-- A finding, with the name of the validator that made it. -/
structure Finding where
  validator : String
  category : Category
  location : Location
  message : String
  deriving DecidableEq, Repr

namespace Finding

/-- The severity of a finding. -/
def severity (f : Finding) : Severity := f.category.severity

/-- The wording of a finding, with its place. -/
def text (f : Finding) : String :=
  f.location.text ++ ": " ++ f.severity.name ++ "[" ++ f.category.name ++ "] " ++ f.message

end Finding

end UnitLint
