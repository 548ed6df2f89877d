import UnitLint.Check.Rule

/-! # Validators

A validator checks the group that belongs to one unit type: it knows the fields that a catalog has
for that group, and the rules attached to each. Its findings are sorted by their places; findings at
one place stay in the order in which they are made. -/

namespace UnitLint

/-- A field and the rules attached to it, in order. -/
structure FieldRules where
  field : Field
  rules : List (Rule Field)
  deriving DecidableEq, Repr

/-- A validator for the group of a unit type. -/
structure Validator where
  name : String
  unitType : UnitType
  fields : List FieldRules
  deriving DecidableEq, Repr

namespace Validator

/-- The group that a validator checks. -/
def group (v : Validator) : String := v.unitType.group

/-- The validator that knows the fields of the catalog for the group, and has no rules yet. -/
def ofCatalog (name : String) (unitType : UnitType) (catalog : Catalog) : Validator :=
  ⟨name, unitType, (catalog.groupFields unitType.group).map fun f => ⟨f, []⟩⟩

/-- The fields with rules added to the first one of the key. -/
def addRules (key : String) (rules : List (Rule Field)) : List FieldRules → List FieldRules
  | [] => []
  | f :: fs =>
    if f.field.key == key then { f with rules := f.rules ++ rules } :: fs
    else f :: addRules key rules fs

/-- Whether a validator knows a key. -/
def knows (v : Validator) (key : String) : Bool := v.fields.any (·.field.key == key)

/-- Adds rules to the field of a key, which the validator must know. -/
def attach (key : String) (rules : List (Rule Field)) (v : Validator) :
    Except CatalogError Validator :=
  if v.knows key then .ok { v with fields := addRules key rules v.fields }
  else .error (.unknownField v.group key)

/-! ### Validating -/

/-- A finding for each entry of the group whose key the validator does not know. -/
def unknownKeys (v : Validator) (u : UnitFile) : List Finding :=
  match u.group? v.group with
  | none => []
  | some g =>
    (g.entries.filter fun e => !v.knows e.key).map fun e =>
      ⟨v.name, .unknownKey, e.location,
        "unsupported key '" ++ e.key ++ "' in group " ++ v.group⟩

/-- A finding for a value that cannot be split. -/
def issueFinding (c : Check) (issue : SplitIssue) : Finding :=
  c.finding .invalidValue issue.location
    ("invalid value for key " ++ c.field.key ++ ": " ++ issue.error.message)

/-- The findings about a field: those about splitting, and then those of its rules. -/
def fieldFindings (v : Validator) (context : Context) (u : UnitFile) (f : FieldRules) :
    Except ScalarError (List Finding) :=
  if f.rules.isEmpty && !u.hasKey v.group f.field.key then .ok []
  else
    let r := lookup u f.field
    let c : Check := ⟨context, u, f.field, v.name⟩
    do
      let found ← f.rules.mapM (Rule.findings c r)
      return r.issues.map (issueFinding c) ++ found.flatten

/-- The findings about a unit file in the order in which they are made. -/
def collect (v : Validator) (context : Context) (u : UnitFile) :
    Except ScalarError (List Finding) := do
  let found ← v.fields.mapM (v.fieldFindings context u)
  return v.unknownKeys u ++ found.flatten

/-- The findings about a unit file, sorted by place. -/
def validate (v : Validator) (context : Context) (u : UnitFile) :
    Except ScalarError (List Finding) := do
  let found ← v.collect context u
  return found.mergeSort fun a b => a.location.before b.location

end Validator

end UnitLint
