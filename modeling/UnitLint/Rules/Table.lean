import UnitLint.Check.Validator

/-! # Rule tables

A rule table names the keys of one group and the rules for each, with keys for the other fields that
the rules speak of. Binding it to a catalog looks every key up there and gives a validator, or the
first key that the catalog lacks. After the table every boolean and every integer field gets a rule
for its type. -/

namespace UnitLint

/-- The rules for the group of a unit type. -/
structure RuleTable where
  unitType : UnitType
  /-- Keys that are looked up before any rule is bound. -/
  needed : List String
  /-- The rules for each key, in order. -/
  entries : List (String × List (Rule String))
  deriving Repr

namespace RuleTable

/-- Binds the rules of one entry, then attaches them. -/
def attachEntry (find : String → Except CatalogError Field) (v : Validator)
    (entry : String × List (Rule String)) : Except CatalogError Validator := do
  let rules ← entry.2.mapM (Rule.bindFields find)
  v.attach entry.1 rules

/-- The rule that the mode of a field calls for. -/
def typeRule? (f : Field) : Option (Rule Field) :=
  match f.mode with
  | .boolean => some .validBoolean
  | .int => some .validInteger
  | _ => none

/-- The field with the rule that its mode calls for at the end. -/
def withTypeRule (f : FieldRules) : FieldRules :=
  { f with rules := f.rules ++ (typeRule? f.field).toList }

/-- The validator with a rule for the type of every boolean and integer field. -/
def withTypeRules (v : Validator) : Validator := { v with fields := v.fields.map withTypeRule }

/-- The validator of a table over a catalog. -/
def bind (catalog : Catalog) (t : RuleTable) : Except CatalogError Validator := do
  let find := catalog.require t.unitType.group
  let _ ← t.needed.mapM find
  let blank := Validator.ofCatalog t.unitType.name t.unitType catalog
  let bound ← t.entries.foldlM (attachEntry find) blank
  return withTypeRules bound

end RuleTable

end UnitLint
