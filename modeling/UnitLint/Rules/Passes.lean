import UnitLint.Rules.Builtin

/-! # Binding in two passes

Binding gives the boolean and integer fields the rules for their types, field by field
(`RuleTable.withTypeRules`). It can also be done with attachments alone: the first pass attaches the
rules of the table, the second lists the boolean and integer fields and attaches a rule to the key of
each. -/

namespace UnitLint.RuleTable

/-- The validator with the rules of the table alone. -/
def bindEntries (catalog : Catalog) (t : RuleTable) : Except CatalogError Validator := do
  let find := catalog.require t.unitType.group
  let _ ← t.needed.mapM find
  t.entries.foldlM (attachEntry find) (Validator.ofCatalog t.unitType.name t.unitType catalog)

/-- The keys of the boolean and integer fields, each with the rule for its type. -/
def typeAttachments (v : Validator) : List (String × List (Rule Field)) :=
  v.fields.filterMap fun f => (typeRule? f.field).map fun r => (f.field.key, [r])

/-- Attaches the rules for types, one after another. -/
def attachTypeRules (v : Validator) : Except CatalogError Validator :=
  (typeAttachments v).foldlM (fun v a => v.attach a.1 a.2) v

/-- The validator of a table over a catalog, by attachments alone. -/
def bindInPasses (catalog : Catalog) (t : RuleTable) : Except CatalogError Validator := do
  attachTypeRules (← bindEntries catalog t)

end UnitLint.RuleTable
