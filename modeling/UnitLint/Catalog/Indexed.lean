import Std.Data.HashMap
import UnitLint.Catalog.Basic

/-! # Catalogs with an index

A catalog that looks fields up: it keeps the groups in a list, and for each group it knows the
positions of the fields by their keys. A position beyond the last field is an access that fails. -/

namespace UnitLint

/-- The fields of a catalog, its groups, and the position of each field. -/
structure IndexedCatalog where
  fields : List Field
  groups : List String
  /-- The position of the field of a group and key. -/
  index : Std.HashMap String (Std.HashMap String Nat)

namespace IndexedCatalog

/-- The catalog without fields. -/
def empty : IndexedCatalog := ⟨[], [], ∅⟩

/-- The position that the index has for a group and key. -/
def position? (c : IndexedCatalog) (group key : String) : Option Nat :=
  c.index[group]?.bind (·[key]?)

/-- Puts a field in the place of the one for its group and key, or else at the end. -/
def put (c : IndexedCatalog) (f : Field) : Option IndexedCatalog :=
  let groups := if c.index.contains f.group then c.groups else c.groups ++ [f.group]
  let keys := c.index.getD f.group ∅
  match keys[f.key]? with
  | some i =>
    if i < c.fields.length then
      some ⟨c.fields.set i f, groups, c.index.insert f.group keys⟩
    else none
  | none =>
    some ⟨c.fields ++ [f], groups, c.index.insert f.group (keys.insert f.key c.fields.length)⟩

/-- The catalog of a list of fields. -/
def ofFields (fields : List Field) : Option IndexedCatalog := fields.foldlM put empty

/-- The field for a group and key, at the position that the index has for them. -/
def field? (c : IndexedCatalog) (group key : String) : Option Field :=
  (c.position? group key).bind (c.fields[·]?)

/-- Whether the index has the group. -/
def hasGroup (c : IndexedCatalog) (group : String) : Bool := c.index.contains group

/-- The fields for a group. -/
def groupFields (c : IndexedCatalog) (group : String) : List Field :=
  c.fields.filter (·.group == group)

/-- How many fields there are. -/
def size (c : IndexedCatalog) : Nat := c.fields.length

end IndexedCatalog

end UnitLint
