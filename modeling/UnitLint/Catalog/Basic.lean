/-! # Catalogs

A catalog says which keys the groups of unit files have, and how the values of each key are looked
up. It is built from a list of fields: a later field for the same group and key takes the place of
the earlier one, so that a group and key have one field, at the place of their first mention. -/

namespace UnitLint

/-- How the occurrences of a key become its values. -/
inductive LookupMode where
  /-- The last occurrence as written. -/
  | lastRaw
  /-- The last occurrence, spliced. -/
  | last
  /-- The last occurrence, spliced, without one pair of quotes around it. -/
  | base
  /-- As `base`; the value is meant as a boolean. -/
  | boolean
  /-- As `base`, if the value is an integer. -/
  | int
  /-- Every occurrence after the last empty one, as written. -/
  | allRaw
  /-- Every occurrence after the last empty one, spliced. -/
  | all
  /-- The words of those occurrences, with escapes kept. -/
  | allStrv
  /-- The arguments in those occurrences. -/
  | allArgs
  /-- The arguments in the last occurrence. -/
  | lastArgs
  /-- The pairs among the arguments in the occurrences after the last empty one. -/
  | allKeyVal
  deriving DecidableEq, Repr

namespace LookupMode

/-- Every lookup mode. -/
def modes : List LookupMode :=
  [lastRaw, last, base, boolean, int, allRaw, all, allStrv, allArgs, lastArgs, allKeyVal]

/-- The name of a lookup mode. -/
def name : LookupMode → String
  | lastRaw => "LastRaw"
  | last => "Last"
  | base => "Base"
  | boolean => "Boolean"
  | int => "Int"
  | allRaw => "AllRaw"
  | all => "All"
  | allStrv => "AllStrv"
  | allArgs => "AllArgs"
  | lastArgs => "LastArgs"
  | allKeyVal => "AllKeyVal"

/-- The lookup mode of a name. -/
def ofName? (s : String) : Option LookupMode := modes.find? (·.name == s)

end LookupMode

/-- A key of a group, and how it is looked up. -/
structure Field where
  group : String
  key : String
  mode : LookupMode
  /-- Whether the key may be repeated. -/
  multiple : Bool
  deriving DecidableEq, Repr

namespace Field

/-- The field as `group.key`. -/
def text (f : Field) : String := f.group ++ "." ++ f.key

/-- Whether the field is for the group and key. -/
def isFor (group key : String) (f : Field) : Bool := f.group == group && f.key == key

end Field

/-- Why a catalog cannot be used. -/
inductive CatalogError where
  /-- The text is no catalog. -/
  | json
  /-- The catalog lacks a field. -/
  | unknownField (group key : String)
  deriving DecidableEq, Repr

/-- The wording of a catalog error. -/
def CatalogError.message : CatalogError → String
  | json => "invalid catalog JSON"
  | unknownField group key => "catalog has no field " ++ group ++ "." ++ key

/-- A catalog: its fields, no two of which have the same group and key. -/
structure Catalog where
  fields : List Field
  deriving DecidableEq, Repr

namespace Catalog

/-- The fields with `f` in the place of the one for its group and key, or else at the end. -/
def put (f : Field) : List Field → List Field
  | [] => [f]
  | g :: gs => if g.isFor f.group f.key then f :: gs else g :: put f gs

/-- The catalog of a list of fields. -/
def ofFields (fields : List Field) : Catalog := ⟨fields.foldl (fun known f => put f known) []⟩

/-- The field for a group and key. -/
def field? (c : Catalog) (group key : String) : Option Field := c.fields.find? (·.isFor group key)

/-- The field for a group and key, which the catalog must have. -/
def require (c : Catalog) (group key : String) : Except CatalogError Field :=
  match c.field? group key with
  | some f => .ok f
  | none => .error (.unknownField group key)

/-- The groups of the fields, each once, in the order of their first mention. -/
def groups (c : Catalog) : List String := (c.fields.map (·.group)).eraseDups

/-- Whether some field is for the group. -/
def hasGroup (c : Catalog) (group : String) : Bool := c.fields.any (·.group == group)

/-- The fields for a group. -/
def groupFields (c : Catalog) (group : String) : List Field := c.fields.filter (·.group == group)

/-- How many fields there are. -/
def size (c : Catalog) : Nat := c.fields.length

/-- Whether there are no fields. -/
def isEmpty (c : Catalog) : Bool := c.fields.isEmpty

end Catalog

end UnitLint
