import UnitLint.Catalog.Basic
import UnitLint.Json.Parser

/-! # Reading catalogs

A catalog is written as a JSON object of groups, each an object of keys. A key has a lookup mode and
may be marked as repeatable: by the members `lookupMode` and `multiple` of an object, which may have
other members besides, or by the first and second item of an array. A mode is its name, or an object
with its name as only member and null in it. Groups and keys are sorted by name, and the last of two
equal names counts. -/

namespace UnitLint.Catalog

/-- A JSON value as it was read. -/
abbrev Document : Type := Json (Option String)

/-- The members with one more, in the order of names; a member of the same name is replaced. -/
def putMember {α : Type} (name : String) (value : α) : List (String × α) → List (String × α)
  | [] => [(name, value)]
  | m :: ms =>
    if name == m.1 then (name, value) :: ms
    else if name < m.1 then (name, value) :: m :: ms
    else m :: putMember name value ms

/-- The members in the order of names; the last of two equal names counts. -/
def sortMembers {α : Type} (members : List (String × α)) : List (String × α) :=
  members.foldl (fun sorted m => putMember m.1 m.2 sorted) []

/-- Reads a member whose name is a text. -/
def readMember? {α : Type} (read? : Document → Option α) (m : Option String × Document) :
    Option (String × α) := do
  return (← m.1, ← read? m.2)

/-- Reads every member of an object, sorted by name. -/
def readMembers? {α : Type} (read? : Document → Option α) : Document → Option (List (String × α))
  | .object members => (members.mapM (readMember? read?)).map sortMembers
  | _ => none

/-- Reads a lookup mode. -/
def readMode? : Document → Option LookupMode
  | .string (some name) => LookupMode.ofName? name
  | .object [(some name, .null)] => LookupMode.ofName? name
  | _ => none

/-- Reads a boolean. -/
def readBool? : Document → Option Bool
  | .bool b => some b
  | _ => none

/-- The values of the members of a name. -/
def membersOf (name : String) (members : List (Option String × Document)) : List Document :=
  (members.filter (·.1 == some name)).map (·.2)

/-- Reads a member that may be missing and is then `false`. -/
def readMultiple? : List Document → Option Bool
  | [] => some false
  | [value] => readBool? value
  | _ => none

/-- Reads the mode of a key and whether it may be repeated. -/
def readKey? : Document → Option (LookupMode × Bool)
  | .object members =>
    match members.all (·.1.isSome), membersOf "lookupMode" members with
    | true, [mode] => do return (← readMode? mode, ← readMultiple? (membersOf "multiple" members))
    | _, _ => none
  | .array (mode :: multiple) => do return (← readMode? mode, ← readMultiple? multiple)
  | _ => none

/-- The fields of groups that were read. -/
def fieldsOf (groups : List (String × List (String × LookupMode × Bool))) : List Field :=
  groups.flatMap fun (group, keys) =>
    keys.map fun (key, mode, multiple) => ⟨group, key, mode, multiple⟩

/-- The catalog that a text describes. -/
def ofJson (text : String) : Except CatalogError Catalog :=
  match (Json.parse? text.toList).bind (readMembers? (readMembers? readKey?)) with
  | some groups => .ok (ofFields (fieldsOf groups))
  | none => .error .json

end UnitLint.Catalog
