import UnitLint.Location
import UnitLint.Text.Blank
import UnitLint.UnitType

/-! # Unit files

A unit file is a list of groups with pairwise different names, each with its entries in file order.
The value of an entry is kept as it was written, with the place of its first character; a value that
is continued over several lines keeps the backslash and the line feed between them. -/

namespace UnitLint

/-- A value as written in the file, under the key that it belongs to. -/
structure Value where
  key : String
  text : String
  location : Location
  deriving DecidableEq, Repr

/-- A key with its value. -/
structure Entry where
  key : String
  keyColumn : Nat
  value : Value
  deriving DecidableEq, Repr

/-- The place of the key. -/
def Entry.location (e : Entry) : Location := ⟨e.value.location.line, e.keyColumn⟩

/-- A group: its name, the line of its first header, and its entries. -/
structure Group where
  name : String
  line : Nat
  entries : List Entry
  deriving DecidableEq, Repr

namespace Group

/-- The place of the first header of the group. -/
def location (g : Group) : Location := ⟨g.line, 0⟩

/-- Every entry of a key, in file order. -/
def entriesOf (g : Group) (key : String) : List Entry := g.entries.filter (·.key == key)

/-- Every value of a key, in file order. -/
def valuesOf (g : Group) (key : String) : List Value := (g.entriesOf key).map (·.value)

end Group

/-- A unit file. -/
structure UnitFile where
  path : Path
  groups : List Group
  deriving DecidableEq, Repr

namespace UnitFile

/-- The name by which other units refer to the file. -/
def fileName (u : UnitFile) : String := u.path.fileName

/-- The unit type, which the extension of the path tells. -/
def unitType? (u : UnitFile) : Option UnitType := UnitType.ofPath? u.path

/-- The group of a name. -/
def group? (u : UnitFile) (name : String) : Option Group := u.groups.find? (·.name == name)

/-- Whether there is a group of the name. -/
def hasGroup (u : UnitFile) (name : String) : Bool := (u.group? name).isSome

/-- Every value of a key in a group, in file order. -/
def valuesOf (u : UnitFile) (group key : String) : List Value :=
  match u.group? group with
  | none => []
  | some g => g.valuesOf key

/-- Whether a key occurs in a group. -/
def hasKey (u : UnitFile) (group key : String) : Bool := !(u.valuesOf group key).isEmpty

/-- Whether the last value of a key in a group is more than blanks. -/
def hasValue (u : UnitFile) (group key : String) : Bool :=
  match (u.valuesOf group key).getLast? with
  | none => false
  | some v => !(Text.trim v.text.toList).isEmpty

end UnitFile

end UnitLint
