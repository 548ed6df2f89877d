import UnitLint.Path

/-! # Unit types

The seven kinds of unit. The extension of a file tells its kind, and so does the extension of a name
by which one unit refers to another. The settings of a kind are in the group named after it. -/

namespace UnitLint

/-- The kinds of unit. -/
inductive UnitType where
  | container
  | volume
  | kube
  | network
  | image
  | build
  | pod
  deriving DecidableEq, Repr

namespace UnitType

/-- Every unit type. -/
def all : List UnitType := [container, volume, kube, network, image, build, pod]

/-- The name of a unit type, which is its extension without the dot. -/
def name : UnitType → String
  | container => "container"
  | volume => "volume"
  | kube => "kube"
  | network => "network"
  | image => "image"
  | build => "build"
  | pod => "pod"

/-- The extension of the files of a unit type, with the dot. -/
def extension (t : UnitType) : String := "." ++ t.name

/-- The name of the group with the settings of a unit type. -/
def group : UnitType → String
  | container => "Container"
  | volume => "Volume"
  | kube => "Kube"
  | network => "Network"
  | image => "Image"
  | build => "Build"
  | pod => "Pod"

/-- The text without one dot at its start. -/
def dropDot : List Char → List Char
  | '.' :: s => s
  | s => s

/-- The unit type of an extension, given with or without its dot. -/
def ofExtension? (ext : List Char) : Option UnitType :=
  all.find? fun t => t.name.toList == dropDot ext

/-- The unit type of a file. -/
def ofPath? (p : Path) : Option UnitType := p.extension?.bind ofExtension?

/-- Whether a reference names a unit of type `t`. -/
def namedBy (reference : List Char) (t : UnitType) : Bool :=
  t.extension.toList.isSuffixOf reference

/-- The unit type that a reference names. -/
def ofReference? (reference : List Char) : Option UnitType := all.find? (namedBy reference)

end UnitType

end UnitLint
