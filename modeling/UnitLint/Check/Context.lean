import UnitLint.UnitFile.Basic

/-! # Contexts

What a check may know of the run that it is part of: whether references are checked, and which units
were read. Units are referred to by file name alone. -/

namespace UnitLint

/-- The units of a run, and whether references to units are checked. -/
structure Context where
  checkReferences : Bool
  units : List UnitFile
  deriving DecidableEq, Repr

namespace Context

/-- The file names of the units. -/
def fileNames (c : Context) : List String := c.units.map (·.fileName)

/-- Whether some unit has the file name. -/
def hasUnit (c : Context) (name : String) : Bool := c.fileNames.contains name

end Context

end UnitLint
