/-! # Paths

A path is a text whose names are separated by slashes. Repeated slashes, slashes at the end and
single dots do not count, except a single dot at the very start. Paths are compared by what is left:
the root comes before `.`, `.` before `..`, and `..` before names, which are in the order of their
characters. -/

namespace UnitLint

/-- A path, as it was written. -/
structure Path where
  text : String
  deriving DecidableEq, Repr

namespace Path

/-- A part of a path that counts. -/
inductive Component where
  | root
  | current
  | parent
  | name (s : List Char)
  deriving DecidableEq, Repr

/-- The component that a text between slashes stands for, if it counts anywhere in a path. -/
def Component.ofPiece? (piece : List Char) : Option Component :=
  if piece.isEmpty || piece == ['.'] then none
  else if piece == ['.', '.'] then some .parent
  else some (.name piece)

/-- The component that a path has before its names and parents: the root, a single dot, or none. -/
def start (pieces : List (List Char)) : List Component :=
  match pieces with
  | [] :: _ :: _ => [.root]
  | ['.'] :: _ => [.current]
  | _ => []

/-- The components of a path. -/
def components (p : Path) : List Component :=
  let pieces := p.text.toList.splitOn '/'
  start pieces ++ pieces.filterMap Component.ofPiece?

/-- The name that the path ends with; a path that ends with a root or dots has none. -/
def fileName? (p : Path) : Option (List Char) :=
  match p.components.getLast? with
  | some (.name s) => some s
  | _ => none

/-- The name that the path ends with, or the empty text. -/
def fileName (p : Path) : String := String.ofList (p.fileName?.getD [])

/-- What follows the last dot of a name, unless only that dot comes first. -/
def extensionOf? (name : List Char) : Option (List Char) :=
  match name.reverse.dropWhile (· != '.') with
  | _ :: _ :: _ => some (name.reverse.takeWhile (· != '.')).reverse
  | _ => none

/-- The extension of the name that the path ends with. -/
def extension? (p : Path) : Option (List Char) := p.fileName?.bind extensionOf?

/-- The path of a name inside a directory. -/
def join (directory : Path) (name : String) : Path :=
  if directory.text.isEmpty || directory.text.toList.getLast? == some '/' then
    ⟨directory.text ++ name⟩
  else ⟨directory.text ++ "/" ++ name⟩

/-! ### Order -/

/-- A component as numbers, whose lexicographic order is the order of components. -/
def Component.key : Component → List Nat
  | root => [0]
  | current => [1]
  | parent => [2]
  | name s => 3 :: s.map Char.toNat

/-- The components of a path as numbers: equal for equal paths, and in the order of paths. -/
def key (p : Path) : List (List Nat) := p.components.map Component.key

/-- Whether `p` comes no later than `q`. -/
def before (p q : Path) : Bool := !decide (q.key < p.key)

end Path

end UnitLint
