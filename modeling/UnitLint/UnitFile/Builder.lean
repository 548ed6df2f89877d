import UnitLint.UnitFile.Basic

/-! # Building unit files

A unit file is built step by step. A group is opened by its name; a name that was opened before goes
on with its group. Entries go to the group opened last. -/

namespace UnitLint

/-- A unit file under construction, and the name of the group opened last. -/
structure Builder where
  unit : UnitFile
  current : Option String
  deriving DecidableEq, Repr

namespace Builder

/-- The builder of a file without groups. -/
def empty (path : Path) : Builder := ⟨⟨path, []⟩, none⟩

/-- The groups with one more of the given name, unless they have it. -/
def withGroup (name : String) (line : Nat) (groups : List Group) : List Group :=
  if groups.any (·.name == name) then groups else groups ++ [⟨name, line, []⟩]

/-- The groups with an entry at the end of the one of the given name. -/
def withEntry (name : String) (entry : Entry) (groups : List Group) : List Group :=
  groups.map fun g => if g.name == name then { g with entries := g.entries ++ [entry] } else g

/-- Opens a group; a new one gets the line. -/
def openGroup (name : String) (line : Nat) (b : Builder) : Builder where
  unit := { b.unit with groups := withGroup name line b.unit.groups }
  current := some name

/-- Appends an entry to the group opened last. If none was, a nameless group at line 0 is opened. -/
def append (entry : Entry) (b : Builder) : Builder :=
  match b.current with
  | some name => { b with unit := { b.unit with groups := withEntry name entry b.unit.groups } }
  | none =>
    let opened := b.openGroup "" 0
    { opened with unit := { opened.unit with groups := withEntry "" entry opened.unit.groups } }

/-- The number of the next line, if each header and each entry so far has a line. -/
def nextLine (b : Builder) : Nat :=
  (b.unit.groups.flatMap (·.entries)).length + b.unit.groups.length + 1

/-- Appends `key=value` to a group, on the next line. -/
def add (group key text : String) (b : Builder) : Builder :=
  let opened := b.openGroup group b.nextLine
  opened.append ⟨key, 0, ⟨key, text, ⟨opened.nextLine, key.length + 1⟩⟩⟩

end Builder

end UnitLint
