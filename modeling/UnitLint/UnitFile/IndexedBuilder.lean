import Mathlib.Data.List.Defs
import UnitLint.UnitFile.Builder

/-! # Building unit files with an index

A builder that looks groups up: it knows the position of each group by the name of the group, and
the position of the group opened last. A position beyond the last group is an access that fails. -/

namespace UnitLint

/-- A unit file under construction, with the positions of its groups. -/
structure IndexedBuilder where
  path : Path
  groups : List Group
  /-- The position of the group of a name. -/
  index : Std.HashMap String Nat
  /-- The position of the group opened last. -/
  current : Option Nat

namespace IndexedBuilder

/-- The builder of a file without groups. -/
def empty (path : Path) : IndexedBuilder := ⟨path, [], ∅, none⟩

/-- The group of a name, at the position that the index has for it. -/
def group? (name : String) (b : IndexedBuilder) : Option Group := b.index[name]?.bind (b.groups[·]?)

/-- Whether the index has the name. -/
def hasGroup (name : String) (b : IndexedBuilder) : Bool := b.index.contains name

/-- The name of the group opened last. -/
def currentName (b : IndexedBuilder) : Option String :=
  b.current.bind fun i => b.groups[i]?.map Group.name

/-- Opens a group; a new one gets the line, and is put last. -/
def openGroup (name : String) (line : Nat) (b : IndexedBuilder) : IndexedBuilder :=
  match b.index[name]? with
  | some i => { b with current := some i }
  | none =>
    { b with
      groups := b.groups ++ [⟨name, line, []⟩]
      index := b.index.insert name b.groups.length
      current := some b.groups.length }

/-- Appends an entry to the group at a position. -/
def appendAt (i : Nat) (entry : Entry) (b : IndexedBuilder) : Option IndexedBuilder :=
  b.groups[i]?.map fun g =>
    { b with groups := b.groups.set i { g with entries := g.entries ++ [entry] } }

/-- Appends an entry to the group opened last. If none was, a nameless group at line 0 is opened. -/
def append (entry : Entry) (b : IndexedBuilder) : Option IndexedBuilder :=
  match b.current with
  | some i => b.appendAt i entry
  | none =>
    let opened := b.openGroup "" 0
    opened.appendAt (opened.current.getD 0) entry

/-- The number of the next line, if each header and each entry so far has a line. -/
def nextLine (b : IndexedBuilder) : Nat :=
  (b.groups.flatMap (·.entries)).length + b.groups.length + 1

/-- Appends `key=value` to a group, on the next line. -/
def add (group key text : String) (b : IndexedBuilder) : Option IndexedBuilder :=
  let opened := b.openGroup group b.nextLine
  opened.append ⟨key, 0, ⟨key, text, ⟨opened.nextLine, key.length + 1⟩⟩⟩

end IndexedBuilder

end UnitLint
