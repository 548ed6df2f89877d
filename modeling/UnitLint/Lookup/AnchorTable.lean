import UnitLint.Lookup.Splice

/-! # Splicing with a table of anchors

Splicing can be done in one pass that keeps the text, its length, the current line and a table of
anchors up together. The first anchor of the table is the start of the value. The place of an offset
is counted from the last anchor at or before it, which is found by halving the table. An access
beyond the end of the table fails, and so does a subtraction that would go below zero. -/

namespace UnitLint

/-! ### Halving -/

/-- How many elements pass a test, where those that do come first, and are `base` at least and
`base + size` at most. -/
def bisect {α : Type} (p : α → Bool) (as : List α) (base size : Nat) : Option Nat :=
  if size ≤ 1 then
    as[base]?.map fun a => if p a then base + 1 else base
  else
    as[base + size / 2]?.bind fun a =>
      bisect p as (if p a then base + size / 2 else base) (size - size / 2)
termination_by size

/-- How many elements pass a test, where those that do come first. -/
def partitionPoint {α : Type} (p : α → Bool) (as : List α) : Option Nat :=
  if as.isEmpty then some 0 else bisect p as 0 as.length

/-! ### Tables -/

/-- A spliced text with its anchors, the start of the value among them. -/
structure AnchorTable where
  text : List Char
  anchors : List Anchor
  deriving DecidableEq, Repr

/-- A table under construction. -/
structure Splicer extends AnchorTable where
  /-- How long the text is so far. -/
  offset : Nat
  /-- The line that is being read. -/
  line : Nat
  deriving DecidableEq, Repr

namespace Splicer

/-- Nothing is read, and the value starts at a location. -/
def start (l : Location) : Splicer := ⟨⟨[], [⟨0, l⟩]⟩, 0, l.line⟩

/-- Keeps a character. -/
def keep (c : Char) (s : Splicer) : Splicer :=
  { s with text := s.text ++ [c], offset := s.offset + 1 }

/-- Goes to the next line, which begins at the current offset. -/
def nextLine (s : Splicer) : Splicer :=
  { s with line := s.line + 1, anchors := s.anchors ++ [⟨s.offset, ⟨s.line + 1, 0⟩⟩] }

/-- Reads the characters of a value. A backslash before a line feed is taken with it. -/
def run (s : Splicer) : List Char → Splicer
  | [] => s
  | '\\' :: '\n' :: cs => s.nextLine.run cs
  | '\n' :: cs => (s.keep '\n').nextLine.run cs
  | c :: cs => (s.keep c).run cs

end Splicer

namespace AnchorTable

/-- The table of a value. -/
def ofValue (v : Value) : AnchorTable :=
  ((Splicer.start v.location).run v.text.toList).toAnchorTable

/-- The place in the file of the character at an offset. -/
def locate? (t : AnchorTable) (offset : Nat) : Option Location := do
  let n ← partitionPoint (·.offset ≤ offset) t.anchors
  let anchor ← t.anchors[n - 1]?
  if anchor.offset ≤ offset then
    some ⟨anchor.location.line, anchor.location.column + (offset - anchor.offset)⟩
  else none

end AnchorTable

end UnitLint
