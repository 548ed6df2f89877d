import UnitLint.UnitFile.Basic

/-! # Splicing continued values

A value that is continued over several lines is spliced: every backslash before a line feed goes,
with the line feed. Each line feed of the value, spliced or bare, sets an anchor, which says at
which offset of the spliced text the next line of the file begins; from the anchors the place of any
offset follows. -/

namespace UnitLint

/-- The offset in the spliced text at which a line of the file begins, and the place there. -/
structure Anchor where
  offset : Nat
  location : Location
  deriving DecidableEq, Repr

/-- A spliced value: its text, where it starts, and the anchors after that. -/
structure Spliced where
  text : List Char
  start : Location
  anchors : List Anchor
  deriving DecidableEq, Repr

namespace Spliced

/-- The spliced text of what is left of a value, and the anchors set in it, where `offset`
characters of text came before and `line` is the current line. -/
def splice (offset line : Nat) : List Char → List Char × List Anchor
  | [] => ([], [])
  | '\\' :: '\n' :: s =>
    let (text, anchors) := splice offset (line + 1) s
    (text, ⟨offset, ⟨line + 1, 0⟩⟩ :: anchors)
  | '\n' :: s =>
    let (text, anchors) := splice (offset + 1) (line + 1) s
    ('\n' :: text, ⟨offset + 1, ⟨line + 1, 0⟩⟩ :: anchors)
  | c :: s =>
    let (text, anchors) := splice (offset + 1) line s
    (c :: text, anchors)

/-- The spliced form of a value. -/
def ofValue (v : Value) : Spliced :=
  let (text, anchors) := splice 0 v.location.line v.text.toList
  ⟨text, v.location, anchors⟩

/-- The last anchor at or before an offset. -/
def anchorAt (s : Spliced) (offset : Nat) : Anchor :=
  ((s.anchors.takeWhile (·.offset ≤ offset)).getLast?).getD ⟨0, s.start⟩

/-- The place in the file of the character at an offset. -/
def locate (s : Spliced) (offset : Nat) : Location :=
  let anchor := s.anchorAt offset
  ⟨anchor.location.line, anchor.location.column + (offset - anchor.offset)⟩

/-- A value whose text is taken from the spliced text at an offset. -/
def valueAt (s : Spliced) (key : String) (text : List Char) (offset : Nat) : Value :=
  ⟨key, String.ofList text, s.locate offset⟩

/-- The whole spliced text as a value. -/
def toValue (s : Spliced) (key : String) : Value := s.valueAt key s.text 0

end Spliced

end UnitLint
