import UnitLint.Text.Lines
import UnitLint.UnitFile.Builder
import UnitLint.UnitFile.ParseError
import UnitLint.UnitFile.Statement

/-! # Parsing unit files

The statements of a text build the unit file one after another. Every fault is reported, and a file
with faults has no unit; an entry before any header ends the parsing. A header with a bad name still
opens its group, so that the entries under it are not reported as well. -/

namespace UnitLint

open Text

namespace Statement

/-- The index of the character that makes a group name invalid; an empty name is so at its start. -/
def invalidNameIndex? (name : List Char) : Option Nat :=
  if name.isEmpty then some 0
  else name.findIdx? fun c => c == '[' || c == ']' || isControl c

/-- The index of the character that makes a key invalid. -/
def invalidKeyIndex? (key : List Char) : Option Nat :=
  if key.isEmpty then some 0
  else if key.contains '=' then key.findIdx? (· == '=')
  else if key.head? == some ' ' then some 0
  else if key.getLast? == some ' ' then some (key.length - 1)
  else none

/-- The lines of a value, joined by line feeds. -/
def joinLines (first : List Char) (more : List (List Char)) : List Char :=
  first ++ more.flatMap fun l => '\n' :: l

/-- The entry of a key and value at the given line and indentation, or what is wrong and in which
column. -/
def entry? (line column : Nat) (left right : List Char) : Except (SyntaxFault × Nat) Entry :=
  let key := trimEnd left
  match invalidKeyIndex? key with
  | some i => .error (.invalidKey (String.ofList key), column + i)
  | none =>
    let text := trimStart right
    let valueColumn := column + left.length + 1 + indent right
    if text.isEmpty then .error (.emptyValue (String.ofList key), valueColumn)
    else
      .ok ⟨String.ofList key, column,
        ⟨String.ofList key, String.ofList text, ⟨line, valueColumn⟩⟩⟩

end Statement

/-- What a statement does to a file under construction. -/
inductive Effect where
  /-- Parsing goes on, after an error or none. -/
  | next (error : Option ParseError) (builder : Builder)
  /-- Parsing ends with an error. -/
  | abort (error : ParseError)
  deriving DecidableEq, Repr

namespace Builder

/-- Opens the group of a header, and reports a bad name. -/
def readHeader (line column : Nat) (name : List Char) (b : Builder) : Effect :=
  let opened := b.openGroup (String.ofList name) line
  match Statement.invalidNameIndex? name with
  | none => .next none opened
  | some i =>
    .next (some ⟨⟨line, column + 1 + i⟩, some (String.ofList name), none,
      .invalidGroupName (String.ofList name)⟩) opened

/-- Appends an entry to the group opened last, or reports why it is none. -/
def readEntry (line column : Nat) (left right : List Char) (b : Builder) : Effect :=
  let key := String.ofList (trimEnd left)
  match b.current with
  | none => .abort ⟨⟨line, column⟩, none, some key, .missingGroup⟩
  | some group =>
    match Statement.entry? line column left right with
    | .ok entry => .next none (b.append entry)
    | .error (fault, place) => .next (some ⟨⟨line, place⟩, some group, some key, fault⟩) b

/-- Reads one statement. -/
def read (s : Statement.Located) (b : Builder) : Effect :=
  match s.statement with
  | .header name => b.readHeader s.line s.indent name
  | .entry left right more => b.readEntry s.line s.indent left (Statement.joinLines right more)
  | .unrecognized => .next (some ⟨⟨s.line, s.indent⟩, b.current, none, .unrecognizedLine⟩) b

/-- Reads statements in order: the errors, and the file built. -/
def readAll (b : Builder) : List Statement.Located → List ParseError × Builder
  | [] => ([], b)
  | s :: rest =>
    match b.read s with
    | .abort error => ([error], b)
    | .next error b' =>
      let (errors, built) := b'.readAll rest
      (error.toList ++ errors, built)

end Builder

/-- The statements of a text. -/
def Statement.ofText (text : List Char) : List Statement.Located :=
  Statement.ofLines 1 (Text.lines text)

/-- The unit file at a path with the given text, or the errors in it. -/
def parse (path : Path) (text : String) : Except (List ParseError) UnitFile :=
  match (Builder.empty path).readAll (Statement.ofText text.toList) with
  | ([], built) => .ok built.unit
  | (errors, _) => .error errors

end UnitLint
