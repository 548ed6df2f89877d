import UnitLint.Location

/-! # Syntax errors

What can be wrong with the syntax of a unit file, where, and in which group and under which key. -/

namespace UnitLint

/-- What is wrong with a line. -/
inductive SyntaxFault where
  | missingGroup
  | invalidGroupName (name : String)
  | invalidKey (key : String)
  | emptyValue (key : String)
  | unrecognizedLine
  deriving DecidableEq, Repr

/-- The wording of a fault. -/
def SyntaxFault.message : SyntaxFault → String
  | missingGroup => "key-value pair does not start with a group"
  | invalidGroupName name => "invalid group name '" ++ name ++ "'"
  | invalidKey key => "invalid key name '" ++ key ++ "'"
  | emptyValue key => "key '" ++ key ++ "' has an empty value"
  | unrecognizedLine => "line is not a key-value pair or group"

/-- A fault, its place, the group that the line is in or tries to open, and the key of the line. -/
structure ParseError where
  location : Location
  group : Option String
  key : Option String
  fault : SyntaxFault
  deriving DecidableEq, Repr

/-- The wording of a syntax error, with its place. -/
def ParseError.message (e : ParseError) : String := e.location.text ++ ": " ++ e.fault.message

end UnitLint
