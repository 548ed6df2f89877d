import UnitLint.Json.Basic

/-! # Printing JSON

Every item of an array and every member of an object is on a line of its own, two spaces further in
than the brackets around it. Empty arrays and objects are printed without a line break. -/

namespace UnitLint.Json

/-- The hexadecimal digit of a value below 16. -/
def hexDigit (n : Nat) : Char := Nat.digitChar n

/-- How a character is written in a string: quotes, backslashes and the characters below space are
escaped, the others stand for themselves. -/
def escapeChar (c : Char) : List Char :=
  match c with
  | '"' => ['\\', '"']
  | '\\' => ['\\', '\\']
  | '\x08' => ['\\', 'b']
  | '\x0c' => ['\\', 'f']
  | '\n' => ['\\', 'n']
  | '\r' => ['\\', 'r']
  | '\t' => ['\\', 't']
  | c =>
    if c.toNat < 0x20 then
      ['\\', 'u', '0', '0', hexDigit (c.toNat / 16), hexDigit (c.toNat % 16)]
    else [c]

/-- A string in quotes. -/
def quoted (s : String) : String :=
  String.ofList ('"' :: s.toList.flatMap escapeChar ++ ['"'])

/-- A line break and the indentation of a depth. -/
def newline (depth : Nat) : String := "\n" ++ String.ofList (List.replicate (2 * depth) ' ')

/-- Items between brackets, each on a line of its own. -/
def bracketed (opening closing : String) (depth : Nat) (items : List String) : String :=
  if items.isEmpty then opening ++ closing
  else
    opening ++ newline (depth + 1) ++ String.intercalate ("," ++ newline (depth + 1)) items ++
      newline depth ++ closing

mutual

/-- The text of a value at a depth of indentation. -/
def print (depth : Nat) : Json String → String
  | null => "null"
  | bool b => if b then "true" else "false"
  | number digits => digits
  | string s => quoted s
  | array items => bracketed "[" "]" depth (printItems (depth + 1) items)
  | object members => bracketed "\x7b" "\x7d" depth (printMembers (depth + 1) members)

/-- The texts of the items of an array. -/
def printItems (depth : Nat) : List (Json String) → List String
  | [] => []
  | item :: items => print depth item :: printItems depth items

/-- The texts of the members of an object. -/
def printMembers (depth : Nat) : List (String × Json String) → List String
  | [] => []
  | (name, value) :: members =>
    (quoted name ++ ": " ++ print depth value) :: printMembers depth members

end

/-- The text of a document. -/
def pretty (j : Json String) : String := print 0 j

end UnitLint.Json
