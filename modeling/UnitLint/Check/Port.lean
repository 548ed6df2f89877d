import UnitLint.Text.DecimalDigit

/-! # Port mappings

An exposed port is a port range with or without a protocol. A published port may have a host part
before it: a range or nothing, and before that an address, with a colon after each. A range is a
number, or two with a hyphen between them; numbers are written in decimal digits of any script. -/

namespace UnitLint.Port

open Text

/-- Whether a text is one or more decimal digits. -/
def isNumber (s : List Char) : Bool := !s.isEmpty && s.all isDecimalDigit

/-- Whether a text is a number, or two joined by a hyphen. -/
def isRange (s : List Char) : Bool :=
  match s.splitOn '-' with
  | [n] => isNumber n
  | [low, high] => isNumber low && isNumber high
  | _ => false

/-- The protocols. -/
def protocols : List (List Char) := ["tcp", "udp", "sctp"].map String.toList

/-- The text before the protocol, which is after the first slash if there is one. -/
def withoutProtocol? (s : List Char) : Option (List Char) :=
  match s.dropWhile (· != '/') with
  | [] => some s
  | _ :: protocol =>
    if protocols.contains protocol then some (s.takeWhile (· != '/')) else none

/-- Whether a text is an address of four numbers of one to three digits, with dots between them. -/
def isDotted (s : List Char) : Bool :=
  let parts := s.splitOn '.'
  parts.length == 4 && parts.all fun n => isNumber n && n.length ≤ 3

/-- Whether `c` may stand in a bracketed address: a hexadecimal digit, a colon or a dot. -/
def isAddressChar (c : Char) : Bool :=
  ('0' ≤ c && c ≤ '9') || ('A' ≤ c && c ≤ 'F') || ('a' ≤ c && c ≤ 'f') || c == ':' || c == '.'

/-- Whether a text is a range or nothing. -/
def isHostRange (s : List Char) : Bool := s.isEmpty || isRange s

/-- Whether a text is a host range and a range, with a colon between them. -/
def isPair (s : List Char) : Bool :=
  match s.splitOn ':' with
  | [host, range] => isHostRange host && isRange range
  | _ => false

/-- Whether the text after an opening bracket is an address, its closing bracket, a colon and a
pair. -/
def isBracketed (s : List Char) : Bool :=
  let address := s.takeWhile (· != ']')
  match s.dropWhile (· != ']') with
  | _ :: ':' :: rest => !address.isEmpty && address.all isAddressChar && isPair rest
  | _ => false

/-- Whether a text without its protocol is a mapping. -/
def isMapping (s : List Char) : Bool :=
  match s with
  | '[' :: rest => isBracketed rest
  | _ =>
    match s.splitOn ':' with
    | [range] => isRange range
    | [host, range] => isHostRange host && isRange range
    | [address, host, range] => isDotted address && isHostRange host && isRange range
    | _ => false

/-- Whether a text is a port that can be published. -/
def isPublished (s : List Char) : Bool := (withoutProtocol? s).any isMapping

/-- Whether a text is a port that can be exposed. -/
def isExposed (s : List Char) : Bool := (withoutProtocol? s).any isRange

end UnitLint.Port
