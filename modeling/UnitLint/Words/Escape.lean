import UnitLint.Text.Digit
import UnitLint.Text.Utf8

/-! # Escape sequences

What may follow a backslash. A letter names a character; `x` and two hexadecimal digits, or three
octal digits, give a byte; `u` with four and `U` with eight hexadecimal digits give a character.
Bytes are kept apart from characters because several of them may spell one character in UTF-8. -/

namespace UnitLint.Words

/-- Why a text after a backslash is no escape sequence. -/
inductive EscapeError where
  | truncated
  | invalidDigit (c : Char)
  | nul
  | outOfRange (value : Nat)
  | unknown (c : Char)
  deriving DecidableEq, Repr

/-- The wording of an escape error. -/
def EscapeError.message : EscapeError → String
  | truncated => "escape sequence is truncated"
  | invalidDigit c => "invalid digit '" ++ c.toString ++ "' in escape sequence"
  | nul => "escape sequence decodes to NUL"
  | outOfRange value =>
    "escape sequence value 0x" ++ String.ofList (Nat.toDigits 16 value) ++ " is out of range"
  | unknown c => "unknown escape sequence '\\" ++ c.toString ++ "'"

/-- What an escape sequence stands for. -/
inductive Decoded where
  | byte (b : UInt8)
  | char (c : Char)
  deriving DecidableEq, Repr

/-- The bytes of a decoded escape: a byte is itself, a character its UTF-8 form. -/
def Decoded.bytes : Decoded → List UInt8
  | byte b => [b]
  | char c => String.utf8EncodeChar c

namespace Escape

/-! ### The forms -/

/-- The character that a one-letter escape names. -/
def named? : Char → Option Char
  | 'a' => some '\x07'
  | 'b' => some '\x08'
  | 'f' => some '\x0c'
  | 'n' => some '\n'
  | 'r' => some '\r'
  | 't' => some '\t'
  | 'v' => some '\x0b'
  | '\\' => some '\\'
  | '"' => some '"'
  | '\'' => some '\''
  | 's' => some ' '
  | _ => none

/-- Whether `c` is an octal digit. -/
def isOctal (c : Char) : Bool := '0' ≤ c && c ≤ '7'

/-- The value of the first `count` characters as digits; too short a text is an error of its own. -/
def number (radix count : Nat) (s : List Char) : Except EscapeError Nat :=
  if s.length < count then .error .truncated
  else (Text.digits radix 0 (s.take count)).mapError .invalidDigit

/-- The byte of a value, which is at most 255. -/
def byte (value : Nat) : Except EscapeError Decoded :=
  if value ≤ 0xFF then .ok (.byte (UInt8.ofNat value)) else .error (.outOfRange value)

/-- The character of a value, which is a Unicode scalar value. -/
def char (value : Nat) : Except EscapeError Decoded :=
  if value.isValidChar then .ok (.char (Char.ofNat value)) else .error (.outOfRange value)

/-- A numeric form: its radix, its number of digits, and what their value stands for. -/
structure Form where
  radix : Nat
  count : Nat
  decoded : Nat → Except EscapeError Decoded

/-- The numeric form that a letter announces. -/
def form? : Char → Option Form
  | 'x' => some ⟨16, 2, byte⟩
  | 'u' => some ⟨16, 4, char⟩
  | 'U' => some ⟨16, 8, char⟩
  | _ => none

/-- The form of an octal escape, which no letter announces. -/
def octal : Form := ⟨8, 3, byte⟩

/-- Reads the digits of a form. Zero is refused unless `acceptNul`. -/
def Form.read (form : Form) (acceptNul : Bool) (s : List Char) : Except EscapeError Decoded := do
  let value ← number form.radix form.count s
  if value == 0 && !acceptNul then throw .nul
  form.decoded value

/-! ### Decoding -/

/-- Decodes the escape sequence that `s`, the text after a backslash, starts with, and counts its
characters. Zero is refused unless `acceptNul`. -/
def decode (acceptNul : Bool) : List Char → Except EscapeError (Decoded × Nat)
  | [] => .error .truncated
  | c :: s =>
    match named? c, form? c with
    | some d, _ => .ok (.char d, 1)
    | none, some form => do return (← form.read acceptNul s, form.count + 1)
    | none, none =>
      if isOctal c then do return (← octal.read acceptNul (c :: s), octal.count)
      else .error (.unknown c)

end Escape

end UnitLint.Words
