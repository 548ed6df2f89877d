import UnitLint.Json.Basic
import UnitLint.Text.Digit

/-! # JSON tokens

A text is cut into brackets, separators and scalars; blanks between them do not count. A string is
read as pieces, a character or a surrogate each, and is a text if every surrogate has its partner.
-/

namespace UnitLint.Json

/-- A piece of a JSON text. -/
inductive Token where
  | openArray
  | closeArray
  | openObject
  | closeObject
  | comma
  | colon
  /-- Null, a boolean, a number or a string. -/
  | scalar (value : Json (Option String))
  deriving Repr

/-- A piece of a JSON string. -/
inductive Piece where
  | char (c : Char)
  /-- An escaped surrogate. -/
  | surrogate (code : Nat)
  deriving DecidableEq, Repr

/-- The text of pieces, in which each high surrogate is followed by its low partner. -/
def textOf? : List Piece → Option (List Char)
  | [] => some []
  | .char c :: ps => (textOf? ps).map (c :: ·)
  | .surrogate high :: .surrogate low :: ps =>
    if high < 0xDC00 && 0xDC00 ≤ low then
      (textOf? ps).map (Char.ofNat (0x10000 + (high - 0xD800) * 0x400 + (low - 0xDC00)) :: ·)
    else none
  | .surrogate _ :: _ => none

/-- The piece of a code unit. -/
def pieceOf (code : Nat) : Piece :=
  if 0xD800 ≤ code && code ≤ 0xDFFF then .surrogate code else .char (Char.ofNat code)

/-- The character that a one-letter escape stands for. -/
def unescaped? : Char → Option Char
  | '"' => some '"'
  | '\\' => some '\\'
  | '/' => some '/'
  | 'b' => some '\x08'
  | 'f' => some '\x0c'
  | 'n' => some '\n'
  | 'r' => some '\r'
  | 't' => some '\t'
  | _ => none

/-- The pieces of a string up to its closing quote, and the text after that. -/
def stringPieces : List Char → Option (List Piece × List Char)
  | [] => none
  | '"' :: s => some ([], s)
  | '\\' :: 'u' :: a :: b :: c :: d :: s =>
    match Text.digits 16 0 [a, b, c, d] with
    | .error _ => none
    | .ok code => (stringPieces s).map fun (ps, rest) => (pieceOf code :: ps, rest)
  | '\\' :: c :: s =>
    match unescaped? c with
    | none => none
    | some e => (stringPieces s).map fun (ps, rest) => (.char e :: ps, rest)
  | c :: s =>
    if c.toNat < 0x20 || c == '\\' then none
    else (stringPieces s).map fun (ps, rest) => (.char c :: ps, rest)

theorem stringPieces_lt {s rest : List Char} {ps : List Piece}
    (h : stringPieces s = some (ps, rest)) : rest.length < s.length := by
  fun_induction stringPieces s generalizing ps rest with
  | case1 => cases h
  | case2 s => cases h; exact Nat.lt_succ_self _
  | case3 => cases h
  | case4 a b c d s code hcode ih =>
    obtain ⟨q, hq, hr⟩ := Option.map_eq_some_iff.mp h
    cases hr
    have := ih hq
    simp only [List.length_cons]
    omega
  | case5 => cases h
  | case6 c s hu e he ih =>
    obtain ⟨q, hq, hr⟩ := Option.map_eq_some_iff.mp h
    cases hr
    have := ih hq
    simp only [List.length_cons]
    omega
  | case7 => cases h
  | case8 c s _ _ _ hc ih =>
    obtain ⟨q, hq, hr⟩ := Option.map_eq_some_iff.mp h
    cases hr
    have := ih hq
    simp only [List.length_cons]
    omega

/-! ### Numbers and words -/

/-- Whether `c` may stand in a number. -/
def isNumberChar (c : Char) : Bool :=
  c.isDigit || c == '-' || c == '+' || c == '.' || c == 'e' || c == 'E'

/-- Whether a text is one or more ASCII digits. -/
def isDigits (s : List Char) : Bool := !s.isEmpty && s.all Char.isDigit

/-- Whether a text is an exponent, with its mark, or nothing. -/
def isExponent : List Char → Bool
  | [] => true
  | _ :: '+' :: s => isDigits s
  | _ :: '-' :: s => isDigits s
  | _ :: s => isDigits s

/-- Whether a text is a fraction, with its point, and an exponent, either of which may be missing.
-/
def isFraction : List Char → Bool
  | '.' :: s => isDigits (s.takeWhile Char.isDigit) && isMarked (s.dropWhile Char.isDigit)
  | s => isMarked s
where
  /-- Whether a text is nothing, or an exponent with the right mark. -/
  isMarked (s : List Char) : Bool :=
    match s with
    | [] => true
    | c :: _ => (c == 'e' || c == 'E') && isExponent s

/-- Whether a text is a number without its sign: no digit follows a leading zero. -/
def isUnsigned : List Char → Bool
  | '0' :: s => isFraction s
  | s => isDigits (s.takeWhile Char.isDigit) && isFraction (s.dropWhile Char.isDigit)

/-- Whether a text is a number. -/
def isNumber : List Char → Bool
  | '-' :: s => isUnsigned s
  | s => isUnsigned s

/-- The value that a word stands for. -/
def wordValue? (s : List Char) : Option (Json (Option String)) :=
  if s == "null".toList then some .null
  else if s == "true".toList then some (.bool true)
  else if s == "false".toList then some (.bool false)
  else if isNumber s then some (.number (String.ofList s))
  else none

/-- Whether `c` may stand in a word or number. -/
def isWordChar (c : Char) : Bool := c.isAlpha || isNumberChar c

/-! ### Cutting a text into tokens -/

/-- The mark that a character is by itself. -/
def mark? : Char → Option Token
  | '[' => some .openArray
  | ']' => some .closeArray
  | '{' => some .openObject
  | '}' => some .closeObject
  | ',' => some .comma
  | ':' => some .colon
  | _ => none

/-- Whether `c` may stand between tokens. -/
def isSpace (c : Char) : Bool := c == ' ' || c == '\t' || c == '\n' || c == '\r'

/-- The tokens of a text. -/
def tokens? : List Char → Option (List Token)
  | [] => some []
  | c :: s =>
    if isSpace c then tokens? s
    else if c == '"' then
      match _ : stringPieces s with
      | none => none
      | some (ps, rest) =>
        (tokens? rest).map (.scalar (.string ((textOf? ps).map String.ofList)) :: ·)
    else
      match mark? c with
      | some t => (tokens? s).map (t :: ·)
      | none =>
        match wordValue? (c :: s.takeWhile isWordChar) with
        | none => none
        | some value => (tokens? (s.dropWhile isWordChar)).map (.scalar value :: ·)
termination_by s => s.length
decreasing_by
  · exact Nat.lt_succ_self _
  · exact Nat.lt_succ_of_lt (stringPieces_lt ‹_›)
  · exact Nat.lt_succ_self _
  · exact Nat.lt_succ_of_le (List.dropWhile_sublist isWordChar).length_le

end UnitLint.Json
