/-! # UTF-8

Reading bytes as text. A lead byte fixes how many bytes follow it, in which range each of them lies,
and how many of its bits count. Bytes that no well-formed sequence starts with are read in runs: a
run is the longest prefix that some well-formed sequence begins with, or else one byte. The lossy
reading writes U+FFFD for each run; the strict reading refuses the text. -/

namespace UnitLint.Text.Utf8

/-- What a lead byte announces: its own bits, and the range of each byte that follows. -/
structure Lead where
  bits : Nat
  tails : List (Nat × Nat)

/-- The announcement of a lead byte; no sequence starts with the bytes left out. -/
def lead (b : Nat) : Option Lead :=
  if b ≤ 0x7F then some ⟨b, []⟩
  else if b < 0xC2 then none
  else if b ≤ 0xDF then some ⟨b - 0xC0, [(0x80, 0xBF)]⟩
  else if b == 0xE0 then some ⟨0, [(0xA0, 0xBF), (0x80, 0xBF)]⟩
  else if b == 0xED then some ⟨0xD, [(0x80, 0x9F), (0x80, 0xBF)]⟩
  else if b ≤ 0xEF then some ⟨b - 0xE0, [(0x80, 0xBF), (0x80, 0xBF)]⟩
  else if b == 0xF0 then some ⟨0, [(0x90, 0xBF), (0x80, 0xBF), (0x80, 0xBF)]⟩
  else if b ≤ 0xF3 then some ⟨b - 0xF0, [(0x80, 0xBF), (0x80, 0xBF), (0x80, 0xBF)]⟩
  else if b == 0xF4 then some ⟨4, [(0x80, 0x8F), (0x80, 0xBF), (0x80, 0xBF)]⟩
  else none

/-- The longest prefix of the bytes that lies, byte by byte, in the ranges. -/
def fitting : List (Nat × Nat) → List UInt8 → List UInt8
  | (low, high) :: ranges, b :: bytes =>
    if low ≤ b.toNat && b.toNat ≤ high then b :: fitting ranges bytes else []
  | _, _ => []

/-- The code point whose lead byte has the given bits and is followed by the given bytes. -/
def codePoint (bits : Nat) (tails : List UInt8) : Nat :=
  tails.foldl (fun value b => value * 64 + b.toNat % 64) bits

/-- Reads one character, or `none` for one ill-formed run, and gives the bytes after it. -/
def next (b : UInt8) (bytes : List UInt8) : Option Char × List UInt8 :=
  match lead b.toNat with
  | none => (none, bytes)
  | some l =>
    let tails := fitting l.tails bytes
    if tails.length == l.tails.length then
      (some (Char.ofNat (codePoint l.bits tails)), bytes.drop tails.length)
    else (none, bytes.drop tails.length)

theorem length_next_le (b : UInt8) (bytes : List UInt8) :
    (next b bytes).2.length ≤ bytes.length := by
  unfold next
  split
  · exact Nat.le_refl _
  · dsimp only
    split <;> simp

/-- The characters of the text, with `none` for each ill-formed run. -/
def pieces : List UInt8 → List (Option Char)
  | [] => []
  | b :: bytes => (next b bytes).1 :: pieces (next b bytes).2
termination_by bytes => bytes.length
decreasing_by exact Nat.lt_succ_of_le (length_next_le b bytes)

/-- The text of the bytes, with U+FFFD for each ill-formed run. -/
def decodeLossy (bytes : List UInt8) : List Char :=
  (pieces bytes).map (·.getD '\uFFFD')

/-- The text of the bytes, if they are well formed throughout. -/
def decode? (bytes : List UInt8) : Option (List Char) :=
  (pieces bytes).mapM id

/-- The bytes of a text. -/
def encode (s : List Char) : List UInt8 := s.flatMap String.utf8EncodeChar

end UnitLint.Text.Utf8
