import UnitLint.Proofs.Words.Decoding
import UnitLint.Proofs.Words.Row

/-! # Characters spelled as escapes

Each character of a word may be spelled in several ways: as itself if it means nothing special, by
its letter, by its code point in four or eight hexadecimal digits, or byte by byte, each byte of its
UTF-8 form in two hexadecimal or three octal digits. Each spelling is a piece of the word's,
whatever comes before or after it, so a text with any choice of spellings is one word, and the
choice does not show in it (`split_spelled`). -/

namespace UnitLint.Words

open Text

variable {flags : SplitFlags} {separators : List Char} {quote : Option Quote}

/-! ### Spellings -/

/-- The letter that names a character after a backslash. -/
def Escape.letter? : Char → Option Char
  | '\x07' => some 'a'
  | '\x08' => some 'b'
  | '\x0c' => some 'f'
  | '\n' => some 'n'
  | '\r' => some 'r'
  | '\t' => some 't'
  | '\x0b' => some 'v'
  | '\\' => some '\\'
  | '"' => some '"'
  | '\'' => some '\''
  | ' ' => some 's'
  | _ => none

/-- The spellings of a byte. -/
inductive SpelledByte (b : UInt8) : List Char → Prop
  | hex {s : List Char} (h : IsNumeral 16 2 b.toNat s) : SpelledByte b ('\\' :: 'x' :: s)
  | octal {s : List Char} (h : IsNumeral 8 3 b.toNat s) : SpelledByte b ('\\' :: s)

/-- The spellings of a character. -/
inductive SpelledChar (separators : List Char) (c : Char) : List Char → Prop
  | itself (hsep : separators.contains c = false) (hmark : c ≠ '\'' ∧ c ≠ '"') (hback : c ≠ '\\') :
    SpelledChar separators c [c]
  | named {l : Char} (h : Escape.letter? c = some l) : SpelledChar separators c ['\\', l]
  | short {s : List Char} (h : IsNumeral 16 4 c.toNat s) : SpelledChar separators c ('\\' :: 'u' :: s)
  | long {s : List Char} (h : IsNumeral 16 8 c.toNat s) : SpelledChar separators c ('\\' :: 'U' :: s)
  | bytes {pieces : List (List Char)}
    (h : List.Forall₂ SpelledByte (String.utf8EncodeChar c) pieces) :
    SpelledChar separators c pieces.flatten

/-! ### Spellings are pieces -/

theorem Escape.named?_eq_some_iff {c l : Char} : named? l = some c ↔ letter? c = some l := by
  constructor
  · intro h
    unfold named? at h
    split at h <;> cases h <;> rfl
  · intro h
    unfold letter? at h
    split at h <;> cases h <;> rfl

theorem escape_of_decode (hunescape : flags.unescape = true) (c : Char) (s : List Char) :
    escape flags c s = Escape.decode false (c :: s) := if_pos hunescape

/-- An escape sequence is a piece that adds what it stands for. -/
theorem Adds.sequence (hescaping : flags.escaping = true) (hunescape : flags.unescape = true)
    {s : List Char} {d : Decoded} (h : Escape.IsSequence s d) (hd : d.code ≠ 0) :
    Adds flags separators quote ('\\' :: s) d.bytes := by
  have hdecode : Escape.decode false s = .ok (d, s.length) :=
    Escape.decode_of_isSequence h fun hzero => absurd hzero hd
  rcases s with _ | ⟨c, s⟩
  · cases hdecode
  · exact Adds.escape hescaping (by rw [escape_of_decode hunescape, hdecode]; rfl)

theorem SpelledByte.adds (hescaping : flags.escaping = true) (hunescape : flags.unescape = true)
    {b : UInt8} (hb : b ≠ 0) {s : List Char} (h : SpelledByte b s) :
    Adds flags separators quote s [b] := by
  have hn : (Decoded.byte b).code ≠ 0 := fun hzero => hb (UInt8.toNat_inj.mp hzero)
  cases h with
  | hex h => exact Adds.sequence hescaping hunescape (.hex h) hn
  | octal h => exact Adds.sequence hescaping hunescape (.octal h) hn

theorem SpelledChar.adds (hescaping : flags.escaping = true) (hunescape : flags.unescape = true)
    {c : Char} (hc : c ≠ '\x00') {s : List Char} (h : SpelledChar separators c s) :
    Adds flags separators none s (String.utf8EncodeChar c) := by
  have hn : (Decoded.char c).code ≠ 0 := by
    intro hzero
    have hchar := Char.ofNat_toNat c
    rw [show c.toNat = 0 from hzero] at hchar
    exact hc hchar.symm
  cases h with
  | itself hsep hmark hback =>
    have hmark' : isQuoteMark c = false := by simp [isQuoteMark, hmark.1, hmark.2]
    exact Adds.plain (by simp [hback]) (by simp [hmark']) hsep
  | named h =>
    have hsequence := Escape.IsSequence.named (Escape.named?_eq_some_iff.mpr h)
    exact Adds.sequence hescaping hunescape hsequence hn
  | short h => exact Adds.sequence hescaping hunescape (.short h) hn
  | long h => exact Adds.sequence hescaping hunescape (.long h) hn
  | bytes h =>
    have hadds : Adds flags separators none _ ((String.utf8EncodeChar c).flatMap fun b => [b]) :=
      Adds.flatten h fun b hb piece hpiece =>
        SpelledByte.adds hescaping hunescape (Utf8.ne_zero_of_mem_encodeChar hc hb) hpiece
    rwa [List.flatMap_singleton'] at hadds

/-! ### The first character -/

theorem SpelledByte.starts {b : UInt8} {s : List Char} (h : SpelledByte b s) : ∃ t, s = '\\' :: t := by
  cases h <;> exact ⟨_, rfl⟩

theorem SpelledChar.starts (hback : separators.contains '\\' = false) {c : Char} {s : List Char}
    (h : SpelledChar separators c s) : ∃ a t, s = a :: t ∧ separators.contains a = false := by
  cases h with
  | itself hsep => exact ⟨c, [], rfl, hsep⟩
  | named | short | long => exact ⟨'\\', _, rfl, hback⟩
  | bytes h =>
    obtain ⟨b, tails, hbytes, -⟩ := Utf8.next_encodeChar c
    rw [hbytes] at h
    obtain ⟨piece, pieces, hpiece, -, rfl⟩ := List.forall₂_cons_left_iff.mp h
    obtain ⟨t, rfl⟩ := hpiece.starts
    exact ⟨'\\', t ++ pieces.flatten, rfl, hback⟩

/-! ### Words -/

/-- **Every spelling of a word is that word**, whichever is chosen for each of its characters. -/
theorem split_spelled (hunescape : flags.unescape = true) (hliteral : flags.literalBackslash = false)
    (hback : separators.contains '\\' = false) {w : List Char} (hne : w ≠ []) (hnul : '\x00' ∉ w)
    {spellings : List (List Char)} (h : List.Forall₂ (SpelledChar separators) w spellings) :
    split flags separators spellings.flatten = .ok [⟨String.ofList w, 0⟩] := by
  have hescaping : flags.passing.escaping = true := by
    show (!flags.literalBackslash) = true
    rw [hliteral]
    rfl
  have hadds : Adds flags.passing separators none spellings.flatten (Utf8.encode w) :=
    Adds.flatten h fun c hc piece hpiece =>
      SpelledChar.adds hescaping hunescape (fun hzero => hnul (hzero ▸ hc)) hpiece
  obtain ⟨c, w', rfl⟩ := List.exists_cons_of_ne_nil hne
  obtain ⟨piece, pieces, hpiece, -, rfl⟩ := List.forall₂_cons_left_iff.mp h
  obtain ⟨a, t, rfl, ha⟩ := hpiece.starts hback
  have htext : (String.ofList (c :: w')).toList = c :: w' := String.toList_ofList
  rw [← htext] at hadds
  exact split_of_standsFor (standsFor_of_adds ha hadds)

/-- Each way of spelling once: as itself, by bytes in both forms, by letter and by code point. -/
theorem split_spelled_forms :
    let flags : SplitFlags := { unescape := true, separateEach := true }
    let w := ['a', 'é', '\n', '€', '😀']
    let spellings : List (List Char) := [['a'], "\\xC3\\251".toList, "\\n".toList,
      "\\u20aC".toList, "\\U0001F600".toList]
    w ≠ [] ∧ '\x00' ∉ w ∧ List.Forall₂ (SpelledChar [',', 'x']) w spellings ∧
      split flags [',', 'x'] spellings.flatten = .ok [⟨"aé\n€😀", 0⟩] := by
  intro flags w spellings
  have hbytes : List.Forall₂ SpelledByte (String.utf8EncodeChar 'é')
      ["\\xC3".toList, "\\251".toList] :=
    .cons (.hex (by decide)) (.cons (.octal (by decide)) .nil)
  have hspelled : List.Forall₂ (SpelledChar [',', 'x']) w spellings :=
    .cons (.itself rfl (by decide) (by decide)) <| .cons (.bytes hbytes) <|
      .cons (.named rfl) <| .cons (.short (by decide)) <| .cons (.long (by decide)) .nil
  have hnul : '\x00' ∉ w := by decide
  exact ⟨List.cons_ne_nil _ _, hnul, hspelled,
    split_spelled rfl rfl rfl (List.cons_ne_nil _ _) hnul hspelled⟩

end UnitLint.Words
