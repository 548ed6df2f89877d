import UnitLint.Words.Escape
import UnitLint.Words.Flags

/-! # Extracting a word

A scan reads one word from the front of a text. It goes step by step: a step gives bytes of the word
and whether a quote is open after it, or ends the word, or fails. Each step uses up at least one
character, so the scan ends, and what it leaves is shorter than what it was given. -/

namespace UnitLint.Words

/-! ### Words and failures -/

/-- A word, and the offset of the character that it starts with. -/
structure Word where
  text : String
  offset : Nat
  deriving DecidableEq, Repr

/-- Why a text cannot be split, and the offset at which that shows. -/
inductive SplitError where
  | unbalancedQuote (offset : Nat)
  | unbalancedEscape (offset : Nat)
  | invalidEscape (offset : Nat) (source : EscapeError)
  deriving DecidableEq, Repr

namespace SplitError

/-- The offset of the quote or backslash at fault. -/
def offset : SplitError → Nat
  | unbalancedQuote n => n
  | unbalancedEscape n => n
  | invalidEscape n _ => n

/-- The wording of a split error. -/
def message : SplitError → String
  | unbalancedQuote n => "unbalanced quote starting at offset " ++ toString n
  | unbalancedEscape n => "unbalanced escape at offset " ++ toString n
  | invalidEscape n source =>
    "invalid escape at offset " ++ toString n ++ ": " ++ source.message

end SplitError

/-! ### Cursors -/

/-- The text from some offset on. -/
structure Cursor where
  offset : Nat
  chars : List Char
  deriving DecidableEq, Repr

namespace Cursor

/-- The cursor `n` characters further on, or at the end of the text. -/
def advance (n : Nat) (c : Cursor) : Cursor := ⟨c.offset + n, c.chars.drop n⟩

/-- The cursor at the first character that is no separator. -/
def skip (separators : List Char) (c : Cursor) : Cursor :=
  c.advance (c.chars.takeWhile separators.contains).length

/-- The cursor, unless nothing is left. -/
def nonempty? (c : Cursor) : Option Cursor := if c.chars.isEmpty then none else some c

theorem length_advance (n : Nat) (c : Cursor) :
    (c.advance n).chars.length = c.chars.length - n := List.length_drop

theorem length_skip_le (separators : List Char) (c : Cursor) :
    (c.skip separators).chars.length ≤ c.chars.length := by
  rw [skip, length_advance]
  omega

end Cursor

/-! ### Steps -/

/-- An open quote: its mark and where it stands. -/
structure Quote where
  mark : Char
  offset : Nat
  deriving DecidableEq, Repr

/-- What a step of the scan does. -/
inductive Step where
  /-- Adds bytes to the word and goes on. -/
  | emit (bytes : List UInt8) (quote : Option Quote) (rest : Cursor)
  /-- Adds bytes to the word and ends it. -/
  | stop (bytes : List UInt8) (rest : Option Cursor)
  /-- Gives up. -/
  | fail (error : SplitError)
  deriving DecidableEq, Repr

/-- Whether `c` is one of the two quote marks. -/
def isQuoteMark (c : Char) : Bool := c == '\'' || c == '"'

/-- The bytes of a backslash. -/
def backslash : List UInt8 := String.utf8EncodeChar '\\'

/-- The bytes of a quote mark in the word. -/
def quoteBytes (flags : SplitFlags) (mark : Char) : List UInt8 :=
  if flags.dropQuotes then [] else String.utf8EncodeChar mark

/-- The escape that the text after a backslash holds, as far as the flags let it be decoded. -/
def escape (flags : SplitFlags) (c : Char) (s : List Char) : Except EscapeError (Decoded × Nat) :=
  if flags.unescape then Escape.decode false (c :: s)
  else if flags.unescapeSeparators then .error (.unknown c)
  else .ok (.char c, 1)

/-- The step at a backslash, where `start` is its offset and `s` what follows it. -/
def escapeStep (flags : SplitFlags) (separators : List Char) (quote : Option Quote) (start : Nat)
    (s : List Char) : Step :=
  match s with
  | [] =>
    if flags.keepUnknownEscapes && (quote.isNone || flags.relax) then .stop backslash none
    else if flags.relax then .stop [] none
    else .fail (.unbalancedEscape start)
  | c :: rest =>
    match escape flags c rest with
    | .ok (decoded, n) => .emit decoded.bytes quote ⟨start + 1 + n, s.drop n⟩
    | .error e =>
      if flags.unescapeSeparators && (separators.contains c || c == '\\') then
        .emit (String.utf8EncodeChar c) quote ⟨start + 2, rest⟩
      else if flags.keepUnknownEscapes then
        .emit (backslash ++ String.utf8EncodeChar c) quote ⟨start + 2, rest⟩
      else .fail (.invalidEscape start e)

/-- What is left after a word that ends at a separator, where the cursor stands. -/
def afterWord (flags : SplitFlags) (separators : List Char) (c : Cursor) : Option Cursor :=
  if flags.leaveSeparators then some c
  else if flags.separateEach then some (c.advance 1)
  else (c.skip separators).nonempty?

/-- The step at a character inside a quote. -/
def quotedStep (flags : SplitFlags) (quote : Quote) (c : Char) (rest : Cursor) : Step :=
  if c == quote.mark then .emit (quoteBytes flags c) none rest
  else .emit (String.utf8EncodeChar c) (some quote) rest

/-- The step at a character outside quotes. -/
def plainStep (flags : SplitFlags) (separators : List Char) (c : Char) (start : Cursor) : Step :=
  if flags.quoting && isQuoteMark c then
    .emit (quoteBytes flags c) (some ⟨c, start.offset⟩) (start.advance 1)
  else if separators.contains c then .stop [] (afterWord flags separators start)
  else .emit (String.utf8EncodeChar c) none (start.advance 1)

/-- The step at the end of the text. -/
def endStep (flags : SplitFlags) : Option Quote → Step
  | none => .stop [] none
  | some quote => if flags.relax then .stop [] none else .fail (.unbalancedQuote quote.offset)

/-- One step of the scan at the cursor. -/
def step (flags : SplitFlags) (separators : List Char) (quote : Option Quote) (start : Cursor) :
    Step :=
  match start.chars with
  | [] => endStep flags quote
  | c :: s =>
    if flags.escaping && c == '\\' then escapeStep flags separators quote start.offset s
    else
      match quote with
      | some q => quotedStep flags q c (start.advance 1)
      | none => plainStep flags separators c start

theorem step_emit_lt {flags : SplitFlags} {separators : List Char} {quote quote' : Option Quote}
    {start rest : Cursor} {bytes : List UInt8}
    (h : step flags separators quote start = .emit bytes quote' rest) :
    rest.chars.length < start.chars.length := by
  unfold step at h
  split at h
  · unfold endStep at h
    grind
  · rename_i c s hc
    rw [hc]
    split at h
    · unfold escapeStep at h
      split at h
      · grind
      · split at h
        · cases h
          simp only [List.length_drop, List.length_cons]
          omega
        · grind
    · split at h
      · have := Cursor.length_advance 1 start
        unfold quotedStep at h
        grind
      · have := Cursor.length_advance 1 start
        unfold plainStep at h
        grind

/-! ### Scanning -/

/-- Reads the rest of a word: its bytes, and what is left once the word has ended. -/
def scan (flags : SplitFlags) (separators : List Char) (quote : Option Quote) (start : Cursor) :
    Except SplitError (List UInt8 × Option Cursor) :=
  match _ : step flags separators quote start with
  | .fail e => .error e
  | .stop bytes rest => .ok (bytes, rest)
  | .emit bytes quote' next =>
    match scan flags separators quote' next with
    | .error e => .error e
    | .ok (more, rest) => .ok (bytes ++ more, rest)
termination_by start.chars.length
decreasing_by exact step_emit_lt ‹_›

/-- What extracting a word gives: the word, if there is one, and what is left, if anything. -/
structure Extraction where
  word : Option Word
  rest : Option Cursor
  deriving DecidableEq, Repr

/-- Reads a word that starts at the cursor. -/
def word (flags : SplitFlags) (separators : List Char) (start : Cursor) :
    Except SplitError Extraction :=
  match scan flags separators none start with
  | .error e => .error e
  | .ok (bytes, rest) =>
    .ok ⟨some ⟨String.ofList (Text.Utf8.decodeLossy bytes), start.offset⟩, rest⟩

/-- The empty word at the cursor. -/
def emptyWord (start : Cursor) : Word := ⟨"", start.offset⟩

/-- Extracts the next word. Separators before it are skipped, unless each of them ends a word. -/
def extract (flags : SplitFlags) (separators : List Char) (start : Cursor) :
    Except SplitError Extraction :=
  if flags.separateEach then
    match start.chars with
    | [] => .ok ⟨some (emptyWord start), none⟩
    | c :: _ =>
      if separators.contains c then
        .ok ⟨some (emptyWord start), afterWord flags separators start⟩
      else word flags separators start
  else
    match (start.skip separators).nonempty? with
    | none => .ok ⟨none, none⟩
    | some first => word flags separators first

end UnitLint.Words
