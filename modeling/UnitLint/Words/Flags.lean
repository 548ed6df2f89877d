/-! # Splitting flags

Nine independent switches say how a text is cut into words, and two presets combine them. -/

namespace UnitLint.Words

/-- The switches of word splitting. -/
structure SplitFlags where
  /-- An open quote or a backslash at the end of the text ends the word instead of failing. -/
  relax : Bool := false
  /-- Escape sequences are decoded. -/
  unescape : Bool := false
  /-- Unknown escapes and a backslash at the end stay as written. -/
  keepUnknownEscapes : Bool := false
  /-- A backslash makes a separator, or another backslash, an ordinary character. -/
  unescapeSeparators : Bool := false
  /-- Quotes hold a word together and stay in it. -/
  keepQuotes : Bool := false
  /-- Quotes hold a word together and are dropped. -/
  dropQuotes : Bool := false
  /-- Every separator ends a word, which may be empty. -/
  separateEach : Bool := false
  /-- A backslash is an ordinary character. -/
  literalBackslash : Bool := false
  /-- The separator that ended a word stays in the rest. -/
  leaveSeparators : Bool := false
  deriving DecidableEq, Repr

namespace SplitFlags

/-- Lists of values: quotes are dropped and backslashes stay. -/
def values : SplitFlags := { dropQuotes := true, literalBackslash := true }

/-- Lists of arguments: quotes are dropped, escapes are decoded, and nothing need be closed. -/
def arguments : SplitFlags := { relax := true, unescape := true, dropQuotes := true }

/-- Every switch that is on in one of the two. -/
def union (f g : SplitFlags) : SplitFlags where
  relax := f.relax || g.relax
  unescape := f.unescape || g.unescape
  keepUnknownEscapes := f.keepUnknownEscapes || g.keepUnknownEscapes
  unescapeSeparators := f.unescapeSeparators || g.unescapeSeparators
  keepQuotes := f.keepQuotes || g.keepQuotes
  dropQuotes := f.dropQuotes || g.dropQuotes
  separateEach := f.separateEach || g.separateEach
  literalBackslash := f.literalBackslash || g.literalBackslash
  leaveSeparators := f.leaveSeparators || g.leaveSeparators

/-- Whether quotes hold words together. -/
def quoting (f : SplitFlags) : Bool := f.keepQuotes || f.dropQuotes

/-- Whether a backslash starts an escape. -/
def escaping (f : SplitFlags) : Bool := !f.literalBackslash

end SplitFlags

/-- The usual separators: space, tab, line feed and carriage return. -/
def whitespace : List Char := [' ', '\t', '\n', '\r']

end UnitLint.Words
