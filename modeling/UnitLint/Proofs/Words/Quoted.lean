import UnitLint.Proofs.Words.Row

/-! # Words in quotes

Any text can be put between double quotes, with a backslash before every backslash and double quote
in it: blanks, line feeds and single quotes mean nothing there, and an escaped mark does not close
the quote. Words written so are read back, with gaps of separators between them (`split_quoted`).
Only a gap must not start with a single quote, even if that is a separator: a mark opens a quote
before it can end a word (`split_quoted_apostrophe`). -/

namespace UnitLint.Words

open Text

variable {flags : SplitFlags} {separators : List Char}

/-- A character between double quotes. -/
def quotedChar (c : Char) : List Char := if c == '\\' || c == '"' then ['\\', c] else [c]

/-- A text between double quotes. -/
def quoted (text : String) : List Char := '"' :: (text.toList.flatMap quotedChar ++ ['"'])

/-- The flags under which words in quotes are read: a backslash escapes more than separators. -/
structure ReadsQuotes (flags : SplitFlags) : Prop where
  dropQuotes : flags.dropQuotes = true
  literalBackslash : flags.literalBackslash = false
  escapes : flags.unescape = true ∨ flags.unescapeSeparators = false

namespace ReadsQuotes

variable (h : ReadsQuotes flags)
include h

theorem escaping : flags.escaping = true := by
  simp [SplitFlags.escaping, h.literalBackslash]

theorem passing : ReadsQuotes flags.passing := ⟨h.dropQuotes, h.literalBackslash, h.escapes⟩

theorem escape_mark {c : Char} (hc : c = '\\' ∨ c = '"') : escape flags c [] = .ok (.char c, 1) := by
  unfold escape
  cases hunescape : flags.unescape with
  | true => rcases hc with rfl | rfl <;> rfl
  | false =>
    have hseparators : flags.unescapeSeparators = false := by simpa [hunescape] using h.escapes
    rw [hseparators]
    rfl

theorem adds_quotedChar (offset : Nat) (c : Char) : Adds flags separators (some ⟨'"', offset⟩)
    (quotedChar c) (String.utf8EncodeChar c) := by
  unfold quotedChar
  by_cases hc : (c == '\\' || c == '"') = true
  · rw [if_pos hc]
    exact Adds.escape h.escaping (h.escape_mark (by simpa using hc))
  · have hc' : ¬ c = '\\' ∧ ¬ c = '"' := by simpa using hc
    rw [if_neg hc]
    exact Adds.quoted (by simp [hc'.1]) (by simp [hc'.2])

/-! The marks themselves add nothing. -/

theorem step_open (offset : Nat) (s : List Char) : step flags separators none ⟨offset, '"' :: s⟩ =
    .emit [] (some ⟨'"', offset⟩) ⟨offset + 1, s⟩ := by
  have hquoting : (flags.quoting && isQuoteMark '"') = true := by
    simp [SplitFlags.quoting, isQuoteMark, h.dropQuotes]
  rw [step_plain (by simp), plainStep, if_pos hquoting, quoteBytes, if_pos h.dropQuotes]
  rfl

theorem step_close (start offset : Nat) (s : List Char) :
    step flags separators (some ⟨'"', start⟩) ⟨offset, '"' :: s⟩ =
      .emit [] none ⟨offset + 1, s⟩ := by
  rw [step_quoted (by simp), quotedStep, if_pos (by simp), quoteBytes, if_pos h.dropQuotes]

/-- **A text between quotes adds the bytes of the text.** -/
theorem adds_quoted (text : String) :
    Adds flags separators none (quoted text) (Utf8.encode text.toList) := by
  intro offset rest
  have hinner : Adds flags separators (some ⟨'"', offset⟩) (text.toList.flatMap quotedChar)
      (Utf8.encode text.toList) := Adds.flatMap (h.adds_quotedChar offset) text.toList
  have htext : quoted text ++ rest =
      '"' :: (text.toList.flatMap quotedChar ++ '"' :: rest) := by
    simp [quoted]
  have hoffset : offset + (quoted text).length =
      offset + 1 + (text.toList.flatMap quotedChar).length + 1 := by
    simp only [quoted, List.length_cons, List.length_append, List.length_nil]
    omega
  rw [htext, scan_of_emit (h.step_open offset _), hinner, scan_of_emit (h.step_close ..), hoffset]
  cases scan flags separators none
    ⟨offset + 1 + (text.toList.flatMap quotedChar).length + 1, rest⟩ <;> rfl

theorem faithful_quoted (hmark : separators.contains '"' = false) :
    Faithful flags separators quoted where
  standsFor text := standsFor_of_adds hmark (h.passing.adds_quoted text)
  starts _ _ := ⟨'"', _, rfl, hmark⟩

end ReadsQuotes

/-- **Words in quotes are read back**, each at the offset of its opening quote. Without words there
is nothing to read, unless even an empty text is a field. -/
theorem split_quoted (h : ReadsQuotes flags) (hmark : separators.contains '"' = false)
    (hback : separators.contains '\\' = false) :
    (∀ first ws, (∀ w ∈ ws, IsGap flags separators w.gap) →
      split flags separators (quoted first ++ row quoted ws) =
        .ok (⟨first, 0⟩ :: placed quoted (quoted first).length ws)) ∧
      (flags.separateEach = false → split flags separators [] = .ok []) := by
  refine ⟨fun first ws hgaps => ?_, fun heach => ?_⟩
  · exact split_row hback (h.faithful_quoted hmark) first ws hgaps
  · have heach' : flags.passing.separateEach = false := heach
    have hextract : extract flags.passing separators ⟨0, []⟩ = .ok ⟨none, none⟩ :=
      extract_of_skip heach' _
    rw [split, words, wordsFrom_eq_goOn_passing, hextract]
    rfl

/-- An empty word, and one with marks, backslashes, separators and a line feed. -/
theorem split_quoted_marks :
    let flags : SplitFlags := { unescape := true, dropQuotes := true }
    let more : List SpacedWord := [⟨", '".toList, ""⟩, ⟨",".toList, "it's \"a, b\"\n\\"⟩]
    ReadsQuotes flags ∧ [',', ' ', '\''].contains '"' = false ∧
      [',', ' ', '\''].contains '\\' = false ∧
      (∀ w ∈ more, IsGap flags [',', ' ', '\''] w.gap) ∧
      split flags [',', ' ', '\''] (quoted "x" ++ row quoted more) =
        .ok [⟨"x", 0⟩, ⟨"", 6⟩, ⟨"it's \"a, b\"\n\\", 9⟩] := by
  intro flags more
  have hflags : ReadsQuotes flags := ⟨rfl, rfl, Or.inl rfl⟩
  have hgaps : ∀ w ∈ more, IsGap flags [',', ' ', '\''] w.gap := by
    intro w hw
    have hw' : w = ⟨", '".toList, ""⟩ ∨ w = ⟨",".toList, "it's \"a, b\"\n\\"⟩ := by
      simpa [more] using hw
    rcases hw' with rfl | rfl <;> exact ⟨by simp, by simp, by simp [isQuoteMark], by simp [flags]⟩
  refine ⟨hflags, rfl, rfl, hgaps, ?_⟩
  rw [(split_quoted hflags rfl rfl).1 "x" more hgaps]
  decide

/-- A gap that starts with a single quote opens a quote: the second word is not found. -/
theorem split_quoted_apostrophe :
    let flags : SplitFlags := { dropQuotes := true }
    let more : List SpacedWord := [⟨['\''], "b"⟩]
    (flags.dropQuotes = true ∧ flags.literalBackslash = false ∧
        flags.unescapeSeparators = false ∧ flags.separateEach = false) ∧
      (['\''].contains '"' = false ∧ ['\''].contains '\\' = false) ∧
      (∀ w ∈ more, w.gap ≠ [] ∧ ∀ c ∈ w.gap, ['\''].contains c = true) ∧
      split flags ['\''] (quoted "a" ++ row quoted more) = .error (.unbalancedQuote 3) ∧
      split flags ['\''] (quoted "a" ++ row quoted more) ≠
        .ok (⟨"a", 0⟩ :: placed quoted (quoted "a").length more) := by
  intro flags more
  have hgaps : ∀ w ∈ more, w.gap ≠ [] ∧ ∀ c ∈ w.gap, ['\''].contains c = true := by simp [more]
  have hsplit : split flags ['\''] (quoted "a" ++ row quoted more) =
      .error (.unbalancedQuote 3) := by decide +kernel
  refine ⟨⟨rfl, rfl, rfl, rfl⟩, ⟨rfl, rfl⟩, hgaps, hsplit, ?_⟩
  rw [hsplit]
  exact nofun

end UnitLint.Words
