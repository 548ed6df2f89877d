import UnitLint.Proofs.Words.Row

/-! # Fields with escaped separators

Where each separator ends a word and a backslash makes a separator an ordinary character, any list
of texts can be written as fields with one separator between them: a backslash comes before each
separator and each backslash of a text. The fields are read back, empty ones among them
(`split_escaped`). -/

namespace UnitLint.Words

open Text

variable {flags : SplitFlags} {separators : List Char}

/-- A character of a field. -/
def escapedChar (separators : List Char) (c : Char) : List Char :=
  if separators.contains c || c == '\\' then ['\\', c] else [c]

/-- A text as a field. -/
def escaped (separators : List Char) (text : String) : List Char :=
  text.toList.flatMap (escapedChar separators)

/-- The flags under which fields are read: quotes and other escapes mean nothing. -/
structure ReadsFields (flags : SplitFlags) : Prop where
  unescapeSeparators : flags.unescapeSeparators = true
  separateEach : flags.separateEach = true
  unescape : flags.unescape = false
  literalBackslash : flags.literalBackslash = false
  dropQuotes : flags.dropQuotes = false
  keepQuotes : flags.keepQuotes = false

namespace ReadsFields

variable (h : ReadsFields flags)
include h

theorem escaping : flags.escaping = true := by
  simp [SplitFlags.escaping, h.literalBackslash]

theorem quoting : flags.quoting = false := by
  simp [SplitFlags.quoting, h.dropQuotes, h.keepQuotes]

theorem passing : ReadsFields flags.passing :=
  ⟨h.unescapeSeparators, h.separateEach, h.unescape, h.literalBackslash, h.dropQuotes, h.keepQuotes⟩

theorem adds_escapedChar (c : Char) :
    Adds flags separators none (escapedChar separators c) (String.utf8EncodeChar c) := by
  unfold escapedChar
  by_cases hc : (separators.contains c || c == '\\') = true
  · rw [if_pos hc]
    exact Adds.escaped h.escaping h.unescape h.unescapeSeparators hc
  · have hc' : separators.contains c = false ∧ (c == '\\') = false := by simpa using hc
    rw [if_neg hc]
    exact Adds.plain (by simp [hc'.2]) (by simp [h.quoting]) hc'.1

theorem adds_escaped (text : String) :
    Adds flags separators none (escaped separators text) (Utf8.encode text.toList) :=
  Adds.flatMap h.adds_escapedChar text.toList

/-- An empty field is a word, at a separator as well as at the end of the text. -/
theorem standsFor_nil (hback : separators.contains '\\' = false) :
    StandsFor flags separators [] "" := by
  intro offset rest left hleft
  rw [List.nil_append, extract, if_pos h.separateEach]
  rcases rest with _ | ⟨c, s⟩
  · have hend : scan flags separators none ⟨offset, []⟩ = .ok ([], none) := scan_nil offset
    rw [List.length_nil, Nat.add_zero, hend] at hleft
    cases hleft
    rfl
  · dsimp only
    by_cases hc : separators.contains c = true
    · have hmark : (flags.quoting && isQuoteMark c) = false := by simp [h.quoting]
      rw [List.length_nil, Nat.add_zero, scan_separator hback hmark hc] at hleft
      cases hleft
      rw [if_pos hc]
      rfl
    · have hword : word flags separators ⟨offset, c :: s⟩ = .ok ⟨some ⟨"", offset⟩, left⟩ :=
        word_of_scan hleft
      rw [if_neg hc, hword]

/-- **A field stands for its text.** -/
theorem standsFor_escaped (hback : separators.contains '\\' = false) (text : String) :
    StandsFor flags separators (escaped separators text) text := by
  have hadds : Adds flags separators none (escaped separators text) (Utf8.encode text.toList) :=
    h.adds_escaped text
  rcases htext : text.toList with _ | ⟨c, w⟩
  · have hempty : text = "" := String.toList_eq_nil_iff.mp htext
    rw [hempty]
    exact h.standsFor_nil hback
  · have hstarts : ∃ a s, escaped separators text = a :: s ∧ separators.contains a = false := by
      rw [escaped, htext, List.flatMap_cons, escapedChar]
      by_cases hc : (separators.contains c || c == '\\') = true
      · exact ⟨'\\', _, by rw [if_pos hc]; rfl, hback⟩
      · have hc' : separators.contains c = false ∧ (c == '\\') = false := by simpa using hc
        exact ⟨c, _, by rw [if_neg hc]; rfl, hc'.1⟩
    obtain ⟨a, s, hs, ha⟩ := hstarts
    rw [hs] at hadds ⊢
    exact standsFor_of_adds ha hadds

end ReadsFields

/-- **Fields are read back**: as many as were written, with the same texts, each at the offset at
which it starts. -/
theorem split_escaped (h : ReadsFields flags) (hback : separators.contains '\\' = false)
    (first : String) (ws : List SpacedWord)
    (hgaps : ∀ w ∈ ws, ∃ c, w.gap = [c] ∧ separators.contains c = true) :
    ∃ found, split flags separators (escaped separators first ++ row (escaped separators) ws) =
        .ok found ∧
      found.map (·.text) = first :: ws.map (·.text) ∧
      found = ⟨first, 0⟩ :: placed (escaped separators) (escaped separators first).length ws := by
  have hfaithful : Faithful flags separators (escaped separators) :=
    { standsFor := h.passing.standsFor_escaped hback
      starts := fun heach => by rw [h.separateEach] at heach; cases heach }
  have hgaps' : ∀ w ∈ ws, IsGap flags separators w.gap := by
    intro w hw
    obtain ⟨c, hgap, hc⟩ := hgaps w hw
    rw [hgap]
    exact ⟨List.cons_ne_nil c [], by simpa using hc, by simp [h.quoting], fun _ => rfl⟩
  refine ⟨_, split_row hback hfaithful first ws hgaps', ?_, rfl⟩
  rw [List.map_cons, map_text_placed]

/-- Empty fields at both ends and in the middle, quotes, separators and backslashes in a field. -/
theorem split_escaped_empty :
    let flags : SplitFlags := { unescapeSeparators := true, separateEach := true }
    let more : List SpacedWord := [⟨[','], "'a,\\\""⟩, ⟨[';'], ""⟩, ⟨[','], "\\;"⟩, ⟨[';'], ""⟩]
    ReadsFields flags ∧ (∀ w ∈ more, ∃ c, w.gap = [c] ∧ [',', ';'].contains c = true) ∧
      ∃ found, split flags [',', ';'] (escaped [',', ';'] "" ++ row (escaped [',', ';']) more) =
          .ok found ∧
        found.map (·.text) = ["", "'a,\\\"", "", "\\;", ""] := by
  intro flags more
  have hflags : ReadsFields flags := ⟨rfl, rfl, rfl, rfl, rfl, rfl⟩
  have hgaps : ∀ w ∈ more, ∃ c, w.gap = [c] ∧ [',', ';'].contains c = true := by
    intro w hw
    have hw' : w.gap = [','] ∨ w.gap = [';'] := by
      simp only [more, List.mem_cons, List.not_mem_nil, or_false] at hw
      rcases hw with rfl | rfl | rfl | rfl <;> simp
    rcases hw' with hw' | hw'
    · exact ⟨',', hw', rfl⟩
    · exact ⟨';', hw', rfl⟩
  obtain ⟨found, hsplit, htexts, -⟩ := split_escaped hflags (by decide) "" more hgaps
  exact ⟨hflags, hgaps, found, hsplit, htexts⟩

end UnitLint.Words
