import UnitLint.Proofs.Lookup.Newline
import UnitLint.Proofs.Words.Cause
import UnitLint.Proofs.Words.Leniency

/-! # What issues can be

A text is split under flags that say which failures there can be, and each has its cause in the text
(`failures_have_causes`). The modes that look up words split values under two presets, and under
each preset only one kind of failure is left: an open quote for lists of values, a wrong escape for
lists of arguments. -/

namespace UnitLint

open Text Words

/-- An issue has a cause, under the flags of its mode. -/
theorem cause_of_mem_issues {u : UnitFile} {f : Field} {flags : SplitFlags} {form : WordForm}
    (h : wordReading? f.mode = some (flags, form)) {issue : SplitIssue}
    (hissue : issue ∈ (lookup u f).issues) :
    ∃ o ∈ u.valuesOf f.group f.key,
      Cause flags whitespace (Spliced.ofValue o).text issue.error := by
  obtain ⟨o, ho, flags', form', hreading, herror⟩ := exists_of_mem_issues hissue
  obtain ⟨rfl, rfl⟩ := Prod.mk.inj (Option.some.inj (h.symm.trans hreading))
  exact ⟨o, ho, cause_of_split (split_error_iff.mpr herror)⟩

/-- **Failures point at their causes**, and the flags say which there can be. Where an open end and
unknown escapes are both forgiven, or an open end is and a backslash means nothing, there is none.
Lists of values can only have open quotes, and lists of arguments only wrong escapes. -/
theorem failures_have_causes (flags : SplitFlags) (separators input : List Char) :
    (∀ e, split flags separators input = .error e → Cause flags separators input e) ∧
      (flags.relax = true → flags.keepUnknownEscapes = true ∨ flags.literalBackslash = true →
        ∃ ws, split flags separators input = .ok ws) ∧
      ∀ (u : UnitFile) (f : Field), ∀ issue ∈ (lookup u f).issues,
        (f.mode = .allStrv → ∃ n, issue.error = .unbalancedQuote n) ∧
          (f.mode = .allArgs ∨ f.mode = .lastArgs ∨ f.mode = .allKeyVal →
            ∃ n source, issue.error = .invalidEscape n source) := by
  refine ⟨fun e h => cause_of_split h, fun hrelax h => exists_split_of_forgiving hrelax h input,
    fun u f issue hissue => ⟨fun hmode => ?_, fun hmode => ?_⟩⟩
  · have hreading : wordReading? f.mode = some (.values, .plain) := by rw [hmode]; rfl
    obtain ⟨o, -, hcause⟩ := cause_of_mem_issues hreading hissue
    exact hcause.of_literal rfl
  · obtain ⟨form, hreading⟩ : ∃ form, wordReading? f.mode = some (.arguments, form) := by
      rcases hmode with hmode | hmode | hmode <;> rw [hmode] <;> exact ⟨_, rfl⟩
    obtain ⟨o, -, hcause⟩ := cause_of_mem_issues hreading hissue
    exact (hcause.of_relax rfl).2

/-- Marks in quotes and behind a backslash, quotes that are not closed before a last backslash, and
a value whose words both presets refuse. -/
theorem failures_have_causes_quotes :
    let flags : SplitFlags := { unescape := true, keepUnknownEscapes := true, dropQuotes := true }
    let input := "'\"' \\\" \"a'\\\"b\\".toList
    let v : Value := ⟨"k", "x \\q 'y", ⟨2, 2⟩⟩
    let u : UnitFile := ⟨⟨"a.pod"⟩, [⟨"A", 1, [⟨"k", 2, v⟩]⟩]⟩
    let quoteIssue : SplitIssue := ⟨⟨2, 7⟩, .unbalancedQuote 5⟩
    let escapeIssue : SplitIssue := ⟨⟨2, 4⟩, .invalidEscape 2 (.unknown 'q')⟩
    (split flags [' '] input = .error (.unbalancedEscape 13) ∧
        Cause flags [' '] input (.unbalancedEscape 13)) ∧
      (flags.relaxed.relax = true ∧ flags.relaxed.keepUnknownEscapes = true ∧
        ∃ ws, split flags.relaxed [' '] input = .ok ws) ∧
      (quoteIssue ∈ (lookup u ⟨"A", "k", .allStrv, true⟩).issues ∧
        ∃ n, quoteIssue.error = .unbalancedQuote n) ∧
      escapeIssue ∈ (lookup u ⟨"A", "k", .allArgs, true⟩).issues ∧
        ∃ n source, escapeIssue.error = .invalidEscape n source := by
  intro flags input v u quoteIssue escapeIssue
  have hsplit : split flags [' '] input = .error (.unbalancedEscape 13) := by decide +kernel
  have hquote : quoteIssue ∈ (lookup u ⟨"A", "k", .allStrv, true⟩).issues := by decide +kernel
  have hescape : escapeIssue ∈ (lookup u ⟨"A", "k", .allArgs, true⟩).issues := by decide +kernel
  obtain ⟨hcause, -, hissues⟩ := failures_have_causes flags [' '] input
  obtain ⟨-, hforgiven, -⟩ := failures_have_causes flags.relaxed [' '] input
  exact ⟨⟨hsplit, hcause _ hsplit⟩, ⟨rfl, rfl, hforgiven rfl (Or.inl rfl)⟩,
    ⟨hquote, (hissues u _ _ hquote).1 rfl⟩, hescape, (hissues u _ _ hescape).2 (Or.inl rfl)⟩

end UnitLint
