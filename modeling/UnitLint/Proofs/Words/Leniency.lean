import UnitLint.Proofs.Words.Iteration
import Mathlib.Data.List.Infix

/-! # Flags that forgive

Two switches forgive what would be a failure: one an open quote or a backslash at the end, the other
an unknown escape. Turned on, they take nothing back: a text that could be split is split into the
same words, and of a text that could not, the words before the failure stay the first ones
(`split_forgiving`). A step that did not fail is the same, so a scan is, an extraction, and the
whole splitting. -/

namespace UnitLint.Words

variable {flags lax : SplitFlags} {separators : List Char}

/-! ### Laxer flags -/

/-- The flags under which nothing need be closed. -/
def SplitFlags.relaxed (flags : SplitFlags) : SplitFlags := { flags with relax := true }

/-- The flags under which unknown escapes stay as written. -/
def SplitFlags.keeping (flags : SplitFlags) : SplitFlags :=
  { flags with keepUnknownEscapes := true }

/-- Under the second flags, a step that did not fail under the first is the same. -/
structure Laxer (flags lax : SplitFlags) : Prop where
  separateEach : lax.separateEach = flags.separateEach
  leaveSeparators : lax.leaveSeparators = flags.leaveSeparators
  step : ∀ separators quote start, (∃ e, step flags separators quote start = .fail e) ∨
    Words.step lax separators quote start = Words.step flags separators quote start

/-- Only a step at the end of the text or at a backslash looks at the two switches. -/
theorem laxer_of_steps (relax keep : Bool)
    (hlax : lax = { flags with relax := relax, keepUnknownEscapes := keep })
    (hend : ∀ quote, (∃ e, endStep flags quote = .fail e) ∨ endStep lax quote = endStep flags quote)
    (hescape : ∀ separators quote start s,
      (∃ e, escapeStep flags separators quote start s = .fail e) ∨
        escapeStep lax separators quote start s = escapeStep flags separators quote start s) :
    Laxer flags lax := by
  subst hlax
  refine ⟨rfl, rfl, fun separators quote start => ?_⟩
  induction quote, start using step_cases flags with
  | nil quote offset => exact hend quote
  | backslash hescaping quote offset s =>
    rw [step_backslash hescaping, step_backslash (by exact hescaping)]
    exact hescape separators quote offset s
  | quoted c hc q offset s =>
    rw [step_quoted hc, step_quoted (by exact hc)]
    exact Or.inr rfl
  | plain c hc offset s =>
    rw [step_plain hc, step_plain (by exact hc)]
    exact Or.inr rfl

/-- An open quote or a backslash fails at the end of the text, or means what it meant. -/
theorem laxer_relaxed (flags : SplitFlags) : Laxer flags flags.relaxed := by
  refine laxer_of_steps true flags.keepUnknownEscapes rfl (fun quote => ?_)
    fun separators quote start s => ?_
  · rcases quote with _ | q
    · exact Or.inr rfl
    · cases hrelax : flags.relax with
      | true => exact Or.inr (by simp [endStep, SplitFlags.relaxed, hrelax])
      | false => exact Or.inl ⟨.unbalancedQuote q.offset, by simp [endStep, hrelax]⟩
  · rcases s with _ | ⟨c, s⟩
    · -- A backslash that is kept without the switch is kept outside quotes, and so with it.
      cases hrelax : flags.relax with
      | true => exact Or.inr (by simp [escapeStep, SplitFlags.relaxed, hrelax])
      | false =>
        cases hkeep : flags.keepUnknownEscapes && quote.isNone with
        | true =>
          obtain ⟨hkeep, hquote⟩ := Bool.and_eq_true_iff.mp hkeep
          exact Or.inr (by simp [escapeStep, SplitFlags.relaxed, hkeep, hquote])
        | false => exact Or.inl ⟨.unbalancedEscape start, by simp [escapeStep, hrelax, hkeep]⟩
    · exact Or.inr rfl

/-- An unknown escape fails, or means what it meant. A backslash at the end of the text fails too:
were it dropped instead, keeping it would be a change. -/
theorem laxer_keeping (flags : SplitFlags) (hrelax : flags.relax = false) :
    Laxer flags flags.keeping := by
  refine laxer_of_steps flags.relax true rfl (fun quote => Or.inr (by cases quote <;> rfl))
    fun separators quote start s => ?_
  cases hkeep : flags.keepUnknownEscapes with
  | true =>
    have hflags : flags.keeping = flags := by
      unfold SplitFlags.keeping
      rw [← hkeep]
    exact Or.inr (by rw [hflags])
  | false =>
    rcases s with _ | ⟨c, s⟩
    · exact Or.inl ⟨.unbalancedEscape start, by simp [escapeStep, hrelax, hkeep]⟩
    · have hescape : escape flags.keeping c s = escape flags c s := rfl
      cases herror : escape flags c s with
      | ok p => exact Or.inr (by rw [escapeStep, escapeStep, hescape, herror])
      | error e =>
        rw [escapeStep, escapeStep, hescape, herror]
        by_cases hsep : (flags.unescapeSeparators && (separators.contains c || c == '\\')) = true
        · exact Or.inr ((if_pos hsep).trans (if_pos hsep).symm)
        · exact Or.inl ⟨.invalidEscape start e,
            (if_neg hsep).trans (if_neg (ne_true_of_eq_false hkeep))⟩

/-! ### Scans and extractions -/

namespace Laxer

theorem scan (h : Laxer flags lax) {quote : Option Quote} {start : Cursor}
    {p : List UInt8 × Option Cursor} (hscan : Words.scan flags separators quote start = .ok p) :
    Words.scan lax separators quote start = .ok p := by
  have hsame : ∀ {quote start}, (∀ e, Words.step flags separators quote start ≠ .fail e) →
      Words.step lax separators quote start = Words.step flags separators quote start :=
    fun hne => (h.step _ _ _).resolve_left fun ⟨e, he⟩ => hne e he
  induction quote, start using scan_induction flags separators generalizing p with
  | fail quote start e hstep =>
    rw [scan_of_fail hstep] at hscan
    cases hscan
  | stop quote start bytes rest hstep =>
    rw [scan_of_stop hstep] at hscan
    have hlax := hsame fun e he => by rw [hstep] at he; cases he
    rw [scan_of_stop (hlax.trans hstep), hscan]
  | emit quote start bytes quote' next hstep ih =>
    rw [scan_of_emit hstep] at hscan
    have hlax := hsame fun e he => by rw [hstep] at he; cases he
    rw [scan_of_emit (hlax.trans hstep)]
    cases hnext : Words.scan flags separators quote' next with
    | error e => rw [hnext] at hscan; cases hscan
    | ok q => rwa [ih hnext, ← hnext]

theorem word (h : Laxer flags lax) {start : Cursor} {e : Extraction}
    (hword : Words.word flags separators start = .ok e) :
    Words.word lax separators start = .ok e := by
  rw [word_eq] at hword ⊢
  cases hscan : Words.scan flags separators none start with
  | error e' => rw [hscan] at hword; cases hword
  | ok p => rwa [h.scan hscan, ← hscan]

theorem extract (h : Laxer flags lax) {start : Cursor} {e : Extraction}
    (hextract : Words.extract flags separators start = .ok e) :
    Words.extract lax separators start = .ok e := by
  have hafter : ∀ c, afterWord lax separators c = afterWord flags separators c := by
    intro c
    rw [afterWord, afterWord, h.leaveSeparators, h.separateEach]
  unfold Words.extract at hextract ⊢
  rw [h.separateEach]
  split at hextract
  · rename_i heach
    rw [if_pos heach]
    split at hextract
    · exact hextract
    · rename_i c s hchars
      split at hextract
      · rename_i hsep
        rwa [if_pos hsep, hafter]
      · rename_i hsep
        rw [if_neg hsep]
        exact h.word hextract
  · rename_i heach
    rw [if_neg heach]
    split at hextract
    · exact hextract
    · exact h.word hextract

/-! ### Splitting -/

theorem wordsFrom (h : Laxer flags.passing lax.passing) (separators : List Char) (start : Cursor) :
    (Words.wordsFrom flags separators start).1 <+: (Words.wordsFrom lax separators start).1 ∧
      ((Words.wordsFrom flags separators start).2 = none →
        Words.wordsFrom lax separators start = Words.wordsFrom flags separators start) := by
  induction start using wordsFrom.induct flags separators with
  | case1 start e hextract =>
    rw [wordsFrom_eq_goOn_passing start, hextract]
    exact ⟨List.nil_prefix, nofun⟩
  | case2 start rest hextract =>
    rw [wordsFrom_eq_goOn_passing start, wordsFrom_eq_goOn_passing start, hextract,
      h.extract hextract]
    exact ⟨List.prefix_refl _, fun _ => rfl⟩
  | case3 start w hextract =>
    rw [wordsFrom_eq_goOn_passing start, wordsFrom_eq_goOn_passing start, hextract,
      h.extract hextract]
    exact ⟨List.prefix_refl _, fun _ => rfl⟩
  | case4 start w rest hextract hlt ih =>
    rw [wordsFrom_eq_goOn_passing start, wordsFrom_eq_goOn_passing start, hextract,
      h.extract hextract]
    refine ⟨(List.prefix_cons_inj w).mpr ih.1, fun hnone => ?_⟩
    rw [goOn, goOn, ih.2 hnone]

end Laxer

/-- Splitting under the second flags gives all that it gave under the first. -/
structure Conserves (flags lax : SplitFlags) (separators input : List Char) : Prop where
  success : ∀ ws, split flags separators input = .ok ws → split lax separators input = .ok ws
  failure : ∀ ws e, words flags separators input = (ws, some e) →
    ws <+: (words lax separators input).1

theorem Laxer.conserves (h : Laxer flags.passing lax.passing) (input : List Char) :
    Conserves flags lax separators input := by
  obtain ⟨hfront, hsame⟩ := h.wordsFrom separators ⟨0, input⟩
  refine ⟨fun ws hsplit => ?_, fun ws e hwords => ?_⟩
  · have hnone : (words flags separators input).2 = none := exists_split_iff.mp ⟨ws, hsplit⟩
    rw [split, words, hsame hnone]
    exact hsplit
  · rw [words] at hwords
    rwa [hwords] at hfront

/-- **Forgiving is conservative**: what could be split is split into the same words, and the words
before a failure stay the first ones. Unknown escapes are forgiven so where an open end is not. -/
theorem split_forgiving (flags : SplitFlags) (separators input : List Char) :
    Conserves flags flags.relaxed separators input ∧
      (flags.relax = false → Conserves flags flags.keeping separators input) :=
  ⟨(laxer_relaxed flags.passing).conserves input,
    fun hrelax => (laxer_keeping flags.passing hrelax).conserves input⟩

/-- A word before an unknown escape and an open quote. To keep the escape shows one more word. -/
theorem split_forgiving_escape :
    let flags : SplitFlags := { unescape := true, dropQuotes := true }
    let input := "a \\q \"b".toList
    flags.relax = false ∧
      words flags [' '] input = ([⟨"a", 0⟩], some (.invalidEscape 2 (.unknown 'q'))) ∧
      words flags.keeping [' '] input = ([⟨"a", 0⟩, ⟨"\\q", 2⟩], some (.unbalancedQuote 5)) ∧
      [⟨"a", 0⟩] <+: (words flags.relaxed [' '] input).1 ∧
      [⟨"a", 0⟩] <+: (words flags.keeping [' '] input).1 ∧
      split flags.keeping [' '] "a \\n".toList = .ok [⟨"a", 0⟩, ⟨"\n", 2⟩] := by
  intro flags input
  have hrelax : flags.relax = false := rfl
  have hwords : words flags [' '] input =
      ([⟨"a", 0⟩], some (.invalidEscape 2 (.unknown 'q'))) := by decide +kernel
  have hkeeping : words flags.keeping [' '] input =
      ([⟨"a", 0⟩, ⟨"\\q", 2⟩], some (.unbalancedQuote 5)) := by decide +kernel
  have hsplit : split flags [' '] "a \\n".toList = .ok [⟨"a", 0⟩, ⟨"\n", 2⟩] := by
    decide +kernel
  obtain ⟨hrelaxed, hkept⟩ := split_forgiving flags [' '] input
  exact ⟨hrelax, hwords, hkeeping, hrelaxed.failure _ _ hwords, (hkept hrelax).failure _ _ hwords,
    ((split_forgiving flags [' '] _).2 hrelax).success _ hsplit⟩

/-- Where a backslash at the end may be dropped, to keep it is a change. -/
example :
    let flags : SplitFlags := { relax := true, dropQuotes := true }
    split flags [' '] "\"a\\".toList = .ok [⟨"a", 0⟩] ∧
      split flags.keeping [' '] "\"a\\".toList = .ok [⟨"a\\", 0⟩] := by decide +kernel

end UnitLint.Words
