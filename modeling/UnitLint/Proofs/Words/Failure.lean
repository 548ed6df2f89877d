import UnitLint.Proofs.Failure
import UnitLint.Proofs.Text.Newline
import UnitLint.Proofs.Words.Cause

/-! # What a failure quotes

The message of a failure to split a text may quote a character: one that is no digit, or one that no
escape sequence starts with. It is a character of the text (`mem_of_quoted?`), so what is wrong with
a text of one line is said on one line (`newline_notMem_of_words`). -/

namespace UnitLint.Words

variable {flags : SplitFlags} {separators : List Char} {c : Char}

/-- The character that the message of an escape error quotes. -/
def EscapeError.quoted? : EscapeError → Option Char
  | truncated | nul | outOfRange _ => none
  | invalidDigit c | unknown c => some c

/-- The character that the message of a split error quotes. -/
def SplitError.quoted? : SplitError → Option Char
  | unbalancedQuote _ | unbalancedEscape _ => none
  | invalidEscape _ source => source.quoted?

/-! ### Escape sequences -/

/-- What is no digit is a character of the text. -/
theorem mem_of_digits_error {radix value : Nat} {s : List Char}
    (h : Text.digits radix value s = .error c) : c ∈ s := by
  fun_induction Text.digits radix value s with
  | case1 => cases h
  | case2 value c' s d hd ih => exact List.mem_cons_of_mem c' (ih h)
  | case3 value c' s hd =>
    cases h
    exact List.mem_cons_self

namespace Escape

/-- Only what should be a digit is quoted. -/
theorem mem_of_read_quoted? {form : Form} (hform : form.Bounds) {acceptNul : Bool}
    {s : List Char} {e : EscapeError} (h : form.read acceptNul s = .error e)
    (hc : e.quoted? = some c) : c ∈ s := by
  unfold Form.read at h
  rcases bind_eq_error_iff.mp h with hnumber | ⟨value, -, h⟩
  · unfold number at hnumber
    split at hnumber
    · cases hnumber
      cases hc
    · cases hdigits : Text.digits form.radix 0 (s.take form.count) with
      | ok value =>
        rw [hdigits] at hnumber
        cases hnumber
      | error d =>
        rw [hdigits] at hnumber
        cases hnumber
        obtain rfl := Option.some.inj hc
        exact List.mem_of_mem_take (mem_of_digits_error hdigits)
  · split at h
    · cases h
      cases hc
    · rw [hform value e h] at hc
      cases hc

theorem mem_of_decode_quoted? {acceptNul : Bool} {s : List Char} {e : EscapeError}
    (h : decode acceptNul s = .error e) (hc : e.quoted? = some c) : c ∈ s := by
  rcases s with _ | ⟨d, s⟩
  · cases h
    cases hc
  · induction d using start_cases with
    | named d named hnamed => rw [decode_named hnamed] at h; cases h
    | form d form hnamed hform =>
      rw [decode_form hnamed hform] at h
      cases hread : form.read acceptNul s with
      | ok decoded => rw [hread] at h; cases h
      | error e' =>
        rw [hread] at h
        cases h
        exact List.mem_cons_of_mem d (mem_of_read_quoted? (bounds_of_form? hform) hread hc)
    | octal d hnamed hform hoctal =>
      rw [decode_octal hnamed hform hoctal] at h
      cases hread : octal.read acceptNul (d :: s) with
      | ok decoded => rw [hread] at h; cases h
      | error e' =>
        rw [hread] at h
        cases h
        exact mem_of_read_quoted? bounds_octal hread hc
    | unknown d hnamed hform hoctal =>
      rw [decode_unknown hnamed hform hoctal] at h
      cases h
      obtain rfl := Option.some.inj hc
      exact List.mem_cons_self

end Escape

/-- **A failure quotes the text**: the character that the message of a failure to split a text
quotes is one of the text. -/
theorem mem_of_quoted? {input : List Char} {e : SplitError}
    (h : (words flags separators input).2 = some e) (hc : e.quoted? = some c) : c ∈ input := by
  have hcause := cause_of_split (split_error_iff.mpr h)
  cases hcause with
  | openQuotes | lastBackslash => cases hc
  | noEscape _ _ herror =>
    refine List.mem_append_right _ (List.mem_cons_of_mem '\\' ?_)
    rcases herror with ⟨-, hdecode⟩ | ⟨-, -, rfl⟩
    · exact Escape.mem_of_decode_quoted? hdecode hc
    · obtain rfl := Option.some.inj hc
      exact List.mem_cons_self

/-! ### Messages -/

theorem EscapeError.newline_notMem_message {e : EscapeError} (h : e.quoted? ≠ some '\n') :
    '\n' ∉ e.message.toList := by
  unfold message
  cases e with
  | truncated | nul => decide
  | outOfRange value =>
    have hvalue := Text.newline_notMem_toDigits (by decide : 1 < 16) value
    simp [hvalue]
  | invalidDigit c | unknown c =>
    have hc : '\n' ≠ c := fun hc => h (congrArg some hc.symm)
    simp [hc]

theorem SplitError.newline_notMem_message {e : SplitError} (h : e.quoted? ≠ some '\n') :
    '\n' ∉ e.message.toList := by
  unfold message
  cases e with
  | unbalancedQuote n | unbalancedEscape n => simp
  | invalidEscape n source =>
    have hsource := EscapeError.newline_notMem_message (e := source) h
    simp [hsource]

/-- **What is wrong with one line is said on one line.** -/
theorem newline_notMem_of_words {input : List Char} {e : SplitError}
    (h : (words flags separators input).2 = some e) (hinput : '\n' ∉ input) :
    '\n' ∉ e.message.toList :=
  SplitError.newline_notMem_message fun hquoted => hinput (mem_of_quoted? h hquoted)

end UnitLint.Words
