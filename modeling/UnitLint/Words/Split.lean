import UnitLint.Words.Extract

/-! # Splitting a text into words

Extraction is repeated on what is left until nothing is. Between two words the separator that ended
the first is always passed, so each extraction leaves a shorter text and the splitting ends. The
words before a failure are kept beside it. -/

namespace UnitLint.Words

/-! ### Extraction makes progress -/

theorem eq_of_nonempty? {c d : Cursor} (h : c.nonempty? = some d) : d = c := by
  unfold Cursor.nonempty? at h
  grind

theorem afterWord_lt {flags : SplitFlags} {separators : List Char} {start rest : Cursor} {c : Char}
    {s : List Char} (hf : flags.leaveSeparators = false) (hc : start.chars = c :: s)
    (hsep : separators.contains c = true) (h : afterWord flags separators start = some rest) :
    rest.chars.length < start.chars.length := by
  unfold afterWord at h
  rw [if_neg (by simp [hf])] at h
  split at h
  · cases h
    rw [Cursor.length_advance, hc]
    simp
  · rw [eq_of_nonempty? h, Cursor.skip, Cursor.length_advance, hc,
      List.takeWhile_cons_of_pos hsep]
    simp only [List.length_cons]
    omega

theorem step_stop_lt {flags : SplitFlags} {separators : List Char} {quote : Option Quote}
    {start rest : Cursor} {bytes : List UInt8} (hf : flags.leaveSeparators = false)
    (h : step flags separators quote start = .stop bytes (some rest)) :
    rest.chars.length < start.chars.length := by
  unfold step at h
  split at h
  · unfold endStep at h
    grind
  · rename_i c s hc
    split at h
    · unfold escapeStep at h
      grind
    · split at h
      · unfold quotedStep at h
        grind
      · unfold plainStep at h
        split at h
        · cases h
        · split at h
          · rename_i hsep
            injection h with _ h
            exact afterWord_lt hf hc hsep h
          · cases h

theorem scan_rest_lt {flags : SplitFlags} {separators : List Char} {quote : Option Quote}
    {start rest : Cursor} {bytes : List UInt8} (hf : flags.leaveSeparators = false)
    (h : scan flags separators quote start = .ok (bytes, some rest)) :
    rest.chars.length < start.chars.length := by
  fun_induction scan flags separators quote start generalizing bytes with
  | case1 => cases h
  | case2 quote start bytes' rest' hs =>
    cases h
    exact step_stop_lt hf hs
  | case3 => cases h
  | case4 quote start bytes' quote' next hs more rest' hscan ih =>
    cases h
    exact Nat.lt_trans (ih hscan) (step_emit_lt hs)

theorem word_rest_lt {flags : SplitFlags} {separators : List Char} {start rest : Cursor}
    {w : Option Word} (hf : flags.leaveSeparators = false)
    (h : word flags separators start = .ok ⟨w, some rest⟩) :
    rest.chars.length < start.chars.length := by
  unfold word at h
  split at h
  · cases h
  · rename_i hs
    cases h
    exact scan_rest_lt hf hs

theorem extract_rest_lt {flags : SplitFlags} {separators : List Char} {start rest : Cursor}
    {w : Option Word} (hf : flags.leaveSeparators = false)
    (h : extract flags separators start = .ok ⟨w, some rest⟩) :
    rest.chars.length < start.chars.length := by
  unfold extract at h
  split at h
  · split at h
    · cases h
    · rename_i c s hc
      split at h
      · rename_i hsep
        injection h with h
        injection h with _ h
        exact afterWord_lt hf hc hsep h
      · exact word_rest_lt hf h
  · split at h
    · cases h
    · rename_i first hfirst
      have hlt := word_rest_lt hf h
      rw [eq_of_nonempty? hfirst] at hlt
      exact Nat.lt_of_lt_of_le hlt (Cursor.length_skip_le separators start)

/-! ### Splitting -/

/-- The flags under which splitting extracts its words. -/
def SplitFlags.passing (flags : SplitFlags) : SplitFlags := { flags with leaveSeparators := false }

/-- The words from the cursor on, up to the end of the text or the first failure. -/
def wordsFrom (flags : SplitFlags) (separators : List Char) (start : Cursor) :
    List Word × Option SplitError :=
  match h : extract flags.passing separators start with
  | .error e => ([], some e)
  | .ok ⟨none, _⟩ => ([], none)
  | .ok ⟨some w, none⟩ => ([w], none)
  | .ok ⟨some w, some rest⟩ =>
    have : rest.chars.length < start.chars.length := extract_rest_lt rfl h
    let following := wordsFrom flags separators rest
    (w :: following.1, following.2)
termination_by start.chars.length

/-- The words of a text before the first failure, and that failure. -/
def words (flags : SplitFlags) (separators input : List Char) : List Word × Option SplitError :=
  wordsFrom flags separators ⟨0, input⟩

/-- All words of a text, or the first failure. -/
def split (flags : SplitFlags) (separators input : List Char) : Except SplitError (List Word) :=
  match words flags separators input with
  | (ws, none) => .ok ws
  | (_, some e) => .error e

/-- The first word of a text and the text after it. Offsets count from the start of the text. -/
def extractFirst (flags : SplitFlags) (separators input : List Char) :
    Except SplitError (Option Word × Option (List Char)) :=
  match extract flags separators ⟨0, input⟩ with
  | .error e => .error e
  | .ok e => .ok (e.word, e.rest.map (·.chars))

end UnitLint.Words
