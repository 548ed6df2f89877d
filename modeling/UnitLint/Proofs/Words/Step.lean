import UnitLint.Proofs.Words.Escape
import UnitLint.Words.Extract

/-! # What a step looks at

A step of the scan that goes on looks at nothing but the characters that it uses up: it is the same
whatever part of the rest is there (`step_emit`). A step that stops before the end of the text
stands at a separator outside quotes (`step_stop`), and one that fails has a reason (`step_fail`).
Offsets are only added to: the step from another offset is the same step, moved (`step_shift`). What
is done about separators after a word does not change how the word is read (`step_leaving`). -/

namespace UnitLint.Words

/-! ### Escapes under flags -/

theorem length_of_escape {flags : SplitFlags} {c : Char} {s : List Char} {d : Decoded} {n : Nat}
    (h : escape flags c s = .ok (d, n)) : 0 < n ∧ n ≤ s.length + 1 := by
  unfold escape at h
  split at h
  · exact Escape.length_of_decode h
  · split at h
    · cases h
    · cases h
      exact ⟨Nat.one_pos, Nat.le_add_left 1 s.length⟩

theorem escape_append {flags : SplitFlags} {c : Char} {s : List Char} {d : Decoded} {n : Nat}
    (h : escape flags c s = .ok (d, n)) (t : List Char) :
    escape flags c (s ++ t) = .ok (d, n) := by
  unfold escape at h ⊢
  split
  · rename_i hf
    rw [if_pos hf] at h
    exact Escape.decode_append h t
  · rename_i hf
    rwa [if_neg hf] at h

theorem escape_of_append {flags : SplitFlags} {c : Char} {s t : List Char} {d : Decoded} {n : Nat}
    (h : escape flags c (s ++ t) = .ok (d, n)) (hn : n ≤ s.length + 1) :
    escape flags c s = .ok (d, n) := by
  unfold escape at h ⊢
  split
  · rename_i hf
    rw [if_pos hf] at h
    exact Escape.decode_of_append (s := c :: s) h hn
  · rename_i hf
    rwa [if_neg hf] at h

/-- An escape needs the characters of its sequence, and as much of the rest as there is. -/
theorem escape_take {flags : SplitFlags} {c : Char} {s front : List Char} {d : Decoded} {k : Nat}
    (h : escape flags c s = .ok (d, k + 1)) (hfront : front <+: s.drop k) :
    escape flags c (s.take k ++ front) = .ok (d, k + 1) := by
  have hk := (length_of_escape h).2
  obtain ⟨tail, htail⟩ := hfront
  have hs : s = (s.take k ++ front) ++ tail := by
    rw [List.append_assoc, htail, List.take_append_drop]
  rw [hs] at h
  refine escape_of_append h ?_
  rw [List.length_append, List.length_take]
  omega

/-- With less of the rest, an escape that fails may fail otherwise, but it fails. -/
theorem escape_error_of_prefix {flags : SplitFlags} {c : Char} {s front : List Char}
    {e : EscapeError} (h : escape flags c s = .error e) (hfront : front <+: s) :
    ∃ e', escape flags c front = .error e' := by
  obtain ⟨tail, rfl⟩ := hfront
  cases hescape : escape flags c front with
  | error e' => exact ⟨e', rfl⟩
  | ok p =>
    obtain ⟨d, n⟩ := p
    rw [escape_append hescape tail] at h
    cases h

/-! ### The kinds of steps -/

variable {flags : SplitFlags} {separators : List Char}

theorem step_nil (quote : Option Quote) (offset : Nat) :
    step flags separators quote ⟨offset, []⟩ = endStep flags quote := rfl

theorem step_backslash (h : flags.escaping = true) (quote : Option Quote) (offset : Nat)
    (s : List Char) : step flags separators quote ⟨offset, '\\' :: s⟩ =
      escapeStep flags separators quote offset s := by
  simp [step, h]

theorem step_quoted {c : Char} (h : (flags.escaping && c == '\\') = false) (q : Quote)
    (offset : Nat) (s : List Char) : step flags separators (some q) ⟨offset, c :: s⟩ =
      quotedStep flags q c ⟨offset + 1, s⟩ := by
  simp [step, h, Cursor.advance]

theorem step_plain {c : Char} (h : (flags.escaping && c == '\\') = false) (offset : Nat)
    (s : List Char) : step flags separators none ⟨offset, c :: s⟩ =
      plainStep flags separators c ⟨offset, c :: s⟩ := by
  simp [step, h]

/-- The step at a cursor is that of one of these cases. -/
theorem step_cases (flags : SplitFlags) {motive : Option Quote → Cursor → Prop}
    (nil : ∀ quote offset, motive quote ⟨offset, []⟩)
    (backslash : flags.escaping = true → ∀ quote offset s, motive quote ⟨offset, '\\' :: s⟩)
    (quoted : ∀ c, (flags.escaping && c == '\\') = false →
      ∀ q offset s, motive (some q) ⟨offset, c :: s⟩)
    (plain : ∀ c, (flags.escaping && c == '\\') = false → ∀ offset s, motive none ⟨offset, c :: s⟩)
    (quote : Option Quote) (start : Cursor) : motive quote start := by
  obtain ⟨offset, _ | ⟨c, s⟩⟩ := start
  · exact nil quote offset
  · cases hc : flags.escaping && c == '\\' with
    | true =>
      obtain ⟨hescaping, hbackslash⟩ := Bool.and_eq_true_iff.mp hc
      rw [beq_iff_eq] at hbackslash
      subst hbackslash
      exact backslash hescaping quote offset s
    | false =>
      cases quote with
      | some q => exact quoted c hc q offset s
      | none => exact plain c hc offset s

/-! ### Steps that go on -/

/-- From one cursor to another, some characters are read. -/
def Cursor.Reads (c : Cursor) (used : List Char) (d : Cursor) : Prop :=
  c.chars = used ++ d.chars ∧ d.offset = c.offset + used.length

namespace Cursor

theorem Reads.refl (c : Cursor) : c.Reads [] c := ⟨rfl, rfl⟩

theorem Reads.trans {c d e : Cursor} {used used' : List Char} (h : c.Reads used d)
    (h' : d.Reads used' e) : c.Reads (used ++ used') e := by
  refine ⟨?_, ?_⟩
  · rw [h.1, h'.1, List.append_assoc]
  · rw [h'.2, h.2, List.length_append, Nat.add_assoc]

theorem Reads.subset {c d : Cursor} {used : List Char} (h : c.Reads used d) :
    d.chars ⊆ c.chars := by
  rw [h.1]
  exact List.subset_append_right used d.chars

theorem reads_advance {c : Cursor} {n : Nat} (h : n ≤ c.chars.length) :
    c.Reads (c.chars.take n) (c.advance n) := by
  refine ⟨(List.take_append_drop n c.chars).symm, ?_⟩
  rw [List.length_take, Nat.min_eq_left h]
  rfl

theorem reads_skip (separators : List Char) (c : Cursor) :
    c.Reads (c.chars.takeWhile separators.contains) (c.skip separators) := by
  have hprefix := List.takeWhile_prefix (l := c.chars) separators.contains
  have hreads := reads_advance (c := c) hprefix.length_le
  rwa [← List.prefix_iff_eq_take.mp hprefix] at hreads

end Cursor

/-- A step that uses up a character at once. -/
theorem reads_cons (offset : Nat) (c : Char) (s : List Char) :
    (Cursor.mk offset (c :: s)).Reads [c] ⟨offset + 1, s⟩ := ⟨rfl, rfl⟩

theorem quotedStep_eq (flags : SplitFlags) (q : Quote) (c : Char) :
    ∃ bytes quote, ∀ rest, quotedStep flags q c rest = .emit bytes quote rest := by
  by_cases h : (c == q.mark) = true
  · exact ⟨_, _, fun rest => by rw [quotedStep, if_pos h]⟩
  · exact ⟨_, _, fun rest => by rw [quotedStep, if_neg h]⟩

theorem plainStep_eq (flags : SplitFlags) (separators : List Char) (c : Char) (offset : Nat) :
    (∃ bytes quote, ∀ s, plainStep flags separators c ⟨offset, c :: s⟩ =
      .emit bytes quote ⟨offset + 1, s⟩) ∨
    separators.contains c = true ∧ ∀ s, plainStep flags separators c ⟨offset, c :: s⟩ =
      .stop [] (afterWord flags separators ⟨offset, c :: s⟩) := by
  by_cases hmark : (flags.quoting && isQuoteMark c) = true
  · refine Or.inl ⟨quoteBytes flags c, some ⟨c, offset⟩, fun s => ?_⟩
    rw [plainStep, if_pos hmark]
    rfl
  · by_cases hsep : separators.contains c = true
    · exact Or.inr ⟨hsep, fun s => by rw [plainStep, if_neg hmark, if_pos hsep]⟩
    · refine Or.inl ⟨String.utf8EncodeChar c, none, fun s => ?_⟩
      rw [plainStep, if_neg hmark, if_neg hsep]
      rfl

/-- An escape that fails is dropped, kept or reported whatever follows it. -/
theorem escapeStep_of_error (flags : SplitFlags) (separators : List Char) (quote : Option Quote)
    (start : Nat) (c : Char) :
    (∃ bytes, ∀ s e, escape flags c s = .error e →
      escapeStep flags separators quote start (c :: s) = .emit bytes quote ⟨start + 2, s⟩) ∨
    ∀ s e, escape flags c s = .error e →
      escapeStep flags separators quote start (c :: s) = .fail (.invalidEscape start e) := by
  by_cases hsep : (flags.unescapeSeparators && (separators.contains c || c == '\\')) = true
  · exact Or.inl ⟨_, fun s e h => by rw [escapeStep, h]; exact if_pos hsep⟩
  · by_cases hkeep : flags.keepUnknownEscapes = true
    · refine Or.inl ⟨backslash ++ String.utf8EncodeChar c, fun s e h => ?_⟩
      rw [escapeStep, h]
      dsimp only
      rw [if_neg hsep, if_pos hkeep]
    · refine Or.inr fun s e h => ?_
      rw [escapeStep, h]
      dsimp only
      rw [if_neg hsep, if_neg hkeep]

theorem escapeStep_emit {quote quote' : Option Quote} {start : Nat} {s : List Char}
    {bytes : List UInt8} {rest : Cursor}
    (h : escapeStep flags separators quote start s = .emit bytes quote' rest) :
    ∃ used, (Cursor.mk (start + 1) s).Reads used rest ∧
      ∀ front, front <+: rest.chars →
        escapeStep flags separators quote start (used ++ front) =
          .emit bytes quote' ⟨rest.offset, front⟩ := by
  rcases s with _ | ⟨c, s⟩
  · rw [escapeStep] at h
    split at h
    · cases h
    · split at h <;> cases h
  · cases hescape : escape flags c s with
    | ok p =>
      obtain ⟨d, n⟩ := p
      obtain ⟨hpos, hn⟩ := length_of_escape hescape
      obtain ⟨k, rfl⟩ := Nat.exists_eq_add_of_lt hpos
      rw [Nat.zero_add] at *
      rw [escapeStep, hescape] at h
      cases h
      refine ⟨(c :: s).take (k + 1), Cursor.reads_advance hn, fun front hfront => ?_⟩
      have hlength : (s.take k).length = k := List.length_take_of_le (Nat.le_of_succ_le_succ hn)
      rw [List.take_succ_cons, List.cons_append, escapeStep, escape_take hescape hfront]
      dsimp only
      rw [List.drop_succ_cons, List.drop_left' hlength]
    | error e =>
      rcases escapeStep_of_error flags separators quote start c with ⟨bytes', hstep⟩ | hstep
      · rw [hstep s e hescape] at h
        cases h
        refine ⟨[c], reads_cons (start + 1) c s, fun front hfront => ?_⟩
        obtain ⟨e', he'⟩ := escape_error_of_prefix hescape hfront
        exact hstep front e' he'
      · rw [hstep s e hescape] at h
        cases h

/-- **A step that goes on** uses up some characters, and is the same whatever part of the rest is
there. -/
theorem step_emit {quote quote' : Option Quote} {start rest : Cursor} {bytes : List UInt8}
    (h : step flags separators quote start = .emit bytes quote' rest) :
    ∃ used, used ≠ [] ∧ start.Reads used rest ∧
      ∀ front, front <+: rest.chars →
        step flags separators quote ⟨start.offset, used ++ front⟩ =
          .emit bytes quote' ⟨rest.offset, front⟩ := by
  induction quote, start using step_cases flags with
  | nil quote offset =>
    rw [step_nil] at h
    unfold endStep at h
    split at h
    · cases h
    · split at h <;> cases h
  | backslash hescaping quote offset s =>
    rw [step_backslash hescaping] at h
    obtain ⟨used, hreads, hfront⟩ := escapeStep_emit h
    refine ⟨'\\' :: used, List.cons_ne_nil _ _, (reads_cons offset _ s).trans hreads, ?_⟩
    intro front hprefix
    rw [List.cons_append, step_backslash hescaping]
    exact hfront front hprefix
  | quoted c hc q offset s =>
    obtain ⟨bytes', quote, hstep⟩ := quotedStep_eq flags q c
    rw [step_quoted hc, hstep] at h
    cases h
    refine ⟨[c], List.cons_ne_nil c [], reads_cons offset c s, fun front _ => ?_⟩
    rw [List.singleton_append, step_quoted hc, hstep]
  | plain c hc offset s =>
    rcases plainStep_eq flags separators c offset with ⟨bytes', quote, hstep⟩ | ⟨-, hstep⟩
    · rw [step_plain hc, hstep] at h
      cases h
      refine ⟨[c], List.cons_ne_nil c [], reads_cons offset c s, fun front _ => ?_⟩
      rw [List.singleton_append, step_plain hc, hstep]
    · rw [step_plain hc, hstep] at h
      cases h

/-! ### Steps that stop -/

/-- **A step that stops** is at the end of the text, or at a separator outside quotes, whatever
comes after that. -/
theorem step_stop {quote : Option Quote} {start : Cursor} {bytes : List UInt8}
    {rest : Option Cursor} (h : step flags separators quote start = .stop bytes rest) :
    rest = none ∨ (quote = none ∧ bytes = [] ∧ rest = afterWord flags separators start ∧
      ∃ c s, start.chars = c :: s ∧ separators.contains c = true ∧
        ∀ t, step flags separators none ⟨start.offset, c :: t⟩ =
          .stop [] (afterWord flags separators ⟨start.offset, c :: t⟩)) := by
  induction quote, start using step_cases flags with
  | nil quote offset =>
    rw [step_nil] at h
    unfold endStep at h
    refine Or.inl ?_
    split at h
    · cases h
      rfl
    · split at h <;> cases h
      rfl
  | backslash hescaping quote offset s =>
    rw [step_backslash hescaping] at h
    unfold escapeStep at h
    refine Or.inl ?_
    split at h
    · split at h
      · cases h
        rfl
      · split at h <;> cases h
        rfl
    · split at h
      · cases h
      · split at h
        · cases h
        · split at h <;> cases h
  | quoted c hc q offset s =>
    obtain ⟨bytes', quote, hstep⟩ := quotedStep_eq flags q c
    rw [step_quoted hc, hstep] at h
    cases h
  | plain c hc offset s =>
    rcases plainStep_eq flags separators c offset with ⟨bytes', quote, hstep⟩ | ⟨hsep, hstep⟩
    · rw [step_plain hc, hstep] at h
      cases h
    · rw [step_plain hc, hstep] at h
      cases h
      exact Or.inr ⟨rfl, rfl, rfl, c, s, rfl, hsep,
        fun t => (step_plain hc offset t).trans (hstep t)⟩

/-! ### Steps that fail -/

/-- Why a step fails: at the end of the text a quote is open, or a backslash comes last, or what a
backslash starts is no escape. -/
inductive Fails (flags : SplitFlags) : Option Quote → Cursor → SplitError → Prop
  | openQuote {q : Quote} {offset : Nat} (relax : flags.relax = false) :
    Fails flags (some q) ⟨offset, []⟩ (.unbalancedQuote q.offset)
  | openEscape {quote : Option Quote} {offset : Nat} (escaping : flags.escaping = true)
    (relax : flags.relax = false) (keep : flags.keepUnknownEscapes = true → quote ≠ none) :
    Fails flags quote ⟨offset, ['\\']⟩ (.unbalancedEscape offset)
  | noEscape {quote : Option Quote} {offset : Nat} {c : Char} {s : List Char} {e : EscapeError}
    (escaping : flags.escaping = true) (keep : flags.keepUnknownEscapes = false)
    (error : escape flags c s = .error e) :
    Fails flags quote ⟨offset, '\\' :: c :: s⟩ (.invalidEscape offset e)

/-- **A step that fails** does so for one of these reasons. -/
theorem step_fail {quote : Option Quote} {start : Cursor} {e : SplitError}
    (h : step flags separators quote start = .fail e) : Fails flags quote start e := by
  induction quote, start using step_cases flags with
  | nil quote offset =>
    rw [step_nil] at h
    unfold endStep at h
    split at h
    · cases h
    · split at h
      · cases h
      · rename_i hrelax
        cases h
        exact .openQuote (eq_false_of_ne_true hrelax)
  | backslash hescaping quote offset s =>
    rw [step_backslash hescaping] at h
    unfold escapeStep at h
    split at h
    · split at h
      · cases h
      · rename_i hkeep
        split at h
        · cases h
        · rename_i hrelax
          cases h
          refine .openEscape hescaping (eq_false_of_ne_true hrelax) ?_
          rintro hkeep' rfl
          exact hkeep (by simp [hkeep'])
    · split at h
      · cases h
      · rename_i herror
        split at h
        · cases h
        · split at h
          · cases h
          · rename_i hkeep
            cases h
            exact .noEscape hescaping (eq_false_of_ne_true hkeep) herror
  | quoted c hc q offset s =>
    obtain ⟨bytes, quote, hstep⟩ := quotedStep_eq flags q c
    rw [step_quoted hc, hstep] at h
    cases h
  | plain c hc offset s =>
    rcases plainStep_eq flags separators c offset with ⟨bytes, quote, hstep⟩ | ⟨-, hstep⟩ <;>
      rw [step_plain hc, hstep] at h <;> cases h

/-! ### Steps from elsewhere -/

/-- The cursor, `n` characters further on in a longer text. -/
def Cursor.shift (n : Nat) (c : Cursor) : Cursor := ⟨c.offset + n, c.chars⟩

/-- The quote, `n` characters further on. -/
def Quote.shift (n : Nat) (q : Quote) : Quote := ⟨q.mark, q.offset + n⟩

/-- The failure, `n` characters further on. -/
def SplitError.shift (n : Nat) : SplitError → SplitError
  | .unbalancedQuote offset => .unbalancedQuote (offset + n)
  | .unbalancedEscape offset => .unbalancedEscape (offset + n)
  | .invalidEscape offset source => .invalidEscape (offset + n) source

/-- The step, `n` characters further on. -/
def Step.shift (n : Nat) : Step → Step
  | .emit bytes quote rest => .emit bytes (quote.map (Quote.shift n)) (rest.shift n)
  | .stop bytes rest => .stop bytes (rest.map (Cursor.shift n))
  | .fail e => .fail (e.shift n)

theorem Cursor.advance_shift (n k : Nat) (c : Cursor) :
    (c.shift n).advance k = (c.advance k).shift n := by
  unfold shift advance
  rw [Nat.add_right_comm]

theorem Cursor.skip_shift (n : Nat) (c : Cursor) :
    (c.shift n).skip separators = (c.skip separators).shift n :=
  advance_shift n _ c

theorem Cursor.nonempty?_shift (n : Nat) (c : Cursor) :
    (c.shift n).nonempty? = c.nonempty?.map (Cursor.shift n) := by
  unfold nonempty? shift
  split <;> rfl

theorem afterWord_shift (n : Nat) (c : Cursor) : afterWord flags separators (c.shift n) =
    (afterWord flags separators c).map (Cursor.shift n) := by
  unfold afterWord
  split
  · rfl
  · split
    · rw [Cursor.advance_shift]
      rfl
    · rw [Cursor.skip_shift, Cursor.nonempty?_shift]

theorem endStep_shift (n : Nat) (quote : Option Quote) :
    endStep flags (quote.map (Quote.shift n)) = (endStep flags quote).shift n := by
  cases quote with
  | none => rfl
  | some q =>
    rw [Option.map_some, endStep, endStep]
    split <;> rfl

theorem escapeStep_shift (n : Nat) (quote : Option Quote) (start : Nat) (s : List Char) :
    escapeStep flags separators (quote.map (Quote.shift n)) (start + n) s =
      (escapeStep flags separators quote start s).shift n := by
  have hnone : (quote.map (Quote.shift n)).isNone = quote.isNone := by cases quote <;> rfl
  have hadd : ∀ k, start + n + k = start + k + n := fun k => Nat.add_right_comm start n k
  rcases s with _ | ⟨c, s⟩
  · rw [escapeStep, escapeStep, hnone]
    split
    · rfl
    · split <;> rfl
  · rw [escapeStep, escapeStep]
    split
    · rw [hadd 1, Nat.add_right_comm]
      rfl
    · rw [hadd 2]
      split
      · rfl
      · split <;> rfl

theorem quotedStep_shift (n : Nat) (q : Quote) (c : Char) (rest : Cursor) :
    quotedStep flags (q.shift n) c (rest.shift n) = (quotedStep flags q c rest).shift n := by
  unfold quotedStep
  show (if c == q.mark then _ else _) = _
  split <;> rfl

theorem plainStep_shift (n : Nat) (c : Char) (start : Cursor) :
    plainStep flags separators c (start.shift n) =
      (plainStep flags separators c start).shift n := by
  unfold plainStep
  rw [Cursor.advance_shift, afterWord_shift]
  split
  · rfl
  · split <;> rfl

/-- **A step from another offset** is the same step, moved. -/
theorem step_shift (flags : SplitFlags) (separators : List Char) (n : Nat) (quote : Option Quote)
    (start : Cursor) : step flags separators (quote.map (Quote.shift n)) (start.shift n) =
      (step flags separators quote start).shift n := by
  induction quote, start using step_cases flags with
  | nil quote offset =>
    rw [Cursor.shift, step_nil, step_nil, endStep_shift]
  | backslash hescaping quote offset s =>
    rw [Cursor.shift, step_backslash hescaping, step_backslash hescaping, escapeStep_shift]
  | quoted c hc q offset s =>
    rw [Cursor.shift, Option.map_some, step_quoted hc, step_quoted hc, ← quotedStep_shift,
      Cursor.shift, Nat.add_right_comm]
  | plain c hc offset s =>
    rw [Cursor.shift, Option.map_none, step_plain hc, step_plain hc, ← plainStep_shift]
    rfl

/-! ### Steps under other flags -/

/-- The flags under which the separator after a word is left. -/
def SplitFlags.leaving (flags : SplitFlags) : SplitFlags := { flags with leaveSeparators := true }

/-- The step, where something else is left if it stops. -/
def Step.leave (f : Cursor → Option Cursor) : Step → Step
  | .emit bytes quote rest => .emit bytes quote rest
  | .stop bytes rest => .stop bytes (rest.bind f)
  | .fail e => .fail e

/-- **What is done about separators after a word** is done when the word has been read. -/
theorem step_leaving (flags : SplitFlags) (separators : List Char) (quote : Option Quote)
    (start : Cursor) : step flags separators quote start =
      (step flags.leaving separators quote start).leave (afterWord flags separators) := by
  induction quote, start using step_cases flags with
  | nil quote offset =>
    show endStep flags quote = (endStep flags quote).leave _
    unfold endStep
    split
    · rfl
    · split <;> rfl
  | backslash hescaping quote offset s =>
    have hescaping' : flags.leaving.escaping = true := hescaping
    rw [step_backslash hescaping, step_backslash hescaping']
    show escapeStep flags separators quote offset s =
      (escapeStep flags separators quote offset s).leave _
    unfold escapeStep
    split
    · split
      · rfl
      · split <;> rfl
    · split
      · rfl
      · split
        · rfl
        · split <;> rfl
  | quoted c hc q offset s =>
    have hc' : (flags.leaving.escaping && c == '\\') = false := hc
    rw [step_quoted hc, step_quoted hc']
    show quotedStep flags q c ⟨offset + 1, s⟩ = (quotedStep flags q c ⟨offset + 1, s⟩).leave _
    unfold quotedStep
    split <;> rfl
  | plain c hc offset s =>
    have hc' : (flags.leaving.escaping && c == '\\') = false := hc
    rw [step_plain hc, step_plain hc']
    unfold plainStep
    show (if flags.quoting && isQuoteMark c then _ else _) =
      (if flags.quoting && isQuoteMark c then _ else _ : Step).leave _
    split
    · rfl
    · split <;> rfl

end UnitLint.Words
