import UnitLint.Proofs.Words.Decoding
import UnitLint.Proofs.Words.Scan

/-! # Open quotes

If a quote is open where the steps of a scan lead, it was opened by a mark that the scan came upon
outside quotes, and nothing after the mark closed it (`Steps.opened`): every such mark was escaped.
An escape sequence has no marks but one right after its backslash: the rest of it is digits. -/

namespace UnitLint.Words

open Text

variable {flags : SplitFlags} {separators : List Char}

/-! ### Quotes that stay open -/

/-- A text in quotes does not close them: every mark in it is escaped. -/
inductive Unclosed (escaping : Bool) (mark : Char) : List Char → Prop
  | nil : Unclosed escaping mark []
  | char {c : Char} {s : List Char} (hmark : c ≠ mark) (hback : (escaping && c == '\\') = false)
    (more : Unclosed escaping mark s) : Unclosed escaping mark (c :: s)
  | escaped {c : Char} {s : List Char} (h : escaping = true) (more : Unclosed escaping mark s) :
    Unclosed escaping mark ('\\' :: c :: s)

/-- A part of a text in quotes after which they are still open. -/
def KeepsOpen (escaping : Bool) (mark : Char) (part : List Char) : Prop :=
  ∀ s, Unclosed escaping mark s → Unclosed escaping mark (part ++ s)

theorem KeepsOpen.nil {escaping : Bool} {mark : Char} : KeepsOpen escaping mark [] := fun _ h => h

theorem KeepsOpen.append {escaping : Bool} {mark : Char} {part part' : List Char}
    (h : KeepsOpen escaping mark part) (h' : KeepsOpen escaping mark part') :
    KeepsOpen escaping mark (part ++ part') := by
  intro s hs
  rw [List.append_assoc]
  exact h _ (h' s hs)

/-- Digits are no marks, and no backslashes. -/
theorem keepsOpen_of_digits {escaping : Bool} {mark : Char} (hmark : isQuoteMark mark = true)
    {s : List Char} (h : ∀ c ∈ s, ∃ d < 16, IsDigit d c) : KeepsOpen escaping mark s := by
  have hdigit : ∀ d < 16, ∀ c, IsDigit d c → isQuoteMark c = false ∧ c ≠ '\\' := by
    have hall : ∀ d < 16,
        (isQuoteMark (Nat.digitChar d) = false ∧ Nat.digitChar d ≠ '\\') ∧
          isQuoteMark (Nat.digitChar d).toUpper = false ∧ (Nat.digitChar d).toUpper ≠ '\\' := by
      decide
    rintro d hd c (rfl | rfl)
    · exact (hall d hd).1
    · exact (hall d hd).2
  intro t ht
  induction s with
  | nil => exact ht
  | cons c s ih =>
    obtain ⟨d, hd, hc⟩ := h c List.mem_cons_self
    obtain ⟨hquote, hback⟩ := hdigit d hd c hc
    refine .char ?_ (by simp [hback]) (ih fun c' hc' => h c' (List.mem_cons_of_mem c hc'))
    rintro rfl
    rw [hmark] at hquote
    cases hquote

/-- After its first character an escape sequence has digits. -/
theorem Escape.IsSequence.digits {c : Char} {s : List Char} {d : Decoded}
    (h : IsSequence (c :: s) d) : ∀ x ∈ s, ∃ d < 16, IsDigit d x := by
  cases h with
  | named => nofun
  | hex h | short h | long h => exact h.exists_digit (by decide)
  | octal h =>
    intro x hx
    obtain ⟨d, hd, hdigit⟩ := h.exists_digit (by decide) x (List.mem_cons_of_mem c hx)
    exact ⟨d, by omega, hdigit⟩

/-- What an escape uses up after its first character are digits. -/
theorem digits_of_escape {c : Char} {s : List Char} {d : Decoded} {k : Nat}
    (h : escape flags c s = .ok (d, k + 1)) : ∀ x ∈ s.take k, ∃ d < 16, IsDigit d x := by
  unfold escape at h
  split at h
  · exact (Escape.isSequence_of_decode h).1.digits
  · split at h <;> cases h
    exact nofun

/-- A backslash and what it escapes keep any quote open. -/
theorem escapeStep_reads (hescaping : flags.escaping = true) {quote quote' : Option Quote}
    {start : Nat} {s : List Char} {bytes : List UInt8} {rest : Cursor}
    (h : escapeStep flags separators quote start s = .emit bytes quote' rest) :
    quote' = quote ∧ ∃ part, (Cursor.mk start ('\\' :: s)).Reads part rest ∧
      ∀ {mark}, isQuoteMark mark = true → KeepsOpen flags.escaping mark part := by
  have hone : ∀ {mark} c, KeepsOpen flags.escaping mark ['\\', c] :=
    fun c s hs => .escaped hescaping hs
  rcases s with _ | ⟨c, s⟩
  · rw [escapeStep] at h
    split at h
    · cases h
    · split at h <;> cases h
  · have hreads : (Cursor.mk start ('\\' :: c :: s)).Reads ['\\', c] ⟨start + 2, s⟩ := ⟨rfl, rfl⟩
    rw [escapeStep] at h
    split at h
    · rename_i d n hescape
      cases h
      obtain ⟨hpos, hn⟩ := length_of_escape hescape
      obtain ⟨k, rfl⟩ := Nat.exists_eq_add_one.mpr hpos
      have htake : (s.take k).length = k := List.length_take_of_le (by omega)
      refine ⟨rfl, ['\\', c] ++ s.take k, ⟨?_, ?_⟩, ?_⟩
      · simp
      · rw [List.length_append, htake]
        show start + 1 + (k + 1) = start + (2 + k)
        omega
      · intro mark hmark
        exact (hone c).append (keepsOpen_of_digits hmark (digits_of_escape hescape))
    · split at h
      · cases h
        exact ⟨rfl, _, hreads, fun _ => hone c⟩
      · split at h <;> cases h
        exact ⟨rfl, _, hreads, fun _ => hone c⟩

/-! ### Where a quote was opened -/

/-- At a quote mark that is not in quotes, a quote is opened. -/
structure Opens (flags : SplitFlags) (start : Cursor) (q : Quote) (rest : Cursor) : Prop where
  quoting : flags.quoting = true
  mark : isQuoteMark q.mark = true
  offset : q.offset = start.offset
  reads : start.Reads [q.mark] rest

/-- A quote that is open after a step was open before and is kept so, or is opened by the step. -/
theorem step_quote {quote : Option Quote} {start rest : Cursor} {bytes : List UInt8} {q : Quote}
    (h : step flags separators quote start = .emit bytes (some q) rest) :
    quote = some q ∧ (∃ part, start.Reads part rest ∧
      (isQuoteMark q.mark = true → KeepsOpen flags.escaping q.mark part)) ∨
    quote = none ∧ Opens flags start q rest := by
  induction quote, start using step_cases flags with
  | nil quote offset =>
    rw [step_nil] at h
    unfold endStep at h
    split at h
    · cases h
    · split at h <;> cases h
  | backslash hescaping quote offset s =>
    rw [step_backslash hescaping] at h
    obtain ⟨hquote, part, hreads, hkeeps⟩ := escapeStep_reads hescaping h
    exact Or.inl ⟨hquote.symm, part, hreads, hkeeps⟩
  | quoted c hc q' offset s =>
    rw [step_quoted hc] at h
    unfold quotedStep at h
    split at h
    · cases h
    · rename_i hmark
      cases h
      refine Or.inl ⟨rfl, [c], reads_cons offset c s, fun _ t ht => ?_⟩
      exact .char (fun heq => hmark (beq_iff_eq.mpr heq)) hc ht
  | plain c hc offset s =>
    rw [step_plain hc] at h
    unfold plainStep at h
    split at h
    · rename_i hopen
      cases h
      obtain ⟨hquoting, hmark⟩ := Bool.and_eq_true_iff.mp hopen
      exact Or.inr ⟨rfl, hquoting, hmark, rfl, reads_cons offset c s⟩
    · split at h <;> cases h

/-- **A quote that is open in the end** was open from the start, or was opened on the way. -/
theorem Steps.opened {quote : Option Quote} {start stop : Cursor} {q : Quote}
    (h : Steps flags separators quote start (some q) stop) :
    quote = some q ∧ (∃ inside, start.Reads inside stop ∧
      (isQuoteMark q.mark = true → KeepsOpen flags.escaping q.mark inside)) ∨
    ∃ first next inside, Steps flags separators quote start none first ∧
      Opens flags first q next ∧ next.Reads inside stop ∧
        KeepsOpen flags.escaping q.mark inside := by
  obtain ⟨last, hlast⟩ : ∃ last, last = some q := ⟨_, rfl⟩
  rw [← hlast] at h
  induction h with
  | refl quote start =>
    exact Or.inl ⟨hlast, [], Cursor.Reads.refl start, fun _ => KeepsOpen.nil⟩
  | head hstep _ ih =>
    rcases ih hlast with ⟨rfl, inside, hreads, hkeeps⟩ | ⟨first, next, inside, hsteps, hopened⟩
    · rcases step_quote hstep with ⟨rfl, part, hreads', hkeeps'⟩ | ⟨rfl, hopens⟩
      · refine Or.inl ⟨rfl, part ++ inside, hreads'.trans hreads, fun hmark => ?_⟩
        exact (hkeeps' hmark).append (hkeeps hmark)
      · exact Or.inr ⟨_, _, inside, .refl none _, hopens, hreads, hkeeps hopens.mark⟩
    · exact Or.inr ⟨first, next, inside, .head hstep hsteps, hopened⟩

end UnitLint.Words
