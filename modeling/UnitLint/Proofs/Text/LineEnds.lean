import UnitLint.Proofs.Text.Blank
import UnitLint.Proofs.Text.Lines

/-! # Lines without the blanks at their ends

Without the blanks at the ends of the lines, a text has its lines character by character, and a
carriage return before a line feed is one of the blanks (`trimmedLines_cons`). So these lines are
the same after line feeds are written as carriage return and line feed (`trimmedLines_withReturns`),
after a line feed is put at the end (`trimmedLines_concat`), and after blanks are put at the end of
a line (`trimmedLines_blanks`). -/

namespace UnitLint.Text

/-- The lines of a text, without the blanks at their ends. -/
def trimmedLines (s : List Char) : List (List Char) := (lines s).map trimEnd

/-- Blanks at the end are still at the end after one more character at the start. -/
theorem trimEnd_cons_trimEnd (c : Char) (s : List Char) :
    trimEnd (c :: trimEnd s) = trimEnd (c :: s) := by
  obtain ⟨t, ht, hblanks⟩ := exists_eq_trimEnd_append s
  conv_rhs => rw [ht]
  exact (trimEnd_append_blanks (c :: trimEnd s) hblanks).symm

theorem trimmedLines_newline (s : List Char) : trimmedLines ('\n' :: s) = [] :: trimmedLines s := rfl

/-- **A character that is no line feed** is on the line of the next one, also before a line feed. -/
theorem trimmedLines_cons {c : Char} (h : c ≠ '\n') (s : List Char) : trimmedLines (c :: s) =
    trimEnd (c :: (trimmedLines s).headD []) :: (trimmedLines s).tail := by
  by_cases hmark : c = '\r' ∧ s.head? = some '\n'
  · obtain ⟨rfl, hs⟩ := hmark
    obtain ⟨t, rfl⟩ := List.head?_eq_some_iff.mp hs
    rfl
  · unfold trimmedLines
    rw [lines_cons h fun hc hs => hmark ⟨hc, hs⟩]
    cases lines s with
    | nil => rfl
    | cons l ls =>
      show trimEnd (c :: l) :: ls.map trimEnd = trimEnd (c :: trimEnd l) :: ls.map trimEnd
      rw [trimEnd_cons_trimEnd]

/-- What comes before two texts with the same lines does not matter. -/
theorem trimmedLines_append {t t' : List Char} (h : trimmedLines t = trimmedLines t')
    (s : List Char) : trimmedLines (s ++ t) = trimmedLines (s ++ t') := by
  induction s with
  | nil => exact h
  | cons c s ih =>
    rw [List.cons_append, List.cons_append]
    by_cases hc : c = '\n'
    · rw [hc, trimmedLines_newline, trimmedLines_newline, ih]
    · rw [trimmedLines_cons hc, trimmedLines_cons hc, ih]

/-! ### Ends of lines -/

/-- The text with a carriage return before every line feed. -/
def withReturns (s : List Char) : List Char :=
  s.flatMap fun c => if c = '\n' then ['\r', '\n'] else [c]

theorem trimmedLines_withReturns (s : List Char) :
    trimmedLines (withReturns s) = trimmedLines s := by
  induction s with
  | nil => rfl
  | cons c s ih =>
    rw [withReturns, List.flatMap_cons, ← withReturns]
    by_cases hc : c = '\n'
    · rw [if_pos hc, hc, trimmedLines_newline, ← ih]
      rfl
    · rw [if_neg hc, List.singleton_append, trimmedLines_cons hc, trimmedLines_cons hc, ih]

/-- A line feed after a last line without one adds no line. -/
theorem trimmedLines_concat {s : List Char} (h : s ≠ []) (h' : s.getLast? ≠ some '\n') :
    trimmedLines (s ++ ['\n']) = trimmedLines s := by
  obtain ⟨s, c, rfl⟩ := List.eq_nil_or_concat s |>.resolve_left h
  have hc : c ≠ '\n' := by simpa using h'
  have hlast : trimmedLines [c, '\n'] = trimmedLines [c] := by
    rw [trimmedLines_cons hc, trimmedLines_cons hc]
    rfl
  rw [List.concat_eq_append, List.append_assoc]
  exact trimmedLines_append hlast s

/-- The text is empty or starts with an end mark. -/
def AtLineEnd (s : List Char) : Prop := s = [] ∨ ['\n'] <+: s ∨ ['\r', '\n'] <+: s

instance (s : List Char) : Decidable (AtLineEnd s) := by unfold AtLineEnd; infer_instance

theorem headD_trimmedLines {rest : List Char} (h : AtLineEnd rest) :
    (trimmedLines rest).headD [] = [] := by
  rcases h with rfl | ⟨t, rfl⟩ | ⟨t, rfl⟩ <;> rfl

/-- The first line of a text that starts with an end mark is empty, and so it is after blanks. -/
theorem trimmedLines_blanks_append {blanks rest : List Char}
    (hblanks : ∀ b ∈ blanks, isBlank b = true ∧ b ≠ '\n') (hrest : AtLineEnd rest) :
    (trimmedLines (blanks ++ rest)).headD [] = [] ∧
      (trimmedLines (blanks ++ rest)).tail = (trimmedLines rest).tail := by
  induction blanks with
  | nil => exact ⟨headD_trimmedLines hrest, rfl⟩
  | cons b blanks ih =>
    obtain ⟨hb, hblanks⟩ := List.forall_mem_cons.mp hblanks
    obtain ⟨hhead, htail⟩ := ih hblanks
    have hblank : trimEnd [b] = [] := trimEnd_append_blanks [] (by simpa using hb.1)
    rw [List.cons_append, trimmedLines_cons hb.2, hhead, htail, hblank]
    exact ⟨rfl, rfl⟩

/-- Blanks that are put at the end of a line are not seen, if the line is not empty. -/
theorem trimmedLines_blanks (s : List Char) {c : Char} (hc : c ≠ '\n') {blanks rest : List Char}
    (hblanks : ∀ b ∈ blanks, isBlank b = true ∧ b ≠ '\n') (hrest : AtLineEnd rest) :
    trimmedLines (s ++ c :: (blanks ++ rest)) = trimmedLines (s ++ c :: rest) := by
  obtain ⟨hhead, htail⟩ := trimmedLines_blanks_append hblanks hrest
  refine trimmedLines_append ?_ s
  rw [trimmedLines_cons hc, trimmedLines_cons hc, hhead, htail, headD_trimmedLines hrest]

end UnitLint.Text
