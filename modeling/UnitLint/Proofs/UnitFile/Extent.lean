import Mathlib.Data.List.Pairwise
import UnitLint.Proofs.Text.Lines
import UnitLint.Proofs.UnitFile.Statement
import UnitLint.UnitFile.Parser

/-! # The lines that statements take up

A statement takes up the line that it starts on and, if it is an entry, the lines that continue it.
The statements of a text take up lines of it (`lastLine_le_of_mem_ofText`), and each starts after
the last line of those before it (`ofText_ordered`). -/

namespace UnitLint

open Text

namespace Statement

/-- How many lines continue a statement. -/
def height : Statement → Nat
  | .entry _ _ more => more.length
  | .header _ | .unrecognized => 0

/-- The last line that a statement takes up. -/
def Located.lastLine (s : Located) : Nat := s.line + s.statement.height

theorem Located.line_le_lastLine (s : Located) : s.line ≤ s.lastLine := Nat.le_add_right _ _

/-- The lines after a line are those that continue it, and those that it leaves. -/
theorem height_ofLine (line : List Char) (following : List (List Char)) :
    (ofLine line following).1.height + (ofLine line following).2.length = following.length := by
  unfold ofLine
  split
  · exact Nat.zero_add _
  · rename_i left right _ _
    exact continuation_lengths right following
  · exact Nat.zero_add _

/-- The statements of some lines take up these lines. -/
theorem line_mem_of_mem_ofLines {n : Nat} {ls : List (List Char)} {s : Located}
    (h : s ∈ ofLines n ls) : n ≤ s.line ∧ s.lastLine < n + ls.length := by
  obtain ⟨before, l, after, rfl, -, rfl⟩ := mem_ofLines h
  have hlength := height_ofLine (trim l) after
  refine ⟨Nat.le_add_right n _, ?_⟩
  rw [Located.lastLine, List.length_append, List.length_cons]
  dsimp only
  omega

/-- **Statements take up lines one after another.** -/
theorem ofLines_ordered (n : Nat) (ls : List (List Char)) :
    (ofLines n ls).Pairwise fun s t => s.lastLine < t.line := by
  induction n, ls using ofLines.induct with
  | case1 n =>
    rw [ofLines_nil]
    exact List.Pairwise.nil
  | case2 n l ls hc ih =>
    rw [ofLines_of_comment hc]
    exact ih
  | case3 n l ls hc rest ih =>
    have hc' : isComment (trim l) = false := by simpa using hc
    rw [ofLines_of_statement hc'] at *
    have hlength := height_ofLine (trim l) ls
    refine List.pairwise_cons.mpr ⟨fun t ht => ?_, ih⟩
    have hline := (line_mem_of_mem_ofLines ht).1
    rw [Located.lastLine]
    dsimp only
    omega

/-! ### Statements of a text -/

variable {text : List Char} {s : Located}

theorem ofText_ordered (text : List Char) :
    (ofText text).Pairwise fun s t => s.lastLine < t.line :=
  ofLines_ordered 1 (lines text)

theorem ofText_ascending (text : List Char) : ((ofText text).map (·.line)).Pairwise (· < ·) := by
  rw [List.pairwise_map]
  exact (ofText_ordered text).imp fun h => Nat.lt_of_le_of_lt (Located.line_le_lastLine _) h

/-- **A statement is read from its line** in the text, and from lines after that one. -/
theorem lineAt?_of_mem_ofText (h : s ∈ ofText text) :
    ∃ l after, lineAt? (lines text) s.line = some l ∧ isComment (trim l) = false ∧
      s.indent = indent l ∧ s.statement = (ofLine (trim l) after).1 := by
  obtain ⟨before, l, after, hlines, hc, rfl⟩ := mem_ofLines h
  refine ⟨l, after, ?_, hc, rfl, rfl⟩
  rw [hlines, Nat.add_comm]
  exact lineAt?_append_cons before l after

theorem lastLine_le_of_mem_ofText (h : s ∈ ofText text) : s.lastLine ≤ (lines text).length := by
  have := (line_mem_of_mem_ofLines h).2
  omega

theorem line_pos_of_mem_ofText (h : s ∈ ofText text) : 0 < s.line := (line_mem_of_mem_ofLines h).1

/-- Of two statements one ends before the other starts. -/
theorem apart_of_mem_ofText {t : Located} (hs : s ∈ ofText text) (ht : t ∈ ofText text)
    (hne : s ≠ t) : s.lastLine < t.line ∨ t.lastLine < s.line := by
  let apart : Located → Located → Prop := fun s t => s.lastLine < t.line ∨ t.lastLine < s.line
  have : Std.Symm apart := ⟨fun _ _ => Or.symm⟩
  have hapart : (ofText text).Pairwise apart := (ofText_ordered text).imp Or.inl
  exact hapart.forall hs ht hne

end Statement

end UnitLint
