import Mathlib.Data.List.Basic
import UnitLint.Text.Lines

/-! # Texts and their lines

A text that is empty or ends with a line feed has its lines before those of any text after it
(`lines_append`), and lines written with a line feed after each are read back (`lines_cons_line`).
No line has a line feed (`newline_notMem_of_mem_lines`). -/

namespace UnitLint.Text

/-- A text that ends with a line feed, if it is not empty. -/
def Terminated (s : List Char) : Prop := s = [] ∨ s.getLast? = some '\n'

instance (s : List Char) : Decidable (Terminated s) := by unfold Terminated; infer_instance

/-- The line of a number; lines count from 1. -/
def lineAt? (ls : List (List Char)) : Nat → Option (List Char)
  | 0 => none
  | n + 1 => ls[n]?

theorem lineAt?_append_cons (before : List (List Char)) (l : List Char)
    (after : List (List Char)) : lineAt? (before ++ l :: after) (before.length + 1) = some l := by
  rw [lineAt?, List.getElem?_append_right (Nat.le_refl _), Nat.sub_self]
  rfl

theorem exists_lineAt? {ls : List (List Char)} {n : Nat} (h : 0 < n) (h' : n ≤ ls.length) :
    ∃ l, lineAt? ls n = some l := by
  obtain ⟨k, rfl⟩ := Nat.exists_eq_add_of_lt h
  rw [Nat.zero_add] at h' ⊢
  exact ⟨ls[k], List.getElem?_eq_getElem h'⟩

/-- A character that starts no end mark belongs to the first line. -/
theorem lines_cons {c : Char} {s : List Char} (h : c ≠ '\n')
    (h' : c = '\r' → s.head? ≠ some '\n') :
    lines (c :: s) = (c :: (lines s).headD []) :: (lines s).tail := by
  rw [lines.eq_4]
  · split <;> simp [*]
  · exact h
  · rintro t hc rfl
    exact h' hc rfl

/-- What follows a line feed has lines of its own. -/
theorem lines_append_newline (t : List Char) :
    ∀ s : List Char, lines (s ++ '\n' :: t) = lines (s ++ ['\n']) ++ lines t
  | [] => by simp [lines]
  | [c] => by
    by_cases hn : c = '\n'
    · subst hn; simp [lines]
    · by_cases hr : c = '\r'
      · subst hr; simp [lines]
      · rw [List.singleton_append, List.singleton_append, lines_cons hn (by simp [hr]),
          lines_cons hn (by simp [hr])]
        simp [lines]
  | c :: d :: s => by
    have ih := lines_append_newline t (d :: s)
    have ih' := lines_append_newline t s
    by_cases hn : c = '\n'
    · subst hn
      show [] :: lines (d :: s ++ '\n' :: t) = [] :: (lines (d :: s ++ ['\n']) ++ lines t)
      rw [ih]
    · by_cases hr : c = '\r' ∧ d = '\n'
      · obtain ⟨rfl, rfl⟩ := hr
        show [] :: lines (s ++ '\n' :: t) = [] :: (lines (s ++ ['\n']) ++ lines t)
        rw [ih']
      · have h' : ∀ u, c = '\r' → (d :: s ++ u).head? ≠ some '\n' := by
          intro u hc hd
          exact hr ⟨hc, by simpa using hd⟩
        have hne : lines (d :: s ++ ['\n']) ≠ [] := by rw [Ne, lines_eq_nil]; simp
        obtain ⟨l, ls, hl⟩ := List.exists_cons_of_ne_nil hne
        show lines (c :: (d :: s ++ '\n' :: t)) = lines (c :: (d :: s ++ ['\n'])) ++ lines t
        rw [lines_cons hn (h' _), lines_cons hn (h' _), ih, hl]
        rfl

/-- **The lines of a terminated text come before those of any text after it.** -/
theorem lines_append {s : List Char} (h : Terminated s) (t : List Char) :
    lines (s ++ t) = lines s ++ lines t := by
  rcases h with rfl | h
  · rfl
  · obtain ⟨s', rfl⟩ : ∃ s', s' ++ ['\n'] = s := by
      refine ⟨s.dropLast, List.dropLast_append_getLast? _ ?_⟩
      rwa [Option.mem_def]
    rw [List.append_assoc, List.singleton_append, lines_append_newline]

/-- **A line written with a line feed after it is read back**, unless it ends with a carriage return
itself. -/
theorem lines_cons_line {l : List Char} (h : '\n' ∉ l) (h' : l.getLast? ≠ some '\r')
    (s : List Char) : lines (l ++ '\n' :: s) = l :: lines s := by
  induction l with
  | nil => simp [lines]
  | cons c l ih =>
    have hc : c ≠ '\n' := fun e => h (e ▸ List.mem_cons_self)
    have hl : '\n' ∉ l := fun m => h (List.mem_cons_of_mem _ m)
    rcases l with _ | ⟨d, l⟩
    · have hr : c ≠ '\r' := by rintro rfl; exact h' rfl
      rw [List.singleton_append, lines_cons hc fun e => absurd e hr]
      simp [lines]
    · have hd : d ≠ '\n' := fun e => hl (e ▸ List.mem_cons_self)
      rw [List.cons_append, lines_cons hc fun _ => by simpa using hd,
        ih hl (by simpa using h')]
      rfl

theorem newline_notMem_of_mem_lines {s l : List Char} (h : l ∈ lines s) : '\n' ∉ l := by
  induction s using lines.induct generalizing l with
  | case1 => cases h
  | case2 s ih =>
    rcases List.mem_cons.mp h with rfl | h
    · exact List.not_mem_nil
    · exact ih h
  | case3 s ih =>
    rcases List.mem_cons.mp h with rfl | h
    · exact List.not_mem_nil
    · exact ih h
  | case4 c s hn hr hs ih =>
    rw [lines.eq_4 _ _ hn hr, hs] at h
    obtain rfl : l = [c] := by simpa using h
    simpa using Ne.symm hn
  | case5 c s hn hr l' ls hs ih =>
    rw [lines.eq_4 _ _ hn hr, hs] at h
    rcases List.mem_cons.mp h with rfl | h
    · rw [List.mem_cons, not_or]
      exact ⟨Ne.symm hn, ih (by rw [hs]; exact List.mem_cons_self)⟩
    · exact ih (by rw [hs]; exact List.mem_cons_of_mem _ h)

end UnitLint.Text
