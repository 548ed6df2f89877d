import Mathlib.Data.List.TakeWhile

/-! # Texts cut at a mark

A text is cut at the first place where it has a mark. The front has none, and what is left starts
with the mark (`eq_of_dropWhile`), or the text has no mark (`dropWhile_eq_nil_iff`). -/

namespace UnitLint.Text

variable {s front : List Char} {c : Char}

theorem bne_of_notMem (h : c ∉ s) : ∀ d ∈ s, (d != c) = true := by
  intro d hd
  rw [bne_iff_ne]
  rintro rfl
  exact h hd

theorem takeWhile_cut (h : c ∉ front) (back : List Char) :
    (front ++ c :: back).takeWhile (· != c) = front := by
  rw [List.takeWhile_append_of_pos (bne_of_notMem h), List.takeWhile_cons_of_neg (by simp),
    List.append_nil]

theorem dropWhile_cut (h : c ∉ front) (back : List Char) :
    (front ++ c :: back).dropWhile (· != c) = c :: back := by
  rw [List.dropWhile_append_of_pos (bne_of_notMem h), List.dropWhile_cons_of_neg (by simp)]

theorem notMem_takeWhile (s : List Char) (c : Char) : c ∉ s.takeWhile (· != c) := by
  intro hc
  simpa using List.mem_takeWhile_imp hc

/-- What is left of a text starts with the mark at which it is cut. -/
theorem eq_of_dropWhile {d : Char} {back : List Char} (h : s.dropWhile (· != c) = d :: back) :
    s = s.takeWhile (· != c) ++ c :: back := by
  obtain rfl : d = c := by
    have hhead := List.head?_dropWhile_not (· != c) s
    rw [h] at hhead
    simpa using hhead
  rw [← h, List.takeWhile_append_dropWhile]

/-- Nothing is left of a text just if it does not have the mark. -/
theorem dropWhile_eq_nil_iff : s.dropWhile (· != c) = [] ↔ c ∉ s := by
  rw [List.dropWhile_eq_nil_iff]
  refine ⟨fun hall hc => ?_, bne_of_notMem⟩
  simpa using hall c hc

end UnitLint.Text
