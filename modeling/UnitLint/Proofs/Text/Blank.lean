import Mathlib.Data.List.DropRight
import UnitLint.Text.Blank

/-! # Trimmed text

What trimming keeps. Trimming at the end gives a prefix that ends with no blank, and blanks added at
the end do not change it (`trimEnd_append_blanks`); the text that is trimmed at both ends starts
after the indentation (`trim_prefix_drop_indent`). -/

namespace UnitLint.Text

/-! ### The end of a text -/

@[simp]
theorem trimEnd_nil : trimEnd [] = [] := rfl

theorem trimEnd_prefix (s : List Char) : trimEnd s <+: s := List.rdropWhile_prefix isBlank s

/-- Only blanks are dropped at the end. -/
theorem exists_eq_trimEnd_append (s : List Char) :
    ∃ t, s = trimEnd s ++ t ∧ ∀ c ∈ t, isBlank c = true :=
  ⟨s.rtakeWhile isBlank, List.rdropWhile_append_rtakeWhile.symm,
    fun _ hc => List.mem_rtakeWhile_imp hc⟩

theorem not_isBlank_of_getLast?_trimEnd {s : List Char} {c : Char}
    (h : (trimEnd s).getLast? = some c) : isBlank c = false := by
  have hne : trimEnd s ≠ [] := by rintro h'; rw [h'] at h; cases h
  rw [List.getLast?_eq_some_getLast hne] at h
  rw [← Option.some.inj h]
  exact Bool.eq_false_iff.mpr (List.rdropWhile_last_not isBlank s hne)

theorem trimEnd_ne_nil {s : List Char} {c : Char} (hc : c ∈ s) (h : isBlank c = false) :
    trimEnd s ≠ [] := by
  intro hnil
  obtain ⟨t, ht, hblanks⟩ := exists_eq_trimEnd_append s
  rw [hnil, List.nil_append] at ht
  have := hblanks c (ht ▸ hc)
  rw [h] at this
  cases this

/-- A text keeps its first character if it is not trimmed away. -/
theorem head?_of_head?_trimEnd {s : List Char} {c : Char} (h : (trimEnd s).head? = some c) :
    s.head? = some c := by
  obtain ⟨t, ht⟩ := trimEnd_prefix s
  rw [← ht, List.head?_append, h]
  rfl

theorem trimEnd_eq_self {s : List Char} (h : ∀ c ∈ s.getLast?, isBlank c = false) :
    trimEnd s = s := by
  refine List.rdropWhile_eq_self_iff.mpr fun hne => ?_
  rw [h _ (List.getLast?_eq_some_getLast hne)]
  exact Bool.false_ne_true

theorem trimEnd_trimEnd (s : List Char) : trimEnd (trimEnd s) = trimEnd s :=
  trimEnd_eq_self fun _ hc => not_isBlank_of_getLast?_trimEnd hc

/-- Blanks at the end do not change the trimmed text. -/
theorem trimEnd_append_blanks (s : List Char) {t : List Char} (h : ∀ c ∈ t, isBlank c = true) :
    trimEnd (s ++ t) = trimEnd s := by
  unfold trimEnd
  rw [List.reverse_append, List.dropWhile_append_of_pos fun c hc => h c (List.mem_reverse.mp hc)]

/-! ### The start of a text -/

theorem trimStart_eq_self {s : List Char} (h : ∀ c ∈ s.head?, isBlank c = false) :
    trimStart s = s := by
  rcases s with _ | ⟨c, s⟩
  · rfl
  · exact List.dropWhile_cons_of_neg (by simp [h c rfl])

theorem indent_eq_zero {s : List Char} (h : ∀ c ∈ s.head?, isBlank c = false) : indent s = 0 := by
  have := indent_add_length_trimStart s
  rw [trimStart_eq_self h] at this
  omega

theorem drop_indent (s : List Char) : s.drop (indent s) = trimStart s := by
  have h : s.takeWhile isBlank ++ trimStart s = s := List.takeWhile_append_dropWhile
  calc s.drop (indent s) = (s.takeWhile isBlank ++ trimStart s).drop (indent s) := by rw [h]
    _ = trimStart s := List.drop_left

/-- What comes after something else than blanks does not matter. -/
theorem trimStart_append {s : List Char} (t : List Char) (h : trimStart s ≠ []) :
    trimStart (s ++ t) = trimStart s ++ t := by
  unfold trimStart at h ⊢
  rw [List.dropWhile_append, if_neg (by simpa using h)]

theorem indent_append {s : List Char} (t : List Char) (h : trimStart s ≠ []) :
    indent (s ++ t) = indent s := by
  have hs := indent_add_length_trimStart s
  have hst := indent_add_length_trimStart (s ++ t)
  rw [trimStart_append t h, List.length_append, List.length_append] at hst
  omega

/-- A text that is not blank keeps its last character. -/
theorem getLast?_trimStart {s : List Char} (h : trimStart s ≠ []) :
    (trimStart s).getLast? = s.getLast? := by
  obtain ⟨t, ht⟩ : ∃ t, t ++ trimStart s = s := List.dropWhile_suffix isBlank
  conv_rhs => rw [← ht]
  rw [List.getLast?_append_of_ne_nil _ h]

theorem not_isBlank_of_head?_trimStart {s : List Char} {c : Char}
    (h : (trimStart s).head? = some c) : isBlank c = false := by
  have hhead := List.head?_dropWhile_not isBlank s
  rw [trimStart] at h
  rw [h] at hhead
  exact hhead

/-- The first character that is not blank is in the column. -/
def StartsAt (s : List Char) (column : Nat) : Prop :=
  (∀ c ∈ s.take column, isBlank c = true) ∧ ∃ c, s[column]? = some c ∧ isBlank c = false

/-- A text that is not blank starts after its indentation. -/
theorem startsAt_indent {s : List Char} (h : trimStart s ≠ []) : StartsAt s (indent s) := by
  have htake : s.take (indent s) = s.takeWhile isBlank := by
    have h : s.takeWhile isBlank ++ s.dropWhile isBlank = s := List.takeWhile_append_dropWhile
    calc s.take (indent s) = (s.takeWhile isBlank ++ s.dropWhile isBlank).take (indent s) := by
          rw [h]
      _ = s.takeWhile isBlank := List.take_left
  refine ⟨fun c hc => ?_, (trimStart s).head h, ?_, ?_⟩
  · rw [htake] at hc
    exact List.mem_takeWhile_imp hc
  · rw [← List.head?_drop, drop_indent]
    exact List.head?_eq_some_head h
  · exact not_isBlank_of_head?_trimStart (List.head?_eq_some_head h)

theorem trimStart_eq_nil_iff {s : List Char} : trimStart s = [] ↔ ∀ c ∈ s, isBlank c = true := by
  unfold trimStart
  rw [List.dropWhile_eq_nil_iff]

/-! ### Both ends -/

theorem trim_eq_self {s : List Char} (h : ∀ c ∈ s.head?, isBlank c = false)
    (h' : ∀ c ∈ s.getLast?, isBlank c = false) : trim s = s := by
  rw [trim, trimStart_eq_self h, trimEnd_eq_self h']

/-- Blanks at the start do not change the trimmed text. -/
theorem trim_blanks_append {blanks : List Char} (h : ∀ c ∈ blanks, isBlank c = true)
    (s : List Char) : trim (blanks ++ s) = trim s := by
  rw [trim, trimStart, List.dropWhile_append_of_pos h]
  rfl

theorem not_isBlank_of_head?_trim {s : List Char} {c : Char} (h : (trim s).head? = some c) :
    isBlank c = false := not_isBlank_of_head?_trimStart (head?_of_head?_trimEnd h)

theorem not_isBlank_of_getLast?_trim {s : List Char} {c : Char}
    (h : (trim s).getLast? = some c) : isBlank c = false := not_isBlank_of_getLast?_trimEnd h

theorem trimStart_ne_nil_of_trim {s : List Char} (h : trim s ≠ []) : trimStart s ≠ [] := by
  intro hblank
  rw [trim, hblank] at h
  exact h trimEnd_nil

/-- The trimmed text starts after the indentation. -/
theorem trim_prefix_drop_indent (s : List Char) : trim s <+: s.drop (indent s) := by
  rw [drop_indent]
  exact trimEnd_prefix _

theorem trim_subset (s : List Char) : trim s ⊆ s := fun _ hc =>
  List.mem_of_mem_drop ((trim_prefix_drop_indent s).subset hc)

/-- What the text ends with beside blanks is what the trimmed text ends with. -/
theorem trim_eq_trimStart_trimEnd (s : List Char) : trim s = trimStart (trimEnd s) := by
  obtain ⟨t, ht, hb⟩ := exists_eq_trimEnd_append s
  by_cases hs : trimStart (trimEnd s) = []
  · have hall : ∀ c ∈ s, isBlank c = true := by
      intro c hc
      rw [ht] at hc
      rcases List.mem_append.mp hc with hc | hc
      · exact trimStart_eq_nil_iff.mp hs c hc
      · exact hb c hc
    rw [hs, trim, trimStart_eq_nil_iff.mpr hall, trimEnd_nil]
  · have hlast := getLast?_trimStart hs
    rw [trim]
    conv_lhs => rw [ht]
    rw [trimStart_append t hs, trimEnd_append_blanks _ hb]
    refine trimEnd_eq_self fun c hc => not_isBlank_of_getLast?_trimEnd (s := s) ?_
    rwa [hlast] at hc

theorem trim_trimEnd (s : List Char) : trim (trimEnd s) = trim s := by
  rw [trim_eq_trimStart_trimEnd, trim_eq_trimStart_trimEnd, trimEnd_trimEnd]

/-- Blanks at the end are no indentation, if there is more on the line. -/
theorem indent_trimEnd {s : List Char} (h : trim s ≠ []) : indent (trimEnd s) = indent s := by
  have hstart : trimStart (trimEnd s) ≠ [] := by rwa [← trim_eq_trimStart_trimEnd]
  obtain ⟨t, ht, -⟩ := exists_eq_trimEnd_append s
  conv_rhs => rw [ht]
  exact (indent_append t hstart).symm

/-- A text that is trimmed at its end has its indentation before what is trimmed at both ends. -/
theorem exists_trimEnd_eq {s : List Char} (h : trim s ≠ []) :
    ∃ blanks, trimEnd s = blanks ++ trim s ∧ blanks.length = indent s ∧
      ∀ c ∈ blanks, isBlank c = true := by
  refine ⟨(trimEnd s).takeWhile isBlank, ?_, indent_trimEnd h, fun c hc =>
    List.mem_takeWhile_imp hc⟩
  rw [trim_eq_trimStart_trimEnd]
  exact List.takeWhile_append_dropWhile.symm

end UnitLint.Text
