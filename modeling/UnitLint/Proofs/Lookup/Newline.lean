import UnitLint.Proofs.Lookup.Source
import UnitLint.Proofs.Words.Failure

/-! # Values of one line

In the value of an entry every line feed comes after a backslash, so splicing leaves none
(`newline_notMem_ofValue`). A value that is looked up spliced has none either, and no issue is told
on more than one line. Only a value as it was written may go on over lines, and a word may have line
feeds that it was escaped with. -/

namespace UnitLint

open Text Statement Words

/-! ### Splicing -/

/-- Every line feed of the text comes after a backslash. -/
def Spliced.Marked (s : List Char) : Prop :=
  ∀ before after, s = before ++ '\n' :: after → before.getLast? = some '\\'

namespace Spliced

theorem Marked.tail {c : Char} {s : List Char} (h : Marked (c :: s))
    (hhead : s.head? ≠ some '\n') : Marked s := by
  rintro (_ | ⟨d, before⟩) after rfl
  · exact absurd rfl hhead
  · have hlast := h (c :: d :: before) after rfl
    rwa [List.getLast?_cons_cons] at hlast

/-- The text after a mark is marked, as it does not start with a line feed. -/
theorem Marked.after_pair {s : List Char} (h : Marked ('\\' :: '\n' :: s)) : Marked s := by
  rintro (_ | ⟨c, before⟩) after rfl
  · have hlast := h ['\\', '\n'] after rfl
    cases hlast
  · have hlast := h ('\\' :: '\n' :: c :: before) after rfl
    rwa [List.getLast?_cons_cons, List.getLast?_cons_cons] at hlast

/-- **A marked text is spliced to one line.** -/
theorem newline_notMem_splice {s : List Char} (h : Marked s) (offset line : Nat) :
    '\n' ∉ (splice offset line s).1 := by
  induction s using kept_cases generalizing offset line with
  | nil => exact List.not_mem_nil
  | pair s ih =>
    rw [splice_pair]
    exact ih h.after_pair offset (line + 1)
  | newline s ih =>
    have hlast := h [] s rfl
    cases hlast
  | kept c s hc hs ih =>
    have hhead : s.head? ≠ some '\n' := by
      intro hhead
      obtain ⟨after, rfl⟩ := List.head?_eq_some_iff.mp hhead
      have hlast := h [c] after rfl
      exact hs (Option.some.inj hlast) hhead
    rw [splice_of_kept hc hs]
    intro hmem
    rcases List.mem_cons.mp hmem with hnewline | hmem
    · exact hc hnewline.symm
    · exact ih (h.tail hhead) (offset + 1) line hmem

end Spliced

/-! ### What is looked up -/

/-- The modes that take a value from the spliced text of an occurrence, and split nothing. -/
def LookupMode.isSpliced : LookupMode → Bool
  | last | base | boolean | int | all => true
  | lastRaw | allRaw | allStrv | allArgs | lastArgs | allKeyVal => false

theorem unquote_subset (s : List Char) : (unquote s).1 ⊆ s := by
  unfold unquote
  split
  · split
    · rename_i inner _
      exact List.subset_cons_of_subset '"' (List.dropLast_subset inner)
    · exact List.Subset.refl _
  · exact List.Subset.refl s

/-- A value is an occurrence, spliced, and perhaps without its quotes. -/
theorem exists_of_mem_values {u : UnitFile} {f : Field} (hmode : f.mode.isSpliced = true)
    {v : Value} (hv : v ∈ (lookup u f).values) : ∃ o ∈ u.valuesOf f.group f.key,
      v = splicedValue f.key o ∨ v = baseValue f.key o := by
  obtain ⟨group, key, mode, multiple⟩ := f
  have hfinal := getLast?_toList_sublist (u.valuesOf group key)
  have hlast : ∀ g : Value → Value, v ∈ ((u.valuesOf group key).getLast?.map g).toList →
      ∃ o ∈ u.valuesOf group key, v = g o := by
    intro g hv
    obtain ⟨o, ho, rfl⟩ := Option.map_eq_some_iff.mp (Option.mem_toList.mp hv)
    exact ⟨o, hfinal.subset (Option.mem_toList.mpr ho), rfl⟩
  cases mode with
  | last =>
    obtain ⟨o, ho, hvo⟩ := hlast (splicedValue key) hv
    exact ⟨o, ho, Or.inl hvo⟩
  | base | boolean =>
    obtain ⟨o, ho, hvo⟩ := hlast (baseValue key) hv
    exact ⟨o, ho, Or.inr hvo⟩
  | int =>
    have hkept := (Option.filter_eq_some_iff.mp (Option.mem_toList.mp hv)).1
    obtain ⟨o, ho, hvo⟩ := hlast (baseValue key) (Option.mem_toList.mpr hkept)
    exact ⟨o, ho, Or.inr hvo⟩
  | all =>
    obtain ⟨o, ho, rfl⟩ := List.mem_map.mp hv
    exact ⟨o, (sinceReset_sublist _).subset ho, Or.inl rfl⟩
  | lastRaw | allRaw | allStrv | allArgs | lastArgs | allKeyVal => cases hmode

theorem issues_of_no_words (u : UnitFile) {f : Field} (h : wordReading? f.mode = none) :
    (lookup u f).issues = [] := by
  obtain ⟨group, key, mode, multiple⟩ := f
  cases mode with
  | lastRaw | last | base | boolean | int | allRaw | all => rfl
  | allStrv | allArgs | lastArgs | allKeyVal => cases h

/-- An issue is a failure to split an occurrence. -/
theorem exists_of_mem_issues {u : UnitFile} {f : Field} {issue : SplitIssue}
    (h : issue ∈ (lookup u f).issues) : ∃ o ∈ u.valuesOf f.group f.key, ∃ flags form,
      wordReading? f.mode = some (flags, form) ∧
        (words flags whitespace (Spliced.ofValue o).text).2 = some issue.error := by
  cases hreading : wordReading? f.mode with
  | none =>
    rw [issues_of_no_words u hreading] at h
    cases h
  | some reading =>
    obtain ⟨-, os, hos, hlookup⟩ := lookup_of_words u hreading
    rw [hlookup, splitValues] at h
    obtain ⟨r, hr, h⟩ := List.mem_flatMap.mp h
    obtain ⟨o, ho, rfl⟩ := List.mem_map.mp hr
    obtain ⟨e, he, rfl⟩ := List.mem_map.mp h
    exact ⟨o, hos.subset ho, reading.1, reading.2, rfl, Option.mem_toList.mp he⟩

/-! ### Values of a parsed file -/

section Parsed

variable {path : Path} {text : String} {u : UnitFile} (h : parse path text = .ok u) {f : Field}
include h

/-- A continued value is spliced to one line. -/
theorem newline_notMem_ofValue {group key : String} {o : Value} (ho : o ∈ u.valuesOf group key) :
    '\n' ∉ (Spliced.ofValue o).text := by
  obtain ⟨g, hg, e, he, rfl⟩ := exists_entry_of_mem_valuesOf ho
  have hentry := ((wellFormed_of_parse h).groups g hg).entries e he
  exact Spliced.newline_notMem_splice hentry.line_feed 0 _

/-- **Spliced values stand on one line.** -/
theorem newline_notMem_of_mem_values (hmode : f.mode.isSpliced = true) {v : Value}
    (hv : v ∈ (lookup u f).values) : '\n' ∉ v.text.toList := by
  obtain ⟨o, ho, rfl | rfl⟩ := exists_of_mem_values hmode hv
  · show '\n' ∉ (String.ofList (Spliced.ofValue o).text).toList
    rw [String.toList_ofList]
    exact newline_notMem_ofValue h ho
  · show '\n' ∉ (String.ofList (unquote (trimEnd (Spliced.ofValue o).text)).1).toList
    rw [String.toList_ofList]
    have htrim := trimEnd_prefix (Spliced.ofValue o).text
    exact fun hmem => newline_notMem_ofValue h ho (htrim.subset (unquote_subset _ hmem))

/-- **Issues are told on one line.** -/
theorem newline_notMem_of_mem_issues {issue : SplitIssue} (hissue : issue ∈ (lookup u f).issues) :
    '\n' ∉ issue.error.message.toList := by
  obtain ⟨o, ho, flags, form, -, herror⟩ := exists_of_mem_issues hissue
  exact newline_notMem_of_words herror (newline_notMem_ofValue h ho)

end Parsed

end UnitLint
