import UnitLint.Proofs.Lookup.Source
import UnitLint.Proofs.Lookup.Written

/-! # Values that are nothing but marks

No occurrence of a key in a parsed file is empty as it was written, so a key that occurs is found.
What is found may be empty all the same: splicing drops every backslash before a line feed, and a
value may consist of these marks alone, if it goes on over lines that are lone backslashes up to a
blank one. No other value is spliced to nothing (`empty_iff_marks`). -/

namespace UnitLint

open Text Statement

/-- Line feeds, each after a backslash. -/
def marks : Nat → List Char
  | 0 => []
  | n + 1 => '\\' :: '\n' :: marks n

namespace Spliced

theorem splice_marks (offset line n : Nat) : (splice offset line (marks n)).1 = [] := by
  induction n generalizing line with
  | zero => rfl
  | succ n ih =>
    rw [marks, splice_pair]
    exact ih (line + 1)

theorem splice_eq_nil_iff {offset line : Nat} {s : List Char} :
    (splice offset line s).1 = [] ↔ ∃ n, s = marks n := by
  constructor
  · intro h
    induction s using kept_cases generalizing offset line with
    | nil => exact ⟨0, rfl⟩
    | pair s ih =>
      rw [splice_pair] at h
      obtain ⟨n, rfl⟩ := ih h
      exact ⟨n + 1, rfl⟩
    | newline s ih =>
      rw [splice_newline] at h
      cases h
    | kept c s hc hs ih =>
      rw [splice_of_kept hc hs] at h
      cases h
  · rintro ⟨n, rfl⟩
    exact splice_marks offset line n

end Spliced

theorem text_splicedValue_eq_empty_iff {key : String} {v : Value} :
    (splicedValue key v).text = "" ↔ ∃ n, v.text.toList = marks n := by
  have htext : (splicedValue key v).text =
      String.ofList (Spliced.splice 0 v.location.line v.text.toList).1 := rfl
  rw [htext, String.ofList_eq_empty_iff, Spliced.splice_eq_nil_iff]

/-- **When a value is empty.** In a parsed file a key that is looked up whole is found if it occurs.
Each value is that of an occurrence that was not written empty; it is empty exactly if the
occurrence consists of backslashes before line feeds, of which there is at least one. -/
theorem empty_iff_marks {path : Path} {text : String} {u : UnitFile} (h : parse path text = .ok u)
    {f : Field} (hmode : f.mode = .last ∨ f.mode = .all) :
    (lookup u f).found = u.hasKey f.group f.key ∧
    ∀ v ∈ (lookup u f).values, ∃ o ∈ u.valuesOf f.group f.key, v = splicedValue f.key o ∧
      o.text ≠ "" ∧ (v.text = "" ↔ ∃ n, o.text.toList = marks (n + 1)) := by
  constructor
  · have hreset := sinceReset_of_parsed h f.group f.key
    unfold Resolution.found UnitFile.hasKey lookup LookupMode.resolve
    rcases hmode with hmode | hmode
    · rw [hmode]
      cases hlast : (u.valuesOf f.group f.key).getLast? with
      | none => simp [List.getLast?_eq_none_iff.mp hlast]
      | some o =>
        have hne : u.valuesOf f.group f.key ≠ [] := by
          rintro hnil
          rw [hnil] at hlast
          cases hlast
        simp [hne]
    · rw [hmode, hreset]
      simp
  · intro v hv
    obtain ⟨os, hos, hvalues⟩ := values_of_whole u hmode
    rw [hvalues] at hv
    obtain ⟨o, ho, rfl⟩ := List.mem_map.mp hv
    have hne := text_ne_empty_of_parsed h (hos.subset ho)
    refine ⟨o, hos.subset ho, rfl, hne, ?_⟩
    rw [text_splicedValue_eq_empty_iff]
    constructor
    · rintro ⟨n, hn⟩
      rcases n with _ | n
      · exact absurd (String.toList_eq_nil_iff.mp hn) hne
      · exact ⟨n, hn⟩
    · rintro ⟨n, hn⟩
      exact ⟨n + 1, hn⟩

/-- A required key that is continued on a blank line. -/
theorem empty_iff_marks_blank_line :
    let text := "[Kube]\nYaml=\\\n \n"
    let o : Value := ⟨"Yaml", "\\\n", ⟨2, 5⟩⟩
    let u : UnitFile := ⟨⟨"a.kube"⟩, [⟨"Kube", 1, [⟨"Yaml", 0, o⟩]⟩]⟩
    parse ⟨"a.kube"⟩ text = .ok u ∧ (lookup u ⟨"Kube", "Yaml", .last, false⟩).found = true ∧
      (splicedValue "Yaml" o).text = "" := by
  intro text o u
  have hparse : parse ⟨"a.kube"⟩ text = .ok u := by decide +kernel
  obtain ⟨hfound, hvalues⟩ :=
    empty_iff_marks hparse (f := ⟨"Kube", "Yaml", .last, false⟩) (Or.inl rfl)
  refine ⟨hparse, hfound.trans (by decide), ?_⟩
  obtain ⟨o', ho', -, -, hempty⟩ := hvalues (splicedValue "Yaml" o) (by decide)
  obtain rfl : o' = o := List.mem_singleton.mp ho'
  exact hempty.mpr ⟨0, by decide⟩

/-- A parsed file can have an empty value. -/
theorem parsed_value_may_be_empty : ¬ ∀ (path : Path) (text : String) (u : UnitFile),
    parse path text = .ok u → ∀ f : Field, f.mode = .last ∨ f.mode = .all →
      ∀ v ∈ (lookup u f).values, v.text ≠ "" := by
  intro h
  have hparse : parse ⟨"a.kube"⟩ "[Kube]\nYaml=\\\n\n" = .ok ⟨⟨"a.kube"⟩,
      [⟨"Kube", 1, [⟨"Yaml", 0, ⟨"Yaml", "\\\n", ⟨2, 5⟩⟩⟩]⟩]⟩ := by decide +kernel
  refine h _ _ _ hparse ⟨"Kube", "Yaml", .last, false⟩ (Or.inl rfl) ⟨"Yaml", "", ⟨3, 0⟩⟩ ?_ rfl
  decide

end UnitLint
