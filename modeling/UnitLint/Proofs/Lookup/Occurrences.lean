import UnitLint.Lookup.Basic
import UnitLint.Proofs.UnitFile.Invariant

/-! # The occurrences of a key

What a parsed file is like tells what the occurrences of a key in it are like: none is blank, so
none takes back those before it (`sinceReset_of_parsed`), and they come one after another in the
lines of the text (`valuesOf_ordered`). -/

namespace UnitLint

open Text Statement

/-! ### Occurrences that are kept -/

theorem sinceReset_sublist (vs : List Value) : (sinceReset vs).Sublist vs := by
  have hprefix := List.takeWhile_prefix (l := vs.reverse) fun v => !v.text.isEmpty
  have hsublist := hprefix.sublist.reverse
  rwa [List.reverse_reverse] at hsublist

theorem getLast?_toList_sublist (vs : List Value) : vs.getLast?.toList.Sublist vs := by
  rcases List.eq_nil_or_concat vs with rfl | ⟨vs, v, rfl⟩
  · exact List.Sublist.refl []
  · rw [List.concat_eq_append, List.getLast?_concat]
    exact List.sublist_append_right vs [v]

/-- Nothing is taken back if no occurrence is empty. -/
theorem sinceReset_eq_self {vs : List Value} (h : ∀ v ∈ vs, v.text.isEmpty = false) :
    sinceReset vs = vs := by
  unfold sinceReset
  rw [List.takeWhile_eq_self_iff.mpr, List.reverse_reverse]
  intro v hv
  rw [h v (List.mem_reverse.mp hv)]
  rfl

/-! ### Occurrences in a parsed file -/

theorem exists_entry_of_mem_valuesOf {u : UnitFile} {group key : String} {v : Value}
    (h : v ∈ u.valuesOf group key) : ∃ g ∈ u.groups, ∃ e ∈ g.entries, e.value = v := by
  unfold UnitFile.valuesOf UnitFile.group? at h
  cases hg : u.groups.find? (·.name == group) with
  | none => rw [hg] at h; cases h
  | some g =>
    rw [hg] at h
    obtain ⟨e, he, rfl⟩ := List.mem_map.mp h
    exact ⟨g, List.mem_of_find?_eq_some hg, e, (List.mem_filter.mp he).1, rfl⟩

section Parsed

variable {path : Path} {text : String} {u : UnitFile} (h : parse path text = .ok u)
  {group key : String}
include h

/-- An occurrence that was written is not blank. -/
theorem trim_ne_nil_of_parsed {o : Value} (ho : o ∈ u.valuesOf group key) :
    trim o.text.toList ≠ [] := by
  obtain ⟨g, hg, e, he, rfl⟩ := exists_entry_of_mem_valuesOf ho
  have hentry := ((wellFormed_of_parse h).groups g hg).entries e he
  have hne : e.value.text.toList ≠ [] := by
    rw [Ne, String.toList_eq_nil_iff]
    exact hentry.text_ne
  obtain ⟨c, s, hs⟩ := List.exists_cons_of_ne_nil hne
  have hblank : isBlank c = false := hentry.text_head c (by rw [hs]; rfl)
  rw [trim, trimStart_eq_self hentry.text_head, hs]
  exact trimEnd_ne_nil List.mem_cons_self hblank

theorem text_ne_empty_of_parsed {o : Value} (ho : o ∈ u.valuesOf group key) : o.text ≠ "" := by
  intro hempty
  have := trim_ne_nil_of_parsed h ho
  rw [hempty] at this
  exact this rfl

theorem sinceReset_of_parsed (group key : String) :
    sinceReset (u.valuesOf group key) = u.valuesOf group key := by
  refine sinceReset_eq_self fun o ho => ?_
  have hne := text_ne_empty_of_parsed h ho
  rwa [String.isEmpty_eq_false_iff]

/-- A key that occurs has a value that is not blank. -/
theorem hasKey_eq_hasValue (group key : String) : u.hasKey group key = u.hasValue group key := by
  unfold UnitFile.hasKey UnitFile.hasValue
  cases hlast : (u.valuesOf group key).getLast? with
  | none => rw [List.getLast?_eq_none_iff.mp hlast]; rfl
  | some o =>
    have ho := List.mem_of_getLast? hlast
    have hne := List.isEmpty_eq_false_iff.mpr (List.ne_nil_of_mem ho)
    have htrim := List.isEmpty_eq_false_iff.mpr (trim_ne_nil_of_parsed h ho)
    rw [hne]
    exact (congrArg not htrim).symm

/-- **Occurrences come one after another**: each ends on a line before the next starts. -/
theorem valuesOf_ordered (group key : String) :
    (u.valuesOf group key).Pairwise fun v w => v.lastLine < w.location.line := by
  unfold UnitFile.valuesOf
  split
  · exact List.Pairwise.nil
  · rename_i g hg
    have hspans := spans_ordered_of_parse h (List.mem_of_find?_eq_some hg)
    have hentries : g.entries.Pairwise fun e f => e.value.lastLine < f.value.location.line :=
      List.pairwise_map.mp (List.pairwise_cons.mp hspans).2
    exact List.pairwise_map.mpr (hentries.sublist List.filter_sublist)

/-- **The invariant of parsed files**, and what it means for probing and looking up: a key that
occurs has a value, and no occurrence takes back those before it. -/
theorem invariant_of_parse : u.WellFormed ∧
    (∀ group key, u.hasKey group key = u.hasValue group key) ∧
    ∀ f : Field, f.mode = .allRaw → lookup u f = ⟨u.valuesOf f.group f.key, []⟩ := by
  refine ⟨wellFormed_of_parse h, hasKey_eq_hasValue h, fun f hmode => ?_⟩
  rw [lookup, hmode, LookupMode.resolve, sinceReset_of_parsed h]

end Parsed

/-- A group that is gone on with, and a value that is continued to the end of the file. -/
theorem invariant_of_parse_gone_on :
    let text := "[A]\nk=1\n[B]\nk=2\n[A]\n k = 3\\\n\n"
    let v : Value := ⟨"k", "1", ⟨2, 2⟩⟩
    let w : Value := ⟨"k", "3\\\n", ⟨6, 5⟩⟩
    let u : UnitFile := ⟨⟨"a.pod"⟩, [⟨"A", 1, [⟨"k", 0, v⟩, ⟨"k", 1, w⟩]⟩,
      ⟨"B", 3, [⟨"k", 0, ⟨"k", "2", ⟨4, 2⟩⟩⟩]⟩]⟩
    parse ⟨"a.pod"⟩ text = .ok u ∧ u.WellFormed ∧ u.hasKey "C" "k" = u.hasValue "C" "k" ∧
      lookup u ⟨"A", "k", .allRaw, true⟩ = ⟨[v, w], []⟩ := by
  intro text v w u
  have hparse : parse ⟨"a.pod"⟩ text = .ok u := by decide +kernel
  obtain ⟨hwell, hprobes, hraw⟩ := invariant_of_parse hparse
  exact ⟨hparse, hwell, hprobes "C" "k", hraw ⟨"A", "k", .allRaw, true⟩ rfl⟩

end UnitLint
