import Mathlib.Data.List.Infix
import UnitLint.Proofs.UnitFile.Extent
import UnitLint.Proofs.UnitFile.Reading

/-! # Entries and their lines

An entry of a unit file stands in the lines of its text (`Entry.StandsIn`): one line has its key and
the first part of its value, and the lines that continue that line have the other parts. What the
entry is follows from these lines alone. -/

namespace UnitLint

open Text Statement

/-! ### Joined lines -/

namespace Statement

theorem joinLines_cons (s l : List Char) (more : List (List Char)) :
    joinLines s (l :: more) = s ++ '\n' :: joinLines l more := by
  simp [joinLines]

theorem joinLines_eq_intercalate (s : List Char) (more : List (List Char)) :
    joinLines s more = ['\n'].intercalate (s :: more) := by
  induction more generalizing s with
  | nil => simp [joinLines, List.intercalate]
  | cons l more ih =>
    rw [joinLines_cons, ih, List.intercalate_cons_cons]
    simp

/-- Lines that are joined are found again. -/
theorem splitOn_joinLines {s : List Char} {more : List (List Char)}
    (h : ∀ l ∈ s :: more, '\n' ∉ l) : (joinLines s more).splitOn '\n' = s :: more := by
  rw [joinLines_eq_intercalate]
  exact List.splitOn_intercalate '\n' h (List.cons_ne_nil _ _)

theorem count_joinLines {s : List Char} {more : List (List Char)}
    (h : ∀ l ∈ s :: more, '\n' ∉ l) : (joinLines s more).count '\n' = more.length := by
  induction more generalizing s with
  | nil =>
    rw [joinLines, List.flatMap_nil, List.append_nil]
    exact List.count_eq_zero.mpr (h s List.mem_cons_self)
  | cons l more ih =>
    have hs := List.count_eq_zero.mpr (h s List.mem_cons_self)
    rw [joinLines_cons, List.count_append, List.count_cons_self, hs,
      ih fun t ht => h t (List.mem_cons_of_mem s ht), List.length_cons]
    omega

/-- In a continued text every line feed comes after a backslash. -/
theorem getLast?_of_joinLines {s : List Char} {ls : List (List Char)} (hs : '\n' ∉ s)
    (hls : ∀ l ∈ ls, '\n' ∉ l) {before after : List Char}
    (h : joinLines s (continuation s ls).1 = before ++ '\n' :: after) :
    before.getLast? = some '\\' := by
  have hlast : s ≠ before ++ '\n' :: after := by
    rintro rfl
    exact hs (by simp)
  induction ls generalizing s before with
  | nil => exact absurd (by simpa [continuation, joinLines] using h) hlast
  | cons l ls ih =>
    by_cases hc : isContinued s = true
    · have hstart := trimEnd_prefix l
      have hl : '\n' ∉ trimEnd l := fun hmem =>
        hls l List.mem_cons_self (hstart.subset hmem)
      rw [continuation_of_continued hc, joinLines_cons] at h
      rcases List.append_eq_append_iff.mp h with ⟨t, rfl, ht⟩ | ⟨t, rfl, ht⟩
      · rcases t with _ | ⟨c, t⟩
        · rw [List.append_nil]
          exact isContinued_eq_true.mp hc
        · obtain ⟨rfl, htail⟩ := List.cons.inj ht
          have hlast' : trimEnd l ≠ t ++ '\n' :: after := by
            intro heq
            exact hl (heq ▸ by simp)
          have hmarked := ih hl (fun l' hl' => hls l' (List.mem_cons_of_mem l hl')) htail hlast'
          rw [List.getLast?_append, List.getLast?_cons, hmarked]
          rfl
      · rcases t with _ | ⟨c, t⟩
        · rw [List.append_nil] at hc
          exact isContinued_eq_true.mp hc
        · obtain ⟨rfl, -⟩ := List.cons.inj ht
          exact absurd (by simp) hs
    · rw [continuation_of_not_continued (by simpa using hc)] at h
      exact absurd (by simpa [joinLines] using h) hlast

end Statement

/-! ### Entries -/

/-- What an entry is read from, if nothing is wrong with it. -/
theorem eq_of_entry? {line column : Nat} {left right : List Char} {e : Entry}
    (h : entry? line column left right = .ok e) :
    trimStart right ≠ [] ∧ e = ⟨String.ofList (trimEnd left), column,
      ⟨String.ofList (trimEnd left), String.ofList (trimStart right),
        ⟨line, column + left.length + 1 + indent right⟩⟩⟩ := by
  unfold entry? at h
  dsimp only at h
  split at h
  · cases h
  · split at h
    · cases h
    · rename_i htext
      cases h
      exact ⟨by simpa using htext, rfl⟩

/-- The value of an entry starts on its line, after the indentation, the key, the equals sign and
the blanks after it. -/
theorem trimStart_right_prefix_drop {l left right : List Char}
    (h : sides? (trim l) = some (left, right)) :
    trimStart right <+: l.drop (indent l + left.length + 1 + indent right) := by
  have hcons : left ++ '=' :: right = (left ++ ['=']) ++ right := by simp
  have hvalue : (left ++ '=' :: right).drop (left.length + 1 + indent right) =
      trimStart right := by
    rw [hcons, ← List.drop_drop, List.drop_left' (by simp), drop_indent]
  have hcolumn : indent l + left.length + 1 + indent right =
      indent l + (left.length + 1 + indent right) := by omega
  have hline := List.IsPrefix.drop (trim_prefix_drop_indent l) (left.length + 1 + indent right)
  rwa [(eq_of_sides? h).1, hvalue, List.drop_drop, ← hcolumn] at hline

/-- A value that is blank on its first line is not continued. -/
theorem trimStart_ne_nil_of_joinLines {right : List Char} {following : List (List Char)}
    (h : trimStart (joinLines right (continuation right following).1) ≠ []) :
    trimStart right ≠ [] := by
  intro hblank
  have hclosed : isContinued right = false := by
    rw [← Bool.not_eq_true, isContinued_eq_true]
    intro hlast
    have := trimStart_eq_nil_iff.mp hblank '\\' (List.mem_of_getLast? hlast)
    exact absurd this (by decide)
  rw [continuation_of_not_continued hclosed] at h
  exact h (by simpa [joinLines] using hblank)

/-- Blanks before a value do not change what continues it. -/
theorem trimStart_joinLines {right : List Char} (h : trimStart right ≠ [])
    (following : List (List Char)) : trimStart (joinLines right (continuation right following).1) =
      joinLines (trimStart right) (continuation (trimStart right) following).1 := by
  have hlast : isContinued (trimStart right) = isContinued right := by
    rw [isContinued, isContinued, getLast?_trimStart h]
  rw [continuation_congr hlast, joinLines, joinLines, trimStart_append _ h]

/-- The last line that a value takes up. -/
def Value.lastLine (v : Value) : Nat := v.location.line + v.text.toList.count '\n'

namespace Entry

/-- The entry stands in the lines of a text: the line `l`, with `before` before it, has the sides
`left` and `right`, and is continued on some of the lines `after` it. -/
structure StandsIn (text : List Char) (before : List (List Char)) (l : List Char)
    (after : List (List Char)) (left right : List Char) (e : Entry) : Prop where
  lines_eq : lines text = before ++ l :: after
  not_comment : isComment (trim l) = false
  sides : sides? (trim l) = some (left, right)
  value_ne_nil : trimStart right ≠ []
  key_eq : e.key = String.ofList (trimEnd left)
  keyColumn_eq : e.keyColumn = indent l
  valueKey_eq : e.value.key = e.key
  text_eq : e.value.text.toList =
    joinLines (trimStart right) (continuation (trimStart right) after).1
  location_eq : e.value.location =
    ⟨before.length + 1, indent l + left.length + 1 + indent right⟩

namespace StandsIn

variable {text : List Char} {before : List (List Char)} {l : List Char}
  {after : List (List Char)} {left right : List Char} {e : Entry}
  (h : e.StandsIn text before l after left right)
include h

/-- The value starts after the indentation, the key, the equals sign and the blanks after it. -/
theorem value_prefix_drop : trimStart right <+: l.drop e.value.location.column := by
  rw [h.location_eq]
  exact trimStart_right_prefix_drop h.sides

theorem plain : ∀ s ∈ trimStart right :: (continuation (trimStart right) after).1, '\n' ∉ s := by
  have hlines : ∀ l' ∈ l :: after, '\n' ∉ l' := fun l' hl' =>
    newline_notMem_of_mem_lines (h.lines_eq ▸ List.mem_append_right before hl')
  intro s hs hmem
  rcases List.mem_cons.mp hs with rfl | hs
  · exact hlines l List.mem_cons_self (List.mem_of_mem_drop (h.value_prefix_drop.subset hmem))
  · obtain ⟨taken, hafter, hmore⟩ := continuation_take (trimStart right) after
    rw [hmore] at hs
    obtain ⟨l', hl', rfl⟩ := List.mem_map.mp hs
    have hl'' : l' ∈ l :: after := by
      rw [hafter]
      exact List.mem_cons_of_mem l (List.mem_append_left _ hl')
    have hstart := trimEnd_prefix l'
    exact hlines l' hl'' (hstart.subset hmem)

/-- The value takes up its line and those that continue it. -/
theorem lastLine_eq : e.value.lastLine =
    before.length + 1 + (continuation (trimStart right) after).1.length := by
  rw [Value.lastLine, h.text_eq, h.location_eq, count_joinLines h.plain]

theorem text_ne_empty : e.value.text ≠ "" := by
  intro hempty
  have htext := h.text_eq
  rw [hempty, joinLines] at htext
  exact h.value_ne_nil (List.append_eq_nil_iff.mp htext.symm).1

end StandsIn

end Entry

/-- **Every entry stands in the lines of its text**, and takes up the lines of the statement that
appends it. -/
theorem exists_standsIn {text : List Char} {s : Located} (hs : s ∈ ofText text) {e : Entry}
    (he : .append e ∈ s.actions) :
    ∃ before l after left right, e.StandsIn text before l after left right ∧
      e.value.location.line = s.line ∧ e.value.lastLine = s.lastLine := by
  obtain ⟨left, right, more, hstatement, hentry⟩ := append_mem_actions_iff.mp he
  obtain ⟨before, l, after, hlines, hc, rfl⟩ := mem_ofLines hs
  obtain ⟨hsides, rfl⟩ := eq_of_ofLine_entry hstatement
  obtain ⟨hne, rfl⟩ := eq_of_entry? hentry
  have hright := trimStart_ne_nil_of_joinLines hne
  have hmore : continuation (trimStart right) after = continuation right after := by
    refine continuation_congr ?_ after
    rw [isContinued, isContinued, getLast?_trimStart hright]
  have hstands : Entry.StandsIn text before l after left right
      ⟨String.ofList (trimEnd left), indent l, ⟨String.ofList (trimEnd left),
        String.ofList (trimStart (joinLines right (continuation right after).1)),
        ⟨1 + before.length, indent l + left.length + 1 +
          indent (joinLines right (continuation right after).1)⟩⟩⟩ := by
    refine ⟨hlines, hc, hsides, hright, rfl, rfl, rfl, ?_, ?_⟩
    · rw [String.toList_ofList, trimStart_joinLines hright]
    · rw [joinLines, indent_append _ hright, Nat.add_comm 1]
  refine ⟨before, l, after, left, right, hstands, rfl, ?_⟩
  rw [hstands.lastLine_eq, hmore, Located.lastLine, hstatement, height, Nat.add_comm 1]

end UnitLint
