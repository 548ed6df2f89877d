import Mathlib.Data.List.Forall2
import UnitLint.Proofs.Text.LineEnds
import UnitLint.Proofs.UnitFile.Statement
import UnitLint.UnitFile.Parser

/-! # Parsing and the ends of lines

Blanks at the ends of lines say nothing: lines are read as statements without the blanks around
them, and their indentation is at the start. The lines that continue a value are trimmed at the end
as they are taken in (`Statement.ofLines_map_trimEnd`). So parsing depends on the trimmed lines alone,
and not on how they end (`parse_ignores_line_ends`). -/

namespace UnitLint

open Text

namespace Statement

/-- The lines that continue a text are taken in trimmed. -/
theorem continuation_map_trimEnd (s : List Char) (ls : List (List Char)) :
    continuation s (ls.map trimEnd) =
      ((continuation s ls).1, (continuation s ls).2.map trimEnd) := by
  induction ls generalizing s with
  | nil => rfl
  | cons l ls ih =>
    rw [List.map_cons]
    cases h : isContinued s with
    | true =>
      rw [continuation_of_continued h, continuation_of_continued h, trimEnd_trimEnd, ih]
    | false => rw [continuation_of_not_continued h, continuation_of_not_continued h, List.map_cons]

theorem ofLine_map_trimEnd (line : List Char) (following : List (List Char)) :
    ofLine line (following.map trimEnd) =
      ((ofLine line following).1, (ofLine line following).2.map trimEnd) := by
  cases hname : headerName? line with
  | some name => rw [ofLine_of_header hname, ofLine_of_header hname]
  | none =>
    cases hsides : sides? line with
    | some sides =>
      obtain ⟨left, right⟩ := sides
      rw [ofLine_of_sides hname hsides, ofLine_of_sides hname hsides, continuation_map_trimEnd]
    | none => rw [ofLine_of_none hname hsides, ofLine_of_none hname hsides]

/-- **Blanks at the ends of lines** belong to no statement. -/
theorem ofLines_map_trimEnd (n : Nat) (ls : List (List Char)) :
    ofLines n (ls.map trimEnd) = ofLines n ls := by
  induction n, ls using ofLines.induct with
  | case1 n => rfl
  | case2 n l ls hcomment ih =>
    rw [List.map_cons, ofLines_of_comment hcomment, ofLines_of_comment, ih]
    rwa [trim_trimEnd]
  | case3 n l ls hstatement rest ih =>
    rw [Bool.not_eq_true] at hstatement
    -- a line that says something is more than blanks
    have hne : trim l ≠ [] := by
      intro hnil
      rw [hnil] at hstatement
      cases hstatement
    rw [List.map_cons, ofLines_of_statement hstatement, ofLines_of_statement, trim_trimEnd,
      indent_trimEnd hne, ofLine_map_trimEnd, List.length_map, List.length_map, ih]
    rwa [trim_trimEnd]

end Statement

/-- Parsing depends on the trimmed lines alone. -/
theorem parse_congr_trimmedLines (path : Path) {s t : List Char}
    (h : trimmedLines s = trimmedLines t) :
    parse path (String.ofList s) = parse path (String.ofList t) := by
  have hstatements : ∀ u, Statement.ofText u = Statement.ofLines 1 (trimmedLines u) := fun u =>
    (Statement.ofLines_map_trimEnd 1 (lines u)).symm
  unfold parse
  rw [String.toList_ofList, String.toList_ofList, hstatements, hstatements, h]

/-- **How lines end does not matter.** Two texts whose lines agree one by one, but for blanks at
their ends, are read alike: both give the same unit file, or the same errors in the same places. So
it changes nothing to write every line feed as carriage return and line feed, to put a line feed
after a last line that has none, or to put blanks at the end of a line that is not empty, as after
the backslash that says that a value goes on. -/
theorem parse_ignores_line_ends (path : Path) :
    (∀ s t : String,
      List.Forall₂ (fun l l' => trimEnd l = trimEnd l') (lines s.toList) (lines t.toList) →
      parse path s = parse path t) ∧
    (∀ s, parse path (String.ofList (withReturns s)) = parse path (String.ofList s)) ∧
    (∀ s, s ≠ [] → s.getLast? ≠ some '\n' →
      parse path (String.ofList (s ++ ['\n'])) = parse path (String.ofList s)) ∧
    ∀ (s blanks rest : List Char) (c : Char), c ≠ '\n' →
      (∀ b ∈ blanks, isBlank b = true ∧ b ≠ '\n') → AtLineEnd rest →
      parse path (String.ofList (s ++ c :: (blanks ++ rest))) =
        parse path (String.ofList (s ++ c :: rest)) := by
  refine ⟨fun s t h => ?_, fun s => ?_, fun s hne hlast => ?_, fun s blanks rest c hc hblanks hrest => ?_⟩
  · have hlines : trimmedLines s.toList = trimmedLines t.toList := by
      unfold trimmedLines
      rw [← List.forall₂_eq_eq_eq, List.forall₂_map_left_iff, List.forall₂_map_right_iff]
      exact h
    have hparse := parse_congr_trimmedLines path hlines
    rwa [String.ofList_toList, String.ofList_toList] at hparse
  · exact parse_congr_trimmedLines path (trimmedLines_withReturns s)
  · exact parse_congr_trimmedLines path (trimmedLines_concat hne hlast)
  · exact parse_congr_trimmedLines path (trimmedLines_blanks s hc hblanks hrest)

/-- A continued value, with blanks after the backslash and after the lines around it, and another
end of lines. -/
theorem parse_ignores_line_ends_continued :
    parse ⟨"a.container"⟩ "[Container]\t\r\nImage=a\\ \r\n  b\r\n\r\n" =
        parse ⟨"a.container"⟩ "[Container]\nImage=a\\\n  b\n \n" ∧
      parse ⟨"a.container"⟩ (String.ofList ("[Container]\nImage=a\\ \u3000\n  b".toList)) =
        parse ⟨"a.container"⟩ (String.ofList ("[Container]\nImage=a\\\n  b".toList)) ∧
      parse ⟨"a.container"⟩ (String.ofList ("[Container]\nImage=a".toList ++ ['\n'])) =
        parse ⟨"a.container"⟩ (String.ofList "[Container]\nImage=a".toList) := by
  obtain ⟨hlines, -, hfinal, hblanks⟩ := parse_ignores_line_ends ⟨"a.container"⟩
  have hspaces : ∀ b ∈ [' ', '\u3000'], isBlank b = true ∧ b ≠ '\n' :=
    List.forall_mem_cons.mpr ⟨by decide, List.forall_mem_singleton.mpr (by decide)⟩
  refine ⟨hlines _ _ (by decide), ?_, hfinal _ (by decide) (by decide)⟩
  exact hblanks "[Container]\nImage=a".toList [' ', '\u3000'] "\n  b".toList '\\' (by decide)
    hspaces (by decide)

end UnitLint
