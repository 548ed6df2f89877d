import UnitLint.Proofs.Text.Blank
import UnitLint.Proofs.Text.Cut
import UnitLint.UnitFile.Statement

/-! # Statements and their lines

Every statement is read from a line of its own (`mem_ofLines`), whose number it carries, and an
entry takes in only lines after that one (`continuation_take`). Reading goes by lines: if the last
line of some lines is not continued, the statements of the lines after them follow theirs
(`ofLines_append`), and counting the lines from elsewhere only moves the statements
(`ofLines_add`). -/

namespace UnitLint

open Text

namespace Statement

/-! ### Continuation lines -/

theorem isContinued_eq_true {s : List Char} :
    isContinued s = true ↔ s.getLast? = some '\\' := by
  unfold isContinued
  rw [beq_iff_eq]

theorem continuation_of_not_continued {s : List Char} (h : isContinued s = false)
    (ls : List (List Char)) : continuation s ls = ([], ls) := by
  rcases ls with _ | ⟨l, ls⟩
  · rfl
  · rw [continuation, if_neg (by simp [h])]

theorem continuation_of_continued {s : List Char} (h : isContinued s = true) (l : List Char)
    (ls : List (List Char)) : continuation s (l :: ls) =
      (trimEnd l :: (continuation (trimEnd l) ls).1, (continuation (trimEnd l) ls).2) := by
  rw [continuation, if_pos h]

/-- It only matters whether a text is continued. -/
theorem continuation_congr {s t : List Char} (h : isContinued s = isContinued t)
    (ls : List (List Char)) : continuation s ls = continuation t ls := by
  rcases ls with _ | ⟨l, ls⟩
  · rfl
  · rw [continuation, continuation, h]

/-- The lines taken in are the first ones, without the blanks at their end. -/
theorem continuation_take (s : List Char) (ls : List (List Char)) :
    ∃ taken, ls = taken ++ (continuation s ls).2 ∧ (continuation s ls).1 = taken.map trimEnd := by
  induction ls generalizing s with
  | nil => exact ⟨[], rfl, rfl⟩
  | cons l ls ih =>
    by_cases h : isContinued s = true
    · rw [continuation_of_continued h]
      obtain ⟨taken, hls, hmore⟩ := ih (trimEnd l)
      refine ⟨l :: taken, ?_, ?_⟩
      · rw [List.cons_append, ← hls]
      · rw [hmore, List.map_cons]
    · rw [continuation_of_not_continued (by simpa using h)]
      exact ⟨[], rfl, rfl⟩

/-- The last of some lines is not continued on a line after them. -/
def EndsClosed (ls : List (List Char)) : Prop :=
  ∀ l ∈ ls.getLast?, isContinued (trimEnd l) = false

instance (ls : List (List Char)) : Decidable (EndsClosed ls) := by
  unfold EndsClosed; infer_instance

theorem EndsClosed.of_append (ls : List (List Char)) {ls' : List (List Char)}
    (h : EndsClosed (ls ++ ls')) : EndsClosed ls' := by
  rcases eq_or_ne ls' [] with rfl | hne
  · intro l hl; cases hl
  · intro l hl
    exact h l (by rwa [List.getLast?_append_of_ne_nil _ hne])

/-- What continues a text is found before lines that are added after a closed end. -/
theorem continuation_append {s : List Char} {ls : List (List Char)} (ts : List (List Char))
    (hs : ls = [] → isContinued s = false) (h : EndsClosed ls) :
    continuation s (ls ++ ts) = ((continuation s ls).1, (continuation s ls).2 ++ ts) := by
  induction ls generalizing s with
  | nil =>
    rw [continuation_of_not_continued (hs rfl), continuation_of_not_continued (hs rfl),
      List.nil_append]
  | cons l ls ih =>
    by_cases hc : isContinued s = true
    · have hl : ls = [] → isContinued (trimEnd l) = false := by
        rintro rfl
        exact h l rfl
      rw [List.cons_append, continuation_of_continued hc, continuation_of_continued hc,
        ih hl (h.of_append [l])]
    · have hc' : isContinued s = false := by simpa using hc
      rw [continuation_of_not_continued hc', continuation_of_not_continued hc']

/-! ### The sides of an entry -/

/-- A line with an equals sign after its first character is its two sides. -/
theorem eq_of_sides? {s left right : List Char} (h : sides? s = some (left, right)) :
    s = left ++ '=' :: right ∧ left ≠ [] ∧ '=' ∉ left := by
  unfold sides? at h
  split at h
  · rename_i c left' d right' htake hdrop
    obtain ⟨rfl, rfl⟩ := Prod.mk.inj (Option.some.inj h)
    have hs := eq_of_dropWhile hdrop
    have hleft := notMem_takeWhile s '='
    rw [htake] at hs hleft
    exact ⟨hs, List.cons_ne_nil _ _, hleft⟩
  · cases h

theorem sides?_append {left : List Char} (h : left ≠ []) (h' : '=' ∉ left) (right : List Char) :
    sides? (left ++ '=' :: right) = some (left, right) := by
  obtain ⟨c, left, rfl⟩ := List.exists_cons_of_ne_nil h
  unfold sides?
  rw [takeWhile_cut h', dropWhile_cut h']

/-- What a key may be. -/
structure IsKey (key : List Char) : Prop where
  ne_nil : key ≠ []
  no_equals : '=' ∉ key
  head : ∀ c ∈ key.head?, isBlank c = false ∧ c ≠ '#' ∧ c ≠ ';'
  last : ∀ c ∈ key.getLast?, isBlank c = false

theorem head?_of_isComment {line : List Char} (h : isComment line = false) :
    ∀ c ∈ line.head?, c ≠ '#' ∧ c ≠ ';' := by
  intro c hc
  rcases line with _ | ⟨d, line⟩
  · cases hc
  · obtain rfl := Option.some.inj hc
    simpa [isComment] using h

/-- **The left side of a line is a key**, without the blanks at its end. -/
theorem isKey_of_sides? {l left right : List Char} (hc : isComment (trim l) = false)
    (h : sides? (trim l) = some (left, right)) : IsKey (trimEnd left) := by
  obtain ⟨hline, hne, hequals⟩ := eq_of_sides? h
  obtain ⟨c, left, rfl⟩ := List.exists_cons_of_ne_nil hne
  have hhead : (trim l).head? = some c := by rw [hline]; rfl
  have hblank := not_isBlank_of_head?_trim hhead
  have hkey := trimEnd_prefix (c :: left)
  refine ⟨trimEnd_ne_nil List.mem_cons_self hblank, fun hmem => hequals (hkey.subset hmem),
    fun d hd => ?_, fun d hd => not_isBlank_of_getLast?_trimEnd hd⟩
  obtain rfl : c = d := Option.some.inj (head?_of_head?_trimEnd hd)
  exact ⟨hblank, head?_of_isComment hc c hhead⟩

/-- A header is its name in brackets, and perhaps something after them. -/
theorem eq_of_headerName? {s name : List Char} (h : headerName? s = some name) :
    ∃ tail, s = '[' :: (name ++ ']' :: tail) ∧ ']' ∉ name := by
  unfold headerName? at h
  split at h
  · rename_i s
    split at h
    · cases h
    · rename_i d tail hdrop
      split at h
      · obtain rfl := Option.some.inj h
        exact ⟨tail, congrArg ('[' :: ·) (eq_of_dropWhile hdrop), notMem_takeWhile s ']'⟩
      · cases h
  · cases h

/-- A name in brackets is the name of a header. -/
theorem headerName?_brackets {name : List Char} (h : ']' ∉ name) :
    headerName? ('[' :: (name ++ [']'])) = some name := by
  rw [headerName?, takeWhile_cut h, dropWhile_cut h]
  rfl

/-- The last character of the right side is that of the line. -/
theorem getLast?_of_sides? {s left right : List Char} {c : Char}
    (h : sides? s = some (left, right)) (hc : right.getLast? = some c) : s.getLast? = some c := by
  rw [(eq_of_sides? h).1, List.getLast?_append_of_ne_nil _ (List.cons_ne_nil _ _),
    List.getLast?_cons, hc]
  rfl

/-- The right side is continued only if the line is. -/
theorem isContinued_of_sides? {l left right : List Char} (h : sides? (trim l) = some (left, right))
    (hc : isContinued right = true) : isContinued (trimEnd l) = true := by
  rw [isContinued_eq_true] at hc ⊢
  have hne : trimStart (trimEnd l) ≠ [] := by
    rw [← trim_eq_trimStart_trimEnd, (eq_of_sides? h).1]
    simp
  rw [← getLast?_trimStart hne, ← trim_eq_trimStart_trimEnd]
  exact getLast?_of_sides? h hc

/-! ### Lines one after another -/

theorem ofLine_of_header {line name : List Char} (h : headerName? line = some name)
    (following : List (List Char)) : ofLine line following = (.header name, following) := by
  unfold ofLine
  rw [h]

theorem ofLine_of_sides {line left right : List Char} (h : headerName? line = none)
    (h' : sides? line = some (left, right)) (following : List (List Char)) :
    ofLine line following =
      (.entry left right (continuation right following).1, (continuation right following).2) := by
  unfold ofLine
  rw [h, h']

theorem ofLine_of_none {line : List Char} (h : headerName? line = none) (h' : sides? line = none)
    (following : List (List Char)) : ofLine line following = (.unrecognized, following) := by
  unfold ofLine
  rw [h, h']

theorem headerName?_of_ofLine {line name : List Char} {following : List (List Char)}
    (h : (ofLine line following).1 = .header name) : headerName? line = some name := by
  unfold ofLine at h
  split at h
  · rename_i hname
    cases h
    exact hname
  · cases h
  · cases h

/-- A line that says an entry is its two sides, and takes in what continues the right one. -/
theorem eq_of_ofLine_entry {line left right : List Char} {following more : List (List Char)}
    (h : (ofLine line following).1 = .entry left right more) :
    sides? line = some (left, right) ∧ more = (continuation right following).1 := by
  unfold ofLine at h
  split at h
  · cases h
  · rename_i hsides
    cases h
    exact ⟨hsides, rfl⟩
  · cases h

/-- A line leaves the last of the lines after it. -/
theorem ofLine_suffix (line : List Char) (following : List (List Char)) :
    (ofLine line following).2 <:+ following := by
  unfold ofLine
  split
  · exact List.suffix_rfl
  · rename_i left right _ _
    obtain ⟨taken, h, -⟩ := continuation_take right following
    exact ⟨taken, h.symm⟩
  · exact List.suffix_rfl

theorem ofLine_append {l : List Char} {ls : List (List Char)} (ts : List (List Char))
    (h : EndsClosed (l :: ls)) :
    ofLine (trim l) (ls ++ ts) = ((ofLine (trim l) ls).1, (ofLine (trim l) ls).2 ++ ts) := by
  rcases hname : headerName? (trim l) with _ | name
  · rcases hsides : sides? (trim l) with _ | ⟨left, right⟩
    · simp only [ofLine_of_none hname hsides]
    · have hright : ls = [] → isContinued right = false := by
        rintro rfl
        by_contra hc
        have := isContinued_of_sides? hsides (by simpa using hc)
        rw [h l rfl] at this
        cases this
      simp only [ofLine_of_sides hname hsides]
      rw [continuation_append ts hright (h.of_append [l])]
  · simp only [ofLine_of_header hname]

/-! ### Numbered statements -/

theorem ofLines_nil (n : Nat) : ofLines n [] = [] := by rw [ofLines]

theorem ofLines_of_comment {l : List Char} (h : isComment (trim l) = true) (n : Nat)
    (ls : List (List Char)) : ofLines n (l :: ls) = ofLines (n + 1) ls := by
  rw [ofLines, if_pos h]

theorem ofLines_of_statement {l : List Char} (h : isComment (trim l) = false) (n : Nat)
    (ls : List (List Char)) : ofLines n (l :: ls) =
      ⟨n, indent l, (ofLine (trim l) ls).1⟩ ::
        ofLines (n + 1 + (ls.length - (ofLine (trim l) ls).2.length)) (ofLine (trim l) ls).2 := by
  rw [ofLines, if_neg (by simp [h])]

/-- **The statements of lines after a closed end follow those of the lines before.** -/
theorem ofLines_append {ls : List (List Char)} (h : EndsClosed ls) (n : Nat)
    (ts : List (List Char)) :
    ofLines n (ls ++ ts) = ofLines n ls ++ ofLines (n + ls.length) ts := by
  induction n, ls using ofLines.induct with
  | case1 n => rw [ofLines_nil]; rfl
  | case2 n l ls hc ih =>
    rw [List.cons_append, ofLines_of_comment hc, ofLines_of_comment hc,
      ih (h.of_append [l]), List.length_cons]
    congr 2
    omega
  | case3 n l ls hc rest ih =>
    obtain ⟨taken, htaken⟩ := ofLine_suffix (trim l) ls
    have hrest : EndsClosed (ofLine (trim l) ls).2 := by
      refine EndsClosed.of_append (l :: taken) ?_
      rwa [List.cons_append, htaken]
    have hle := length_ofLine_le (trim l) ls
    have hc' : isComment (trim l) = false := by simpa using hc
    rw [List.cons_append, ofLines_of_statement hc', ofLines_of_statement hc', ofLine_append ts h]
    simp only [List.cons_append, List.length_append, List.length_cons, Nat.add_sub_add_right]
    have hrest' : rest = (ofLine (trim l) ls).2 := rfl
    rw [← hrest', ih hrest, hrest']
    congr 3
    omega

/-- The statement, `n` lines further down. -/
def Located.shift (n : Nat) (s : Located) : Located := { s with line := s.line + n }

/-- Counting the lines from elsewhere moves the statements. -/
theorem ofLines_add (k n : Nat) (ls : List (List Char)) :
    ofLines (n + k) ls = (ofLines n ls).map (Located.shift k) := by
  induction n, ls using ofLines.induct with
  | case1 n => rw [ofLines_nil, ofLines_nil]; rfl
  | case2 n l ls hc ih =>
    rw [ofLines_of_comment hc, ofLines_of_comment hc, ← ih]
    congr 1
    omega
  | case3 n l ls hc rest ih =>
    have hc' : isComment (trim l) = false := by simpa using hc
    have hrest : rest = (ofLine (trim l) ls).2 := rfl
    rw [ofLines_of_statement hc', ofLines_of_statement hc', List.map_cons, ← hrest, ← ih]
    congr 2
    omega

/-- **A statement is read from the line of its number**, counted from `n`, and, if it is an entry,
from lines after that one. -/
theorem mem_ofLines {n : Nat} {ls : List (List Char)} {s : Located} (h : s ∈ ofLines n ls) :
    ∃ before l after, ls = before ++ l :: after ∧ isComment (trim l) = false ∧
      s = ⟨n + before.length, indent l, (ofLine (trim l) after).1⟩ := by
  induction n, ls using ofLines.induct with
  | case1 n => rw [ofLines_nil] at h; cases h
  | case2 n l ls hc ih =>
    rw [ofLines_of_comment hc] at h
    obtain ⟨before, l', after, rfl, hl', rfl⟩ := ih h
    refine ⟨l :: before, l', after, rfl, hl', ?_⟩
    rw [List.length_cons]
    congr 1
    omega
  | case3 n l ls hc rest ih =>
    have hc' : isComment (trim l) = false := by simpa using hc
    rw [ofLines_of_statement hc'] at h
    rcases List.mem_cons.mp h with rfl | h
    · exact ⟨[], l, ls, rfl, hc', rfl⟩
    · obtain ⟨before, l', after, hrest, hl', rfl⟩ := ih h
      obtain ⟨taken, htaken⟩ := ofLine_suffix (trim l) ls
      refine ⟨l :: (taken ++ before), l', after, ?_, hl', ?_⟩
      · rw [List.cons_append, List.append_assoc, ← hrest, htaken]
      · have hlen := congrArg List.length htaken
        have hrest' : rest = (ofLine (trim l) ls).2 := rfl
        rw [List.length_append, ← hrest'] at hlen
        rw [List.length_cons, List.length_append]
        congr 1
        omega

/-- The first line that says something is a header. -/
def StartsWithHeader (ls : List (List Char)) : Prop :=
  ∀ l ∈ ls.find? fun l => !isComment (trim l), (headerName? (trim l)).isSome = true

instance (ls : List (List Char)) : Decidable (StartsWithHeader ls) := by
  unfold StartsWithHeader; infer_instance

theorem StartsWithHeader.head?_ofLines {ls : List (List Char)} (h : StartsWithHeader ls) (n : Nat) :
    ∀ s ∈ (ofLines n ls).head?, ∃ name, s.statement = .header name := by
  intro s hs
  unfold StartsWithHeader at h
  induction n, ls using ofLines.induct with
  | case1 n => rw [ofLines_nil] at hs; cases hs
  | case2 n l ls hc ih =>
    rw [ofLines_of_comment hc] at hs
    refine ih ?_ hs
    simpa [List.find?_cons, hc] using h
  | case3 n l ls hc rest ih =>
    have hc' : isComment (trim l) = false := by simpa using hc
    rw [ofLines_of_statement hc'] at hs
    obtain rfl := Option.some.inj hs
    obtain ⟨name, hname⟩ := Option.isSome_iff_exists.mp
      (h l (by rw [List.find?_cons, hc']; rfl))
    exact ⟨name, by rw [ofLine_of_header hname]⟩

end Statement

end UnitLint
