import UnitLint.Proofs.Words.Literal

/-! # Words that are slices of the text

Where a backslash is an ordinary character and quotes stay, nothing of a text is lost but separators
(`split_slices`). Each word is the slice of the text at its offset, the words stand one after
another, and every character outside them is a separator. Between two words there is at least one;
where each of them ends a word there is just one, and none before the first word or after the
last. -/

namespace UnitLint.Words

open Text

variable {flags : SplitFlags} {separators : List Char}

/-! ### Slices -/

namespace Word

/-- The offset after the last character, for a word that stands in the text as it is. -/
def stop (w : Word) : Nat := w.offset + w.text.length

/-- The character at the offset is one of the word. -/
def Covers (w : Word) (i : Nat) : Prop := w.offset ≤ i ∧ i < w.stop

/-- The word is the slice of the text that starts at its offset and has its length. -/
def IsSlice (input : List Char) (w : Word) : Prop :=
  ∃ before after, input = before ++ (w.text.toList ++ after) ∧ w.offset = before.length

end Word

/-- The words of a text keep all its characters but the separators between them. -/
structure Lossless (flags : SplitFlags) (separators input : List Char) (found : List Word) :
    Prop where
  slice : ∀ w ∈ found, w.IsSlice input
  /-- The slices are disjoint and in order, with a separator between neighbours. -/
  ordered : found.Pairwise fun w w' => w.stop < w'.offset
  outside : ∀ (i : Nat) (c : Char), input[i]? = some c → (∀ w ∈ found, ¬ w.Covers i) →
    separators.contains c = true
  /-- Where each separator ends a word, there is just one between neighbours. -/
  single : flags.separateEach = true → found.IsChain fun w w' => w'.offset = w.stop + 1
  first : flags.separateEach = true → ∃ w ∈ found.head?, w.offset = 0
  last : flags.separateEach = true → ∃ w ∈ found.getLast?, w.stop = input.length

/-! ### Words laid out in a text -/

namespace LaidOut

variable {n : Nat} {text : List Char} {found : List Word}

theorem le_offset (h : LaidOut flags separators n text found) : ∀ w ∈ found, n ≤ w.offset := by
  induction h with
  | blank => nofun
  | last =>
    intro w hw
    obtain rfl := List.mem_singleton.mp hw
    exact Nat.le_add_right _ _
  | next _ _ _ _ ih =>
    intro w hw
    rcases List.mem_cons.mp hw with rfl | hw
    · exact Nat.le_add_right _ _
    · have := ih w hw
      omega

theorem isSlice (h : LaidOut flags separators n text found) {before : List Char}
    (hbefore : before.length = n) : ∀ w ∈ found, w.IsSlice (before ++ text) := by
  induction h generalizing before with
  | blank => nofun
  | @last n margin trail word =>
    intro w hw
    obtain rfl := List.mem_singleton.mp hw
    refine ⟨before ++ margin, trail, (List.append_assoc ..).symm, ?_⟩
    rw [List.length_append, hbefore]
  | @next n margin space rest word found _ _ _ _ ih =>
    intro w hw
    rcases List.mem_cons.mp hw with rfl | hw
    · refine ⟨before ++ margin, space ++ rest, (List.append_assoc ..).symm, ?_⟩
      rw [List.length_append, hbefore]
    · have hfront : (before ++ margin ++ word.toList ++ space).length =
          n + margin.length + word.length + space.length := by
        simp only [List.length_append, String.length_toList, hbefore]
      have hslice := ih hfront w hw
      simpa only [List.append_assoc] using hslice

theorem ordered (h : LaidOut flags separators n text found) :
    found.Pairwise fun w w' => w.stop < w'.offset := by
  induction h with
  | blank => exact List.Pairwise.nil
  | last => exact List.pairwise_singleton _ _
  | @next n margin space rest word found _ hspace _ more ih =>
    refine List.pairwise_cons.mpr ⟨fun w hw => ?_, ih⟩
    have hle := more.le_offset w hw
    have hpos := List.length_pos_iff.mpr hspace.nonempty
    show n + margin.length + word.length < w.offset
    omega

/-- A character before a word, in it or after it. -/
theorem getElem?_append_append {margin rest : List Char} {word : String} {i : Nat} {c : Char}
    (hi : (margin ++ (word.toList ++ rest))[i]? = some c) :
    c ∈ margin ∨ (⟨word, n + margin.length⟩ : Word).Covers (n + i) ∨
      ∃ j, i = margin.length + word.length + j ∧ rest[j]? = some c := by
  rcases Nat.lt_or_ge i margin.length with hlt | hge
  · rw [List.getElem?_append_left hlt] at hi
    exact Or.inl (List.mem_of_getElem? hi)
  · rw [List.getElem?_append_right hge] at hi
    rcases Nat.lt_or_ge (i - margin.length) word.length with hlt | hge'
    · refine Or.inr (Or.inl ⟨?_, ?_⟩)
      · show n + margin.length ≤ n + i
        omega
      · show n + i < n + margin.length + word.length
        omega
    · rw [← String.length_toList] at hge'
      rw [List.getElem?_append_right hge', String.length_toList] at hi
      rw [String.length_toList] at hge'
      exact Or.inr (Or.inr ⟨_, by omega, hi⟩)

theorem outside (h : LaidOut flags separators n text found) {i : Nat} {c : Char}
    (hi : text[i]? = some c) (hout : ∀ w ∈ found, ¬ w.Covers (n + i)) :
    separators.contains c = true := by
  induction h generalizing i with
  | blank _ h => exact h c (List.mem_of_getElem? hi)
  | @last n margin trail word hmargin htrail _ =>
    rcases getElem?_append_append hi with hmem | hcovers | ⟨j, -, hj⟩
    · exact hmargin.separates c hmem
    · exact absurd hcovers (hout _ List.mem_cons_self)
    · exact htrail.separates c (List.mem_of_getElem? hj)
  | @next n margin space rest word found hmargin hspace _ _ ih =>
    rcases getElem?_append_append hi with hmem | hcovers | ⟨j, hij, hj⟩
    · exact hmargin.separates c hmem
    · exact absurd hcovers (hout _ List.mem_cons_self)
    · rcases Nat.lt_or_ge j space.length with hlt | hge
      · rw [List.getElem?_append_left hlt] at hj
        exact hspace.separates c (List.mem_of_getElem? hj)
      · rw [List.getElem?_append_right hge] at hj
        refine ih hj fun w hw hcovers => hout w (List.mem_cons_of_mem _ hw) ?_
        have heq : n + i = n + margin.length + word.length + space.length + (j - space.length) := by
          omega
        rwa [heq]

/-- Where each separator ends a word, the first word comes first in the text. -/
theorem exists_first (h : LaidOut flags separators n text found)
    (heach : flags.separateEach = true) : ∃ w ws, found = w :: ws ∧ w.offset = n := by
  cases h with
  | blank heach' _ =>
    rw [heach] at heach'
    cases heach'
  | last hmargin _ _ =>
    obtain rfl := hmargin.nil heach
    exact ⟨_, _, rfl, rfl⟩
  | next hmargin _ _ _ =>
    obtain rfl := hmargin.nil heach
    exact ⟨_, _, rfl, rfl⟩

theorem single (h : LaidOut flags separators n text found) (heach : flags.separateEach = true) :
    found.IsChain fun w w' => w'.offset = w.stop + 1 := by
  induction h with
  | blank => exact List.IsChain.nil
  | last => exact List.IsChain.singleton _
  | next hmargin hspace _ more ih =>
    obtain ⟨w, ws, rfl, hw⟩ := more.exists_first heach
    refine List.isChain_cons_cons.mpr ⟨?_, ih⟩
    rw [hw, hspace.single heach]
    rfl

theorem exists_last (h : LaidOut flags separators n text found)
    (heach : flags.separateEach = true) :
    ∃ w ∈ found.getLast?, w.stop = n + text.length := by
  induction h with
  | blank heach' _ =>
    rw [heach] at heach'
    cases heach'
  | @last n margin trail word hmargin htrail _ =>
    obtain rfl := hmargin.nil heach
    obtain rfl := htrail.nil heach
    refine ⟨_, rfl, ?_⟩
    rw [List.nil_append, List.append_nil, String.length_toList]
    rfl
  | @next n margin space rest word found hmargin _ _ more ih =>
    obtain ⟨w, hw, hstop⟩ := ih
    obtain ⟨w', ws, rfl, -⟩ := more.exists_first heach
    refine ⟨w, hw, ?_⟩
    simp only [List.length_append, String.length_toList, hstop]
    omega

end LaidOut

/-! ### Splitting -/

/-- The words of a literal text are laid out in it. -/
theorem laidOut_of_split {input : List Char} (hliteral : Literal flags input) {found : List Word}
    (h : split flags separators input = .ok found) : LaidOut flags separators 0 input found := by
  unfold split words at h
  split at h
  · rename_i hwords
    cases h
    have hstart : Literal flags (Cursor.mk 0 input).chars := hliteral
    exact laidOut_of_wordsFrom hstart hwords
  · cases h

theorem lossless_of_laidOut {input : List Char} {found : List Word}
    (h : LaidOut flags separators 0 input found) : Lossless flags separators input found where
  slice := by
    have hempty : ([] : List Char).length = 0 := rfl
    exact h.isSlice hempty
  ordered := h.ordered
  outside i c hi hout := by
    refine h.outside hi fun w hw => ?_
    rw [Nat.zero_add]
    exact hout w hw
  single := h.single
  first heach := by
    obtain ⟨w, ws, rfl, hw⟩ := h.exists_first heach
    exact ⟨w, rfl, hw⟩
  last heach := by
    obtain ⟨w, hw, hstop⟩ := h.exists_last heach
    exact ⟨w, hw, by rw [hstop, Nat.zero_add]⟩

/-- **Splitting loses nothing but separators** where a backslash is an ordinary character and quotes
stay in the words: these are slices of the text. -/
theorem split_slices (hback : flags.literalBackslash = true) (hdrop : flags.dropQuotes = false)
    {input : List Char} {found : List Word} (h : split flags separators input = .ok found) :
    Lossless flags separators input found := by
  have hliteral : Literal flags input := by
    refine ⟨fun hescaping => ?_, fun hdrop' => ?_⟩
    · rw [SplitFlags.escaping, hback] at hescaping
      cases hescaping
    · rw [hdrop] at hdrop'
      cases hdrop'
  exact lossless_of_laidOut (laidOut_of_split hliteral h)

/-- A backslash before a separator, and separators in quotes that open inside a word. -/
theorem split_slices_marks :
    let flags : SplitFlags := { keepQuotes := true, literalBackslash := true }
    let input := " a\\, b', \"'c,".toList
    flags.literalBackslash = true ∧ flags.dropQuotes = false ∧
      split flags [' ', ','] input = .ok [⟨"a\\", 1⟩, ⟨"b', \"'c", 5⟩] ∧
      Lossless flags [' ', ','] input [⟨"a\\", 1⟩, ⟨"b', \"'c", 5⟩] := by
  intro flags input
  have hsplit : split flags [' ', ','] input = .ok [⟨"a\\", 1⟩, ⟨"b', \"'c", 5⟩] := by
    decide +kernel
  exact ⟨rfl, rfl, hsplit, split_slices rfl rfl hsplit⟩

end UnitLint.Words
