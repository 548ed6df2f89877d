import UnitLint.Proofs.Words.Iteration
import UnitLint.Proofs.Words.Piece

/-! # Words in a row

A spelling stands for a word if it is extracted as that word wherever a word may end after it. Where
every word has such a spelling, words in a row are split into just these words, each at the offset
at which its spelling starts (`split_row`). The gaps between them are runs of separators; where each
separator ends a word, a gap is one separator. -/

namespace UnitLint.Words

open Text

variable {flags : SplitFlags} {separators : List Char}

/-! ### Spellings of a word -/

/-- The spelling is extracted as the word, wherever a word may end after it. -/
def StandsFor (flags : SplitFlags) (separators spelling : List Char) (text : String) : Prop :=
  ∀ offset rest left, scan flags separators none ⟨offset + spelling.length, rest⟩ = .ok ([], left) →
    extract flags separators ⟨offset, spelling ++ rest⟩ = .ok ⟨some ⟨text, offset⟩, left⟩

/-- A word is the text whose bytes were scanned. -/
theorem word_of_scan {start : Cursor} {text : String} {left : Option Cursor}
    (h : scan flags separators none start = .ok (Utf8.encode text.toList, left)) :
    word flags separators start = .ok ⟨some ⟨text, start.offset⟩, left⟩ := by
  rw [word_eq, h]
  dsimp only [Except.map]
  rw [Utf8.decodeLossy_encode, String.ofList_toList]

/-- A piece that starts with no separator and adds the bytes of a text stands for it. -/
theorem standsFor_of_adds {c : Char} {s : List Char} {text : String}
    (hc : separators.contains c = false)
    (h : Adds flags separators none (c :: s) (Utf8.encode text.toList)) :
    StandsFor flags separators (c :: s) text := by
  intro offset rest left hleft
  have hscan := h offset rest
  rw [hleft] at hscan
  simp only [Except.map, List.append_nil] at hscan
  rw [extract_eq_word rfl hc, word_of_scan hscan]

theorem scan_nil (offset : Nat) : scan flags separators none ⟨offset, []⟩ = .ok ([], none) :=
  scan_of_stop rfl

/-- A word ends at a separator, unless that is a mark that opens a quote. -/
theorem scan_separator (hback : separators.contains '\\' = false) {c : Char}
    (hmark : (flags.quoting && isQuoteMark c) = false) (hsep : separators.contains c = true)
    (offset : Nat) (s : List Char) : scan flags separators none ⟨offset, c :: s⟩ =
      .ok ([], afterWord flags separators ⟨offset, c :: s⟩) := by
  have hne : c ≠ '\\' := by
    rintro rfl
    rw [hback] at hsep
    cases hsep
  have hescape : (flags.escaping && c == '\\') = false := by simp [hne]
  refine scan_of_stop ?_
  rw [step_plain hescape, plainStep, if_neg (by simp [hmark]), if_pos hsep]

/-- What a spelling that stands for a word is split into on its own. -/
theorem split_of_standsFor {spelling : List Char} {text : String}
    (h : StandsFor flags.passing separators spelling text) :
    split flags separators spelling = .ok [⟨text, 0⟩] := by
  have hextract := h 0 [] none (scan_nil _)
  rw [List.append_nil] at hextract
  have hwords : words flags separators spelling = ([⟨text, 0⟩], none) := by
    rw [words, wordsFrom_eq_goOn_passing, hextract]
    rfl
  rw [split, hwords]

/-! ### Gaps -/

/-- A run of separators that ends a word; only one, where each of them ends a word. -/
structure IsGap (flags : SplitFlags) (separators gap : List Char) : Prop where
  nonempty : gap ≠ []
  separates : ∀ c ∈ gap, separators.contains c = true
  /-- A quote mark would open a quote, not end the word. -/
  ends : ∀ c ∈ gap.head?, (flags.quoting && isQuoteMark c) = false
  single : flags.separateEach = true → gap.length = 1

/-- After a word and a gap, what comes after the gap is left. -/
theorem afterWord_gap {gap text : List Char} (hgap : IsGap flags separators gap)
    (htext : flags.separateEach = false → ∃ c s, text = c :: s ∧ separators.contains c = false)
    (offset : Nat) : afterWord flags.passing separators ⟨offset, gap ++ text⟩ =
      some ⟨offset + gap.length, text⟩ := by
  have hleave : ¬ flags.passing.leaveSeparators = true := Bool.false_ne_true
  rw [afterWord, if_neg hleave]
  cases heach : flags.separateEach with
  | true =>
    have heach' : flags.passing.separateEach = true := heach
    obtain ⟨c, rfl⟩ := List.length_eq_one_iff.mp (hgap.single heach)
    rw [if_pos heach']
    rfl
  | false =>
    have heach' : ¬ flags.passing.separateEach = true := by
      show ¬ flags.separateEach = true
      simp [heach]
    obtain ⟨c, s, rfl, hc⟩ := htext heach
    have htake : (gap ++ c :: s).takeWhile separators.contains = gap := by
      rw [List.takeWhile_append_of_pos hgap.separates,
        List.takeWhile_cons_of_neg (by simpa using hc), List.append_nil]
    rw [if_neg heach', Cursor.skip, htake, Cursor.advance, List.drop_left]
    rfl

/-- A word ends at a gap. -/
theorem scan_gap {gap text : List Char} (hback : separators.contains '\\' = false)
    (hgap : IsGap flags separators gap)
    (htext : flags.separateEach = false → ∃ c s, text = c :: s ∧ separators.contains c = false)
    (offset : Nat) : scan flags.passing separators none ⟨offset, gap ++ text⟩ =
      .ok ([], some ⟨offset + gap.length, text⟩) := by
  rw [← afterWord_gap hgap htext offset]
  obtain ⟨c, s, rfl⟩ := List.exists_cons_of_ne_nil hgap.nonempty
  have hsep := hgap.separates c (List.mem_cons_self ..)
  have hmark : (flags.passing.quoting && isQuoteMark c) = false := hgap.ends c rfl
  exact scan_separator hback hmark hsep offset (s ++ text)

/-! ### Rows -/

/-- A word that comes after another, and the gap between them. -/
structure SpacedWord where
  gap : List Char
  text : String
  deriving DecidableEq, Repr

/-- The words after the first one of a row, as they are written. -/
def row (spell : String → List Char) (ws : List SpacedWord) : List Char :=
  ws.flatMap fun w => w.gap ++ spell w.text

/-- The words after the first one of a row, each at the offset at which its spelling starts. -/
def placed (spell : String → List Char) (n : Nat) : List SpacedWord → List Word
  | [] => []
  | w :: ws =>
    ⟨w.text, n + w.gap.length⟩ :: placed spell (n + w.gap.length + (spell w.text).length) ws

theorem map_text_placed (spell : String → List Char) (n : Nat) (ws : List SpacedWord) :
    (placed spell n ws).map (·.text) = ws.map (·.text) := by
  induction ws generalizing n with
  | nil => rfl
  | cons w ws ih => rw [placed, List.map_cons, List.map_cons, ih]

/-- A way to spell every word, so that separators before a spelling can be told from it. -/
structure Faithful (flags : SplitFlags) (separators : List Char) (spell : String → List Char) :
    Prop where
  standsFor : ∀ text, StandsFor flags.passing separators (spell text) text
  starts : flags.separateEach = false →
    ∀ text, ∃ c s, spell text = c :: s ∧ separators.contains c = false

theorem wordsFrom_row {spell : String → List Char} (hback : separators.contains '\\' = false)
    (h : Faithful flags separators spell) (first : String) (n : Nat) (ws : List SpacedWord)
    (hgaps : ∀ w ∈ ws, IsGap flags separators w.gap) :
    wordsFrom flags separators ⟨n, spell first ++ row spell ws⟩ =
      (⟨first, n⟩ :: placed spell (n + (spell first).length) ws, none) := by
  induction ws generalizing first n with
  | nil =>
    have hextract := h.standsFor first n [] none (scan_nil _)
    rw [wordsFrom_eq_goOn_passing, row, List.flatMap_nil, hextract]
    rfl
  | cons w ws ih =>
    have hrow : row spell (w :: ws) = w.gap ++ (spell w.text ++ row spell ws) := by
      rw [row, List.flatMap_cons, List.append_assoc]
      rfl
    have htext : flags.separateEach = false →
        ∃ c s, spell w.text ++ row spell ws = c :: s ∧ separators.contains c = false := by
      intro heach
      obtain ⟨c, s, hs, hc⟩ := h.starts heach w.text
      exact ⟨c, s ++ row spell ws, by rw [hs]; rfl, hc⟩
    have hscan := scan_gap hback (hgaps w (List.mem_cons_self ..)) htext (n + (spell first).length)
    have hextract := h.standsFor first n _ _ hscan
    have hmore := ih w.text (n + (spell first).length + w.gap.length)
      fun w' hw' => hgaps w' (List.mem_cons_of_mem w hw')
    rw [wordsFrom_eq_goOn_passing, hrow, hextract, goOn, hmore]
    rfl

/-- **Words in a row are split into these words**, each at the offset of its spelling. -/
theorem split_row {spell : String → List Char} (hback : separators.contains '\\' = false)
    (h : Faithful flags separators spell) (first : String) (ws : List SpacedWord)
    (hgaps : ∀ w ∈ ws, IsGap flags separators w.gap) :
    split flags separators (spell first ++ row spell ws) =
      .ok (⟨first, 0⟩ :: placed spell (spell first).length ws) := by
  have hwords := wordsFrom_row hback h first 0 ws hgaps
  rw [Nat.zero_add] at hwords
  rw [split, words, hwords]

end UnitLint.Words
