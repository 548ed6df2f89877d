import UnitLint.Proofs.Words.Iteration
import UnitLint.Proofs.Words.OpenQuotes

/-! # Offsets of words and failures

The words of a text stand in it one after another, and the failure that ends them, if any, shows
after the last of them: an open quote, or a backslash, that the scan for the next word came upon
(`offsets_increasing`). Only where each separator ends a word may one stand at the end of the text,
an empty one (`offsets_ordered`). -/

namespace UnitLint.Words

variable {flags : SplitFlags} {separators : List Char}

/-! ### Where a scan ends -/

/-- The offset of the end of the text. -/
def Cursor.stop (c : Cursor) : Nat := c.offset + c.chars.length

theorem Cursor.Reads.stop_eq {c d : Cursor} {used : List Char} (h : c.Reads used d) :
    d.stop = c.stop := by
  rw [Cursor.stop, Cursor.stop, h.1, h.2, List.length_append, Nat.add_assoc]

theorem Cursor.Reads.offset_le {c d : Cursor} {used : List Char} (h : c.Reads used d) :
    c.offset ≤ d.offset := by
  rw [h.2]
  exact Nat.le_add_right _ _

theorem Cursor.offset_lt_stop {c : Cursor} (h : c.chars ≠ []) : c.offset < c.stop :=
  Nat.lt_add_of_pos_right (List.length_pos_iff.mpr h)

/-! ### Failures -/

/-- A step fails at its first character, or at the end of the text for an open quote. -/
theorem Fails.offset_eq {quote : Option Quote} {start : Cursor} {e : SplitError}
    (h : Fails flags quote start e) :
    start.chars ≠ [] ∧ e.offset = start.offset ∨ ∃ q, quote = some q ∧ e.offset = q.offset := by
  cases h with
  | openQuote => exact Or.inr ⟨_, rfl, rfl⟩
  | openEscape | noEscape => exact Or.inl ⟨List.cons_ne_nil _ _, rfl⟩

/-- **A scan fails within the text that it reads**, if no quote was open before it. -/
theorem scan_fail {start : Cursor} {e : SplitError}
    (h : scan flags separators none start = .error e) :
    start.offset ≤ e.offset ∧ e.offset < start.stop := by
  have hwithin : ∀ {used : List Char} {c : Cursor}, start.Reads used c → c.chars ≠ [] →
      start.offset ≤ c.offset ∧ c.offset < start.stop := by
    intro used c hreads hne
    rw [← hreads.stop_eq]
    exact ⟨hreads.offset_le, Cursor.offset_lt_stop hne⟩
  obtain ⟨last, stop, hsteps, hfails⟩ := steps_of_scan_error h
  rcases hfails.offset_eq with ⟨hne, hoffset⟩ | ⟨q, rfl, hoffset⟩
  · obtain ⟨used, bytes, hreads, -⟩ := hsteps.scan
    rw [hoffset]
    exact hwithin hreads hne
  · rcases hsteps.opened with ⟨hnone, -⟩ | ⟨first, next, inside, hfirst, hopens, -⟩
    · cases hnone
    · obtain ⟨used, bytes, hreads, -⟩ := hfirst.scan
      rw [hoffset, hopens.offset]
      refine hwithin hreads ?_
      rw [hopens.reads.1]
      exact List.cons_ne_nil _ _

theorem extract_fail {start : Cursor} {e : SplitError}
    (h : extract flags separators start = .error e) :
    start.offset ≤ e.offset ∧ e.offset < start.stop := by
  obtain ⟨used, first, hreads, hscan⟩ := exists_of_extract_error h
  obtain ⟨hle, hlt⟩ := scan_fail hscan
  rw [hreads.stop_eq] at hlt
  exact ⟨Nat.le_trans hreads.offset_le hle, hlt⟩

/-! ### Words and the failure after them -/

/-- The offsets of the words, and that of the failure after them. -/
def offsets (p : List Word × Option SplitError) : List Nat :=
  p.1.map (·.offset) ++ p.2.toList.map (·.offset)

/-- Where each separator ends a word, a word starts at once. -/
theorem offset_of_each (heach : flags.separateEach = true) {start : Cursor} {w : Word}
    {rest : Option Cursor} (h : extract flags separators start = .ok ⟨some w, rest⟩) :
    w.offset = start.offset := by
  unfold extract at h
  rw [if_pos heach] at h
  split at h
  · cases h
    rfl
  · split at h
    · cases h
      rfl
    · obtain ⟨w', used, stop, hw, hoffset, -⟩ := word_ok h
      cases hw
      exact hoffset

/-- A word is extracted from the text, and what is left comes after it. -/
theorem extract_offset (hleave : flags.leaveSeparators = false) {start : Cursor} {w : Word}
    {rest : Option Cursor} (h : extract flags separators start = .ok ⟨some w, rest⟩) :
    start.offset ≤ w.offset ∧ w.offset ≤ start.stop ∧
      (flags.separateEach = false → w.offset < start.stop) ∧
      ∀ d ∈ rest, w.offset < d.offset ∧ d.stop = start.stop := by
  have hrest : ∀ d ∈ rest, start.offset < d.offset ∧ d.stop = start.stop := by
    rintro d rfl
    obtain ⟨used, hreads⟩ := extract_reads h
    have hlt := extract_rest_lt hleave h
    have hoffset := hreads.2
    rw [hreads.1, List.length_append] at hlt
    exact ⟨by omega, hreads.stop_eq⟩
  cases heach : flags.separateEach with
  | true =>
    rw [offset_of_each heach h]
    exact ⟨Nat.le_refl _, Nat.le_add_right _ _, nofun, hrest⟩
  | false =>
    obtain ⟨used, stop, hne, hreads, hleft, hoffset, -⟩ := extract_ok heach h
    have hskip := Cursor.reads_skip separators start
    have hused := List.length_pos_iff.mpr hne
    have hstop := hreads.2
    have hend : stop.offset ≤ stop.stop := Nat.le_add_right _ _
    rw [hreads.stop_eq, hskip.stop_eq] at hend
    refine ⟨hoffset ▸ hskip.offset_le, by omega, fun _ => by omega, fun d hd => ?_⟩
    obtain ⟨used', hreads'⟩ := hleft.reads hd
    have hle := hreads'.offset_le
    exact ⟨by omega, (hrest d hd).2⟩

theorem offsets_wordsFrom (flags : SplitFlags) (separators : List Char) (start : Cursor) :
    (offsets (wordsFrom flags separators start)).Pairwise (· < ·) ∧
      ∀ n ∈ offsets (wordsFrom flags separators start),
        start.offset ≤ n ∧ n ≤ start.stop ∧ (flags.separateEach = false → n < start.stop) := by
  induction hlength : start.chars.length using Nat.strongRecOn generalizing start with
  | ind k ih =>
    subst hlength
    have hsingle : ∀ {m : Nat}, start.offset ≤ m ∧ m ≤ start.stop ∧
        (flags.separateEach = false → m < start.stop) → [m].Pairwise (· < ·) ∧
          ∀ n ∈ [m], start.offset ≤ n ∧ n ≤ start.stop ∧
            (flags.separateEach = false → n < start.stop) := by
      intro m hm
      refine ⟨List.pairwise_singleton _ m, fun n hn => ?_⟩
      rwa [List.mem_singleton.mp hn]
    rw [wordsFrom_eq_goOn_passing]
    cases hextract : extract flags.passing separators start with
    | error e =>
      obtain ⟨hle, hlt⟩ := extract_fail hextract
      exact hsingle ⟨hle, Nat.le_of_lt hlt, fun _ => hlt⟩
    | ok e =>
      obtain ⟨_ | w, rest⟩ := e
      · exact ⟨List.Pairwise.nil, fun n hn => absurd hn List.not_mem_nil⟩
      · have hleave : flags.passing.leaveSeparators = false := rfl
        obtain ⟨hle, hge, hlt, hrest⟩ := extract_offset hleave hextract
        rcases rest with _ | rest
        · exact hsingle ⟨hle, hge, hlt⟩
        · obtain ⟨hoffset, hstop⟩ := hrest rest rfl
          obtain ⟨hordered, hwithin⟩ := ih _ (extract_rest_lt hleave hextract) rest rfl
          rw [hstop] at hwithin
          show (w.offset :: offsets (wordsFrom flags separators rest)).Pairwise (· < ·) ∧
            ∀ n ∈ w.offset :: offsets (wordsFrom flags separators rest),
              start.offset ≤ n ∧ n ≤ start.stop ∧ (flags.separateEach = false → n < start.stop)
          refine ⟨List.pairwise_cons.mpr ⟨fun n hn => ?_, hordered⟩, fun n hn => ?_⟩
          · exact Nat.lt_of_lt_of_le hoffset (hwithin n hn).1
          · rcases List.mem_cons.mp hn with rfl | hn
            · exact ⟨hle, hge, hlt⟩
            · obtain ⟨hfrom, hto⟩ := hwithin n hn
              exact ⟨by omega, hto⟩

/-- **Words come one after another in the text, and a failure after them.** -/
theorem offsets_increasing (flags : SplitFlags) (separators input : List Char) :
    (offsets (words flags separators input)).Pairwise (· < ·) ∧
      ∀ n ∈ offsets (words flags separators input), n ≤ input.length := by
  obtain ⟨hordered, hwithin⟩ := offsets_wordsFrom flags separators ⟨0, input⟩
  refine ⟨hordered, fun n hn => ?_⟩
  have hle := (hwithin n hn).2.1
  rwa [Cursor.stop, Nat.zero_add] at hle

/-- If separators between words are skipped, all of them stand before the end of the text. -/
theorem offsets_ordered (h : flags.separateEach = false) (separators input : List Char) :
    (offsets (words flags separators input)).Pairwise (· < ·) ∧
      ∀ n ∈ offsets (words flags separators input), n < input.length := by
  obtain ⟨hordered, hwithin⟩ := offsets_wordsFrom flags separators ⟨0, input⟩
  refine ⟨hordered, fun n hn => ?_⟩
  have hlt := (hwithin n hn).2.2 h
  rwa [Cursor.stop, Nat.zero_add] at hlt

end UnitLint.Words
