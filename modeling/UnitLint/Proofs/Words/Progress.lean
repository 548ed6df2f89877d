import UnitLint.Proofs.Words.Literal
import UnitLint.Proofs.Words.Offsets
import Mathlib.Data.List.Perm.Subperm

/-! # Extraction makes progress

What an extraction leaves is a shorter end of the text, but for one case: each separator ends a word
and stays, and one comes first (`Stays`). It leaves nothing only if nothing but separators came
after the word, and something only if that holds a word, or a failure (`Progress`). So a text is
split into no more words than it has characters, and one (`extraction_progress`). -/

namespace UnitLint.Words

variable {flags : SplitFlags} {separators : List Char}

/-! ### What an extraction leaves -/

/-- The source text of a word is read as the word, and to its end: where separators after a word
stay, nothing is left of it. -/
def IsSource (flags : SplitFlags) (separators source : List Char) (w : Word) : Prop :=
  extractFirst flags.leaving separators source = .ok (some ⟨w.text, 0⟩, none)

/-- Nothing but separators is before the source text of the word and after it, or in the text, if
there is no word. -/
def OnlySeparatorsAround (flags : SplitFlags) (separators input : List Char) : Option Word → Prop
  | none => ∀ c ∈ input, separators.contains c = true
  | some w => ∃ before source after, input = before ++ (source ++ after) ∧
      w.offset = before.length ∧ IsSource flags separators source w ∧
      (∀ c ∈ before, separators.contains c = true) ∧ ∀ c ∈ after, separators.contains c = true

/-- What the word and the rest say about the text that they are extracted from. -/
structure Progress (flags : SplitFlags) (separators input : List Char) (word : Option Word)
    (rest : Option (List Char)) : Prop where
  suffix : ∀ r ∈ rest, r <:+ input
  shorter : ¬ Stays flags separators input → ∀ r ∈ rest, r.length < input.length
  stays : Stays flags separators input → word = some ⟨"", 0⟩ ∧ rest = some input
  /-- Where separators are passed, a rest holds another word, or fails. -/
  goes_on : flags.leaveSeparators = false → ∀ r ∈ rest,
    (∃ e, extractFirst flags separators r = .error e) ∨
      ∃ w more, extractFirst flags separators r = .ok (some w, more)
  /-- Where separators are skipped, no rest means that nothing else was there. -/
  all_read : flags.separateEach = false → rest = none →
    OnlySeparatorsAround flags separators input word

theorem extract_of_stays {input : List Char} (h : Stays flags separators input) (n : Nat) :
    extract flags separators ⟨n, input⟩ = .ok ⟨some ⟨"", n⟩, some ⟨n, input⟩⟩ := by
  obtain ⟨heach, hleave, c, hc, hsep⟩ := h
  obtain ⟨s, rfl⟩ := List.head?_eq_some_iff.mp hc
  unfold extract afterWord
  rw [if_pos heach, if_pos hleave]
  exact if_pos hsep

/-! ### What comes next -/

/-- There is a word to extract, or a failure: each separator ends a word, or none comes first. -/
theorem exists_word {start : Cursor} (h : flags.separateEach = true ∨
    ∃ c s, start.chars = c :: s ∧ separators.contains c = false) :
    (∃ e, extract flags separators start = .error e) ∨
      ∃ w rest, extract flags separators start = .ok ⟨some w, rest⟩ := by
  have hword : (∃ e, word flags separators start = .error e) ∨
      ∃ w rest, word flags separators start = .ok ⟨some w, rest⟩ := by
    cases hword : word flags separators start with
    | error e => exact Or.inl ⟨e, rfl⟩
    | ok e =>
      obtain ⟨w, -, -, hw, -⟩ := word_ok hword
      obtain ⟨word', rest⟩ := e
      obtain rfl : word' = some w := hw
      exact Or.inr ⟨w, rest, rfl⟩
  rcases h with heach | ⟨c, s, hchars, hc⟩
  · unfold extract
    rw [if_pos heach]
    split
    · exact Or.inr ⟨_, _, rfl⟩
    · split
      · exact Or.inr ⟨_, _, rfl⟩
      · exact hword
  · rwa [extract_eq_word hchars hc]

/-- Where separators are skipped after a word, none comes first in what is left. -/
theorem LeftAt.starts (heach : flags.separateEach = false) (hleave : flags.leaveSeparators = false)
    {stop d : Cursor} {rest : Option Cursor} (h : LeftAt flags separators stop rest)
    (hd : rest = some d) : ∃ c s, d.chars = c :: s ∧ separators.contains c = false := by
  cases h with
  | all => cases hd
  | separator =>
    rw [afterWord_of_skip heach hleave] at hd
    obtain ⟨c, s, hchars⟩ := List.exists_cons_of_ne_nil (Cursor.ne_nil_of_nonempty? hd)
    obtain rfl := eq_of_nonempty? hd
    exact ⟨c, s, hchars, Cursor.head_skip (c := stop) (by rw [hchars]; rfl)⟩

/-- Where separators are passed, what is left holds a word, or fails. -/
theorem exists_word_of_rest (hleave : flags.leaveSeparators = false) {start rest : Cursor}
    {w : Option Word} (h : extract flags separators start = .ok ⟨w, some rest⟩) (n : Nat) :
    (∃ e, extract flags separators ⟨n, rest.chars⟩ = .error e) ∨
      ∃ w more, extract flags separators ⟨n, rest.chars⟩ = .ok ⟨some w, more⟩ := by
  refine exists_word ?_
  cases heach : flags.separateEach with
  | true => exact Or.inl rfl
  | false =>
    rw [extract_of_skip heach] at h
    split at h
    · cases h
    · obtain ⟨w', used, stop, -, -, -, hleft, -⟩ := word_ok h
      obtain ⟨c, s, hchars, hc⟩ := hleft.starts heach hleave rfl
      exact Or.inr ⟨c, s, hchars, hc⟩

/-- If nothing is left after a word, there is its source text, and separators after it. -/
theorem exists_source (heach : flags.separateEach = false) {start first : Cursor} {w : Word}
    (hfirst : (start.skip separators).nonempty? = some first)
    (h : word flags separators first = .ok ⟨some w, none⟩) :
    ∃ source stop, w.offset = first.offset ∧ first.Reads source stop ∧
      IsSource flags separators source w ∧ ∀ c ∈ stop.chars, separators.contains c = true := by
  rw [word_leaving] at h
  cases hword : word flags.leaving separators first with
  | error e => rw [hword] at h; cases h
  | ok e =>
    obtain ⟨w', source, stop, hw, hoffset, hreads, hleft, hsource⟩ := word_ok hword
    obtain ⟨word', rest⟩ := e
    obtain rfl : word' = some w' := hw
    rw [hword] at h
    injection h with h
    injection h with hw hrest
    obtain rfl := Option.some.inj hw
    refine ⟨source, stop, hoffset, hreads, ?_, ?_⟩
    · have hne := hleft.used_ne_nil hfirst hreads
      obtain rfl := eq_of_nonempty? hfirst
      obtain ⟨c, s, rfl, hc⟩ := starts_of_skip hne hreads
      refine extractFirst_ok_iff.mpr ⟨none, ?_, rfl⟩
      rw [extract_eq_word rfl hc]
      exact word_zero hsource
    · cases hleft with
      | all hnil => rw [hnil]; nofun
      | separator =>
        -- The separators after the word stay here, and are passed otherwise.
        have hafter : afterWord flags separators stop = none := hrest
        cases hleave : flags.leaveSeparators with
        | true => rw [afterWord, if_pos hleave] at hafter; cases hafter
        | false =>
          rw [afterWord_of_skip heach hleave] at hafter
          exact separators_of_skip hafter

theorem onlySeparatorsAround (heach : flags.separateEach = false) {input : List Char}
    {w : Option Word} (h : extract flags separators ⟨0, input⟩ = .ok ⟨w, none⟩) :
    OnlySeparatorsAround flags separators input w := by
  rw [extract_of_skip heach] at h
  split at h
  · rename_i hnone
    cases h
    exact separators_of_skip hnone
  · rename_i first hfirst
    obtain ⟨w', -, -, hw, -⟩ := word_ok h
    obtain rfl : w = some w' := hw
    obtain ⟨source, stop, hoffset, hreads, hsource, hafter⟩ := exists_source heach hfirst h
    obtain rfl := eq_of_nonempty? hfirst
    have hskip := Cursor.reads_skip separators ⟨0, input⟩
    refine ⟨input.takeWhile separators.contains, source, stop.chars, ?_, ?_, hsource,
      fun _ hc => separators_of_mem_takeWhile hc, hafter⟩
    · rw [← hreads.1]
      exact hskip.1
    · rw [hoffset, hskip.2, Nat.zero_add]

/-! ### Extraction from the start of a text -/

theorem progress {input : List Char} {w : Option Word} {rest : Option (List Char)}
    (h : extractFirst flags separators input = .ok (w, rest)) :
    Progress flags separators input w rest := by
  obtain ⟨r, hextract, rfl⟩ := extractFirst_ok_iff.mp h
  have hrest : ∀ s ∈ r.map (·.chars),
      ∃ d, d.chars = s ∧ extract flags separators ⟨0, input⟩ = .ok ⟨w, some d⟩ := by
    intro s hs
    obtain ⟨d, rfl, rfl⟩ := Option.map_eq_some_iff.mp hs
    exact ⟨d, rfl, hextract⟩
  refine ⟨fun s hs => ?_, fun hstays s hs => ?_, fun hstays => ?_, fun hleave s hs => ?_,
    fun heach hnone => ?_⟩
  · obtain ⟨d, rfl, hd⟩ := hrest s hs
    obtain ⟨used, hreads⟩ := extract_reads hd
    exact ⟨used, hreads.1.symm⟩
  · obtain ⟨d, rfl, hd⟩ := hrest s hs
    have hstays' : ¬ Stays flags separators (Cursor.mk 0 input).chars := hstays
    exact extract_lt_of_not_stays hstays' hd
  · rw [extract_of_stays hstays] at hextract
    cases hextract
    exact ⟨rfl, rfl⟩
  · obtain ⟨d, rfl, hd⟩ := hrest s hs
    rcases exists_word_of_rest hleave hd 0 with ⟨e, he⟩ | ⟨w', more, hmore⟩
    · exact Or.inl ⟨e, extractFirst_error_iff.mpr he⟩
    · exact Or.inr ⟨w', _, extractFirst_ok_iff.mpr ⟨more, hmore, rfl⟩⟩
  · obtain rfl := Option.map_eq_none_iff.mp hnone
    exact onlySeparatorsAround heach hextract

/-- There are no more numbers in ascending order than the last of them admits. -/
theorem length_le_of_pairwise {l : List Nat} {n : Nat} (hordered : l.Pairwise (· < ·))
    (hle : ∀ m ∈ l, m ≤ n) : l.length ≤ n + 1 := by
  have hnodup : l.Nodup := hordered.imp Nat.ne_of_lt
  have hsubset : l ⊆ List.range (n + 1) := fun m hm =>
    List.mem_range.mpr (Nat.lt_succ_of_le (hle m hm))
  have hlength := (List.subperm_of_subset hnodup hsubset).length_le
  rwa [List.length_range] at hlength

/-- **Extraction makes progress**: it leaves a shorter end of the text, unless the separator that
comes first stays, and it leaves something just if there is more to come. So a text is split into at
most as many words as it has characters, and one; they stand one after another in it. -/
theorem extraction_progress (flags : SplitFlags) (separators input : List Char) :
    (∀ w rest, extractFirst flags separators input = .ok (w, rest) →
        Progress flags separators input w rest) ∧
      (words flags separators input).1.length ≤ input.length + 1 ∧
      ((words flags separators input).1.map (·.offset)).Pairwise (· < ·) ∧
      ∀ w ∈ (words flags separators input).1, w.offset ≤ input.length := by
  obtain ⟨hordered, hwithin⟩ := offsets_increasing flags separators input
  have hwords : ((words flags separators input).1.map (·.offset)).Pairwise (· < ·) :=
    hordered.sublist (List.sublist_append_left _ _)
  have hle : ∀ n ∈ (words flags separators input).1.map (·.offset), n ≤ input.length :=
    fun n hn => hwithin n (List.mem_append_left _ hn)
  have hlength := length_le_of_pairwise hwords hle
  rw [List.length_map] at hlength
  exact ⟨fun w rest => progress, hlength, hwords, fun w hw => hle _ (List.mem_map_of_mem hw)⟩

/-- A word with separators around it and nothing left, and a separator that stays for ever. -/
theorem extraction_progress_ends :
    let each : SplitFlags := { separateEach := true, leaveSeparators := true }
    extractFirst {} [','] ",a,,".toList = .ok (some ⟨"a", 1⟩, none) ∧
      OnlySeparatorsAround {} [','] ",a,,".toList (some ⟨"a", 1⟩) ∧
      extractFirst each [','] ",a".toList = .ok (some ⟨"", 0⟩, some ",a".toList) ∧
      Progress each [','] ",a".toList (some ⟨"", 0⟩) (some ",a".toList) ∧
      words each [','] ",a".toList = ([⟨"", 0⟩, ⟨"a", 1⟩], none) := by
  intro each
  have hall : extractFirst {} [','] ",a,,".toList = .ok (some ⟨"a", 1⟩, none) := by
    decide +kernel
  have hstays : extractFirst each [','] ",a".toList = .ok (some ⟨"", 0⟩, some ",a".toList) := by
    decide
  exact ⟨hall, ((extraction_progress {} [','] _).1 _ _ hall).all_read rfl rfl, hstays,
    (extraction_progress each [','] _).1 _ _ hstays, by decide +kernel⟩

end UnitLint.Words
