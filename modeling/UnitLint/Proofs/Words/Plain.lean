import UnitLint.Proofs.Words.Joining
import UnitLint.Proofs.Words.Runs

/-! # Plain texts

A text is plain if it has no quote mark that would open a quote and no backslash that would start an
escape. Splitting a plain text never fails, and what it gives can be said without the scan
(`split_plain`): the maximal runs of characters that are no separators or, where each separator ends
a word, the fields between the separators, some of which may be empty. So the words can be joined
again by any separator that is plain, and joining fields by the only separator gives the text
back. -/

namespace UnitLint.Words

open Text

variable {flags : SplitFlags} {separators : List Char}

/-! ### Scanning a plain text -/

/-- No character opens a quote, and none starts an escape. -/
structure Plain (flags : SplitFlags) (text : List Char) : Prop where
  mark : flags.quoting = false ∨ ∀ c ∈ text, isQuoteMark c = false
  backslash : flags.literalBackslash = true ∨ '\\' ∉ text

namespace Plain

theorem mono {text text' : List Char} (h : Plain flags text) (hsub : text' ⊆ text) :
    Plain flags text' where
  mark := h.mark.imp_right fun hmark c hc => hmark c (hsub hc)
  backslash := h.backslash.imp_right fun hback hmem => hback (hsub hmem)

theorem not_mark {c : Char} {s : List Char} (h : Plain flags (c :: s)) :
    (flags.quoting && isQuoteMark c) = false := by
  rcases h.mark with hquoting | hmark
  · rw [hquoting, Bool.false_and]
  · rw [hmark c List.mem_cons_self, Bool.and_false]

theorem not_escape {c : Char} {s : List Char} (h : Plain flags (c :: s)) :
    (flags.escaping && c == '\\') = false := by
  rcases h.backslash with hback | hback
  · rw [SplitFlags.escaping, hback]
    rfl
  · have hne : (c == '\\') = false := by
      refine beq_eq_false_iff_ne.mpr ?_
      rintro rfl
      exact hback List.mem_cons_self
    rw [hne, Bool.and_false]

theorem literal {text : List Char} (h : Plain flags text) : Literal flags text where
  backslash hescaping := by
    rcases h.backslash with hback | hback
    · rw [SplitFlags.escaping, hback] at hescaping
      cases hescaping
    · exact hback
  mark hdrop := by
    rcases h.mark with hquoting | hmark
    · rw [SplitFlags.quoting, hdrop, Bool.or_true] at hquoting
      cases hquoting
    · exact hmark

/-- **The scan of a plain text reads up to the first separator.** -/
theorem scan {text : List Char} (h : Plain flags text) (separators : List Char) (offset : Nat) :
    ∃ rest, Words.scan flags separators none ⟨offset, text⟩ =
      .ok (Utf8.encode (text.takeWhile fun c => !separators.contains c), rest) := by
  induction text generalizing offset with
  | nil => exact ⟨none, scan_nil offset⟩
  | cons c s ih =>
    have hstep : step flags separators none ⟨offset, c :: s⟩ =
        plainStep flags separators c ⟨offset, c :: s⟩ := step_plain h.not_escape offset s
    rw [plainStep, if_neg (ne_true_of_eq_false h.not_mark)] at hstep
    cases hsep : separators.contains c with
    | true =>
      rw [if_pos hsep] at hstep
      refine ⟨afterWord flags separators ⟨offset, c :: s⟩, ?_⟩
      rw [scan_of_stop hstep, List.takeWhile_cons_of_neg (by rw [hsep]; exact Bool.false_ne_true)]
      rfl
    | false =>
      rw [if_neg (ne_true_of_eq_false hsep)] at hstep
      obtain ⟨rest, hrest⟩ := ih (h.mono (List.subset_cons_self c s)) (offset + 1)
      have hnext : (Cursor.mk offset (c :: s)).advance 1 = ⟨offset + 1, s⟩ := rfl
      refine ⟨rest, ?_⟩
      rw [scan_of_emit hstep, hnext, hrest, List.takeWhile_cons_of_pos (by rw [hsep]; rfl)]
      rfl

theorem word {start : Cursor} (h : Plain flags start.chars) (separators : List Char) :
    ∃ w rest, Words.word flags separators start = .ok ⟨some w, rest⟩ ∧
      ∀ c ∈ w.text.toList, separators.contains c = false := by
  obtain ⟨rest, hscan⟩ := h.scan separators start.offset
  rw [← String.toList_ofList (l := start.chars.takeWhile _)] at hscan
  refine ⟨_, rest, word_of_scan hscan, fun c hc => ?_⟩
  rw [String.toList_ofList] at hc
  simpa using List.all_eq_true.mp List.all_takeWhile c hc

/-- **An extraction from a plain text succeeds**, and there is no separator in its word. -/
theorem extract {start : Cursor} (h : Plain flags start.chars) (separators : List Char) :
    ∃ e, Words.extract flags separators start = .ok e ∧
      ∀ w ∈ e.word, ∀ c ∈ w.text.toList, separators.contains c = false := by
  have hword : ∀ {first : Cursor}, Plain flags first.chars →
      ∃ e, Words.word flags separators first = .ok e ∧
        ∀ w ∈ e.word, ∀ c ∈ w.text.toList, separators.contains c = false := by
    intro first hfirst
    obtain ⟨w, rest, hw, hfree⟩ := hfirst.word separators
    refine ⟨_, hw, fun w' hw' => ?_⟩
    obtain rfl := Option.some.inj hw'
    exact hfree
  have hempty : ∀ w ∈ some (emptyWord start), ∀ c ∈ w.text.toList,
      separators.contains c = false := by
    intro w hw
    obtain rfl := Option.some.inj hw
    exact fun c hc => absurd hc List.not_mem_nil
  unfold Words.extract
  split
  · split
    · exact ⟨_, rfl, hempty⟩
    · split
      · exact ⟨_, rfl, hempty⟩
      · exact hword h
  · split
    · exact ⟨_, rfl, fun w hw => by cases hw⟩
    · rename_i first hfirst
      obtain rfl := eq_of_nonempty? hfirst
      exact hword (h.mono (Cursor.reads_skip separators start).subset)

/-- **A plain text is split**, and no word has a separator in it. -/
theorem wordsFrom {start : Cursor} (h : Plain flags start.chars) (separators : List Char) :
    ∃ found, Words.wordsFrom flags separators start = (found, none) ∧
      ∀ w ∈ found, ∀ c ∈ w.text.toList, separators.contains c = false := by
  induction hlength : start.chars.length using Nat.strongRecOn generalizing start with
  | ind k ih =>
    subst hlength
    have hpassing : Plain flags.passing start.chars := ⟨h.mark, h.backslash⟩
    obtain ⟨e, hextract, hfree⟩ := hpassing.extract separators
    rw [wordsFrom_eq_goOn_passing, hextract]
    obtain ⟨_ | w, _ | rest⟩ := e
    · exact ⟨[], rfl, nofun⟩
    · exact ⟨[], rfl, nofun⟩
    · refine ⟨[w], rfl, fun w' hw' => ?_⟩
      obtain rfl := List.mem_singleton.mp hw'
      exact hfree w' rfl
    · have hleave : flags.passing.leaveSeparators = false := rfl
      obtain ⟨used, hreads⟩ := extract_reads hextract
      obtain ⟨found, hfound, hfree'⟩ :=
        ih _ (extract_rest_lt hleave hextract) (h.mono hreads.subset) rfl
      refine ⟨w :: found, by rw [goOn, hfound], fun w' hw' => ?_⟩
      rcases List.mem_cons.mp hw' with rfl | hw'
      · exact hfree w' rfl
      · exact hfree' w' hw'

end Plain

/-! ### Splitting a plain text -/

/-- What joins the words of a plain text is plain, if the separator is. -/
theorem Plain.intercalate {input : List Char} (h : Plain flags input) {c : Char}
    (hmark : isQuoteMark c = false) (hback : c ≠ '\\') {found : List Word}
    (hslice : ∀ w ∈ found, w.IsSlice input) :
    Plain flags ([c].intercalate (found.map (·.text.toList))) := by
  have hmem : ∀ d ∈ [c].intercalate (found.map (·.text.toList)), d = c ∨ d ∈ input := by
    intro d hd
    rcases mem_intercalate hd with rfl | ⟨field, hfield, hd⟩
    · exact Or.inl rfl
    · obtain ⟨w, hw, rfl⟩ := List.mem_map.mp hfield
      obtain ⟨before, after, rfl, -⟩ := hslice w hw
      exact Or.inr (List.mem_append_right _ (List.mem_append_left _ hd))
  refine ⟨h.mark.imp_right fun hinput d hd => ?_, h.backslash.imp_right fun hinput hd => ?_⟩
  · rcases hmem d hd with rfl | hd
    · exact hmark
    · exact hinput d hd
  · rcases hmem _ hd with heq | hd
    · exact hback heq.symm
    · exact hinput hd

theorem exists_split {input : List Char} (h : Plain flags input) (separators : List Char) :
    ∃ found, split flags separators input = .ok found ∧ LaidOut flags separators 0 input found ∧
      ∀ w ∈ found, ∀ c ∈ w.text.toList, separators.contains c = false := by
  have hstart : Plain flags (Cursor.mk 0 input).chars := h
  obtain ⟨found, hfound, hfree⟩ := hstart.wordsFrom separators
  have hsplit : split flags separators input = .ok found := by
    rw [split, words, hfound]
  exact ⟨found, hsplit, laidOut_of_split h.literal hsplit, hfree⟩

/-- The words of a plain text are those of the text that joins them. -/
theorem split_intercalate {input : List Char} (h : Plain flags input) {found : List Word}
    (hlaid : LaidOut flags separators 0 input found)
    (hfree : ∀ w ∈ found, ∀ c ∈ w.text.toList, separators.contains c = false) {c : Char}
    (hsep : separators.contains c = true) (hmark : isQuoteMark c = false) (hback : c ≠ '\\') :
    ∃ found', split flags separators ([c].intercalate (found.map (·.text.toList))) = .ok found' ∧
      found'.map (·.text) = found.map (·.text) := by
  have hslice := (lossless_of_laidOut hlaid).slice
  obtain ⟨found', hsplit, hlaid', hfree'⟩ :=
    exists_split (h.intercalate hmark hback hslice) separators
  refine ⟨found', hsplit, ?_⟩
  have htexts := hlaid.texts hfree
  have hfields : kept flags (([c].intercalate (found.map (·.text.toList))).splitOnP
      separators.contains) = found.map (·.text.toList) := by
    by_cases hnil : found.map (·.text.toList) = []
    · have heach : flags.separateEach = false := by
        cases heach : flags.separateEach with
        | false => rfl
        | true =>
          rw [hnil, kept_of_each heach] at htexts
          exact absurd htexts.symm (List.splitOnP_ne_nil _ _)
      rw [hnil]
      exact kept_separators heach nofun
    · have hmem : ∀ field ∈ found.map (·.text.toList), ∀ d ∈ field,
          separators.contains d = false := by
        intro field hfield
        obtain ⟨w, hw, rfl⟩ := List.mem_map.mp hfield
        exact hfree w hw
      rw [splitOnP_intercalate hsep hnil hmem, htexts, kept_kept]
  have heq : found'.map (·.text.toList) = found.map (·.text.toList) :=
    (hlaid'.texts hfree').trans hfields
  have hinjective : Function.Injective (List.map String.toList) :=
    List.map_injective_iff.mpr fun _ _ => String.toList_injective
  refine hinjective ?_
  rw [List.map_map, List.map_map]
  exact heq

/-- **Splitting a plain text** gives its maximal runs without separators or, where each separator
ends a word, the fields between its separators. Joining the words by a plain separator and splitting
again gives the same words, and joining fields by the only separator gives the text. -/
theorem split_plain {input : List Char} (h : Plain flags input) (separators : List Char) :
    ∃ found, split flags separators input = .ok found ∧
      (flags.separateEach = false → AreRuns separators input found) ∧
      (flags.separateEach = true → AreFields separators input found) ∧
      (∀ c, separators.contains c = true → isQuoteMark c = false → c ≠ '\\' →
        ∃ found', split flags separators ([c].intercalate (found.map (·.text.toList))) =
            .ok found' ∧ found'.map (·.text) = found.map (·.text)) ∧
      (flags.separateEach = true → ∀ c, (∀ d, d ∈ separators ↔ d = c) →
        [c].intercalate (found.map (·.text.toList)) = input) := by
  obtain ⟨found, hsplit, hlaid, hfree⟩ := exists_split h separators
  have hlossless := lossless_of_laidOut hlaid
  refine ⟨found, hsplit, fun heach => ?_, fun heach => hlaid.areFields heach hfree,
    fun c hsep hmark hback => split_intercalate h hlaid hfree hsep hmark hback,
    fun heach c hc => ?_⟩
  · exact hlossless.areRuns (hlaid.text_ne_empty heach) hfree
  · have hcontains : separators.contains = (· == c) := by
      funext d
      rw [Bool.eq_iff_iff, List.contains_iff_mem, beq_iff_eq]
      exact hc d
    have htexts := (hlaid.areFields heach hfree).texts
    rw [htexts, hcontains, ← List.splitOn_eq_splitOnP, List.intercalate_splitOn]

/-- Quotes hold words together, but there are none, and escapes are decoded, but there are none. -/
theorem split_plain_fields :
    let flags : SplitFlags := { dropQuotes := true, unescape := true, separateEach := true }
    let found : List Word := [⟨"a", 0⟩, ⟨"", 2⟩, ⟨"b c", 3⟩, ⟨"", 7⟩]
    Plain flags "a,,b c,".toList ∧ split flags [','] "a,,b c,".toList = .ok found ∧
      AreFields [','] "a,,b c,".toList found ∧
      [','].intercalate (found.map (·.text.toList)) = "a,,b c,".toList := by
  intro flags found
  have hplain : Plain flags "a,,b c,".toList := by
    have hmarks : "a,,b c,".toList.all (fun c => !isQuoteMark c) = true := by decide
    exact ⟨Or.inr (by simpa using hmarks), Or.inr (by decide)⟩
  have hsplit : split flags [','] "a,,b c,".toList = .ok found := by decide +kernel
  obtain ⟨found', hsplit', -, hfields, -, hjoin⟩ := split_plain hplain [',']
  obtain rfl : found = found' := Except.ok.inj (hsplit.symm.trans hsplit')
  exact ⟨hplain, hsplit, hfields rfl, hjoin rfl ',' fun d => List.mem_singleton⟩

end UnitLint.Words
