import UnitLint.Proofs.Words.Extraction

/-! # Extracting words one after another

Splitting a text passes the separator after each word, whatever the flags say; extracting a first
word may leave it. Where separators are skipped before a word this makes no difference
(`wordsFrom_eq_goOn`). So the words of a text are those that are extracted one after another, each
from the rest that the one before left (`split_iff_repeated`). Only where each separator ends a word
and stays may that go on for ever. -/

namespace UnitLint.Words

variable {flags : SplitFlags} {separators : List Char}

/-! ### Going on after an extraction -/

/-- The words from an extraction on, where `more` are those from a cursor on. -/
def goOn (more : Cursor → List Word × Option SplitError) :
    Except SplitError Extraction → List Word × Option SplitError
  | .error e => ([], some e)
  | .ok ⟨none, _⟩ => ([], none)
  | .ok ⟨some w, none⟩ => ([w], none)
  | .ok ⟨some w, some rest⟩ => (w :: (more rest).1, (more rest).2)

theorem wordsFrom_eq_goOn_passing (start : Cursor) : wordsFrom flags separators start =
    goOn (wordsFrom flags separators) (extract flags.passing separators start) := by
  rw [wordsFrom]
  split
  · rename_i h
    rw [h]
    rfl
  · rename_i h
    rw [h]
    rfl
  · rename_i h
    rw [h]
    rfl
  · rename_i w rest h
    show (w :: (wordsFrom flags separators rest).1, (wordsFrom flags separators rest).2) = _
    rw [h]
    rfl

/-- Separators before the words do not matter. -/
theorem wordsFrom_skip (h : flags.separateEach = false) (start : Cursor) :
    wordsFrom flags separators start =
      match (start.skip separators).nonempty? with
      | none => ([], none)
      | some first => wordsFrom flags separators first := by
  have hpassing : flags.passing.separateEach = false := h
  rw [wordsFrom_eq_goOn_passing, extract_of_skip hpassing]
  cases hfirst : (start.skip separators).nonempty? with
  | none => rfl
  | some first =>
    dsimp only
    obtain rfl := eq_of_nonempty? hfirst
    rw [wordsFrom_eq_goOn_passing, extract_of_skip hpassing, Cursor.skip_skip, hfirst]

/-- Passing separators at once changes the rest, but not the words after it. -/
theorem goOn_word_passing (h : flags.separateEach = false) (hleave : flags.leaveSeparators = true)
    (first : Cursor) : goOn (wordsFrom flags separators) (word flags.passing separators first) =
      goOn (wordsFrom flags separators) (word flags separators first) := by
  have hpassing : flags.passing.separateEach = false := h
  have hleaving : flags.passing.leaving = flags := by
    obtain ⟨relax, unescape, keepUnknownEscapes, unescapeSeparators, keepQuotes, dropQuotes,
      separateEach, literalBackslash, leaveSeparators⟩ := flags
    obtain rfl : leaveSeparators = true := hleave
    rfl
  have hafter : ∀ c, afterWord flags.passing separators c = (c.skip separators).nonempty? :=
    afterWord_of_skip hpassing rfl
  rw [word_leaving, hleaving]
  cases hword : word flags separators first with
  | error e => rfl
  | ok e =>
    obtain ⟨w, rest⟩ := e
    rcases w with _ | w
    · rfl
    · rcases rest with _ | rest
      · rfl
      · show goOn _ (.ok ⟨some w, afterWord flags.passing separators rest⟩) =
          (w :: (wordsFrom flags separators rest).1, (wordsFrom flags separators rest).2)
        rw [hafter, wordsFrom_skip h rest]
        cases (rest.skip separators).nonempty? <;> rfl

/-- **Splitting goes on from the rest that an extraction leaves.** -/
theorem wordsFrom_eq_goOn (h : (flags.separateEach && flags.leaveSeparators) = false)
    (start : Cursor) : wordsFrom flags separators start =
      goOn (wordsFrom flags separators) (extract flags separators start) := by
  rw [wordsFrom_eq_goOn_passing]
  cases hleave : flags.leaveSeparators with
  | false =>
    have hpassing : flags.passing = flags := by
      unfold SplitFlags.passing
      rw [← hleave]
    rw [hpassing]
  | true =>
    have heach : flags.separateEach = false := by
      rwa [hleave, Bool.and_true] at h
    have hpassing : flags.passing.separateEach = false := heach
    rw [extract_of_skip heach, extract_of_skip hpassing]
    cases (start.skip separators).nonempty? with
    | none => rfl
    | some first => exact goOn_word_passing heach hleave first

/-! ### Splitting and its failure -/

theorem split_error_iff {input : List Char} {e : SplitError} :
    split flags separators input = .error e ↔ (words flags separators input).2 = some e := by
  unfold split
  rcases words flags separators input with ⟨ws, _ | e'⟩ <;> simp

theorem exists_split_iff {input : List Char} :
    (∃ ws, split flags separators input = .ok ws) ↔ (words flags separators input).2 = none := by
  unfold split
  rcases words flags separators input with ⟨ws, _ | e⟩ <;> simp

/-! ### Repeated extraction -/

/-- The words that are extracted from a text one after another, each from the rest that the one
before left, and the failure that ends this, if any. The text comes after `n` characters. -/
inductive Repeated (flags : SplitFlags) (separators : List Char) :
    Nat → List Char → List Word → Option SplitError → Prop
  /-- No word can be extracted. -/
  | fail {n : Nat} {input : List Char} {e : SplitError}
      (h : extractFirst flags separators input = .error e) :
      Repeated flags separators n input [] (some (e.shift n))
  /-- There is no word. -/
  | stop {n : Nat} {input : List Char} {rest : Option (List Char)}
      (h : extractFirst flags separators input = .ok (none, rest)) :
      Repeated flags separators n input [] none
  /-- There is a word, and nothing after it. -/
  | last {n : Nat} {input : List Char} {w : Word}
      (h : extractFirst flags separators input = .ok (some w, none)) :
      Repeated flags separators n input [w.shift n] none
  /-- There is a word, and a rest, which comes after some characters. -/
  | next {n : Nat} {used rest : List Char} {w : Word} {ws : List Word} {error : Option SplitError}
      (h : extractFirst flags separators (used ++ rest) = .ok (some w, some rest))
      (more : Repeated flags separators (n + used.length) rest ws error) :
      Repeated flags separators n (used ++ rest) (w.shift n :: ws) error

theorem extractFirst_error_iff {input : List Char} {e : SplitError} :
    extractFirst flags separators input = .error e ↔
      extract flags separators ⟨0, input⟩ = .error e := by
  unfold extractFirst
  cases extract flags separators ⟨0, input⟩ <;> simp

theorem extractFirst_ok_iff {input : List Char} {w : Option Word} {rest : Option (List Char)} :
    extractFirst flags separators input = .ok (w, rest) ↔
      ∃ r, extract flags separators ⟨0, input⟩ = .ok ⟨w, r⟩ ∧ r.map (·.chars) = rest := by
  unfold extractFirst
  cases extract flags separators ⟨0, input⟩ with
  | error e => simp
  | ok e =>
    obtain ⟨w', r'⟩ := e
    constructor
    · intro h
      obtain ⟨rfl, rfl⟩ := Prod.mk.inj (Except.ok.inj h)
      exact ⟨r', rfl, rfl⟩
    · rintro ⟨r, h, rfl⟩
      obtain ⟨rfl, rfl⟩ := Extraction.mk.inj (Except.ok.inj h)
      rfl

theorem extract_eq_shift (n : Nat) (input : List Char) : extract flags separators ⟨n, input⟩ =
    ((extract flags separators ⟨0, input⟩).mapError (SplitError.shift n)).map
      (Extraction.shift n) := by
  rw [← extract_shift, Cursor.shift, Nat.zero_add]

/-- A first word and its rest are extracted from the cursor as well. -/
theorem extract_of_extractFirst {used rest : List Char} {w : Word}
    (h : extractFirst flags separators (used ++ rest) = .ok (some w, some rest)) (n : Nat) :
    extract flags separators ⟨n, used ++ rest⟩ =
      .ok ⟨some (w.shift n), some ⟨n + used.length, rest⟩⟩ := by
  obtain ⟨_ | ⟨offset, chars⟩, hextract, hrest⟩ := extractFirst_ok_iff.mp h
  · cases hrest
  · obtain rfl : chars = rest := Option.some.inj hrest
    obtain ⟨used', hchars, hoffset⟩ := extract_reads hextract
    obtain rfl := List.append_cancel_right hchars
    obtain rfl : offset = 0 + used.length := hoffset
    rw [extract_eq_shift, hextract]
    show Except.ok (Extraction.mk (some (w.shift n)) (some ⟨0 + used.length + n, chars⟩)) = _
    rw [Nat.zero_add, Nat.add_comm]

theorem Repeated.wordsFrom_eq (h : (flags.separateEach && flags.leaveSeparators) = false) {n : Nat}
    {input : List Char} {ws : List Word} {error : Option SplitError}
    (hrepeated : Repeated flags separators n input ws error) :
    wordsFrom flags separators ⟨n, input⟩ = (ws, error) := by
  induction hrepeated with
  | @fail n input e hfirst =>
    rw [wordsFrom_eq_goOn h, extract_eq_shift, extractFirst_error_iff.mp hfirst]
    rfl
  | @stop n input rest hfirst =>
    obtain ⟨r, hextract, -⟩ := extractFirst_ok_iff.mp hfirst
    rw [wordsFrom_eq_goOn h, extract_eq_shift, hextract]
    rfl
  | @last n input w hfirst =>
    obtain ⟨r, hextract, hrest⟩ := extractFirst_ok_iff.mp hfirst
    obtain rfl := Option.map_eq_none_iff.mp hrest
    rw [wordsFrom_eq_goOn h, extract_eq_shift, hextract]
    rfl
  | @next n used rest w ws error hfirst _ ih =>
    rw [wordsFrom_eq_goOn h, extract_of_extractFirst hfirst, goOn, ih]

theorem repeated_wordsFrom (h : (flags.separateEach && flags.leaveSeparators) = false)
    (separators : List Char) (n : Nat) (input : List Char) : Repeated flags separators n input
      (wordsFrom flags separators ⟨n, input⟩).1 (wordsFrom flags separators ⟨n, input⟩).2 := by
  induction hlength : input.length using Nat.strongRecOn generalizing n input with
  | ind k ih =>
    subst hlength
    rw [wordsFrom_eq_goOn h, extract_eq_shift]
    cases hextract : extract flags separators ⟨0, input⟩ with
    | error e => exact .fail (extractFirst_error_iff.mpr hextract)
    | ok e =>
      obtain ⟨_ | w, rest⟩ := e
      · exact .stop (extractFirst_ok_iff.mpr ⟨rest, hextract, rfl⟩)
      · rcases rest with _ | ⟨offset, rest⟩
        · exact .last (extractFirst_ok_iff.mpr ⟨none, hextract, rfl⟩)
        · -- A separator may be left in the rest, but never the whole text.
          have hstays : ¬ Stays flags separators (Cursor.mk 0 input).chars := by
            rintro ⟨heach, hleave, -⟩
            rw [heach, hleave] at h
            cases h
          have hlt := extract_lt_of_not_stays hstays hextract
          obtain ⟨used, hchars, hoffset⟩ := extract_reads hextract
          obtain rfl : input = used ++ rest := hchars
          obtain rfl : offset = 0 + used.length := hoffset
          have hrest : (⟨0 + used.length, rest⟩ : Cursor).shift n = ⟨n + used.length, rest⟩ := by
            rw [Cursor.shift, Nat.zero_add, Nat.add_comm]
          show Repeated flags separators n (used ++ rest)
            (w.shift n :: (wordsFrom flags separators (Cursor.shift n ⟨0 + used.length, rest⟩)).1)
            (wordsFrom flags separators (Cursor.shift n ⟨0 + used.length, rest⟩)).2
          rw [hrest]
          exact .next (extractFirst_ok_iff.mpr ⟨_, hextract, rfl⟩)
            (ih rest.length hlt (n + used.length) rest rfl)

/-- **The words of a text are those extracted one after another**, unless each separator ends a word
and stays: the same words at the same offsets, and the same failure. -/
theorem split_iff_repeated (h : (flags.separateEach && flags.leaveSeparators) = false)
    (input : List Char) :
    (∀ ws, split flags separators input = .ok ws ↔ Repeated flags separators 0 input ws none) ∧
      (∀ e, split flags separators input = .error e ↔
        ∃ ws, Repeated flags separators 0 input ws (some e)) ∧
      ∀ ws error, words flags separators input = (ws, error) ↔
        Repeated flags separators 0 input ws error := by
  have hwords : ∀ ws error, words flags separators input = (ws, error) ↔
      Repeated flags separators 0 input ws error := by
    intro ws error
    constructor
    · intro hws
      have hrepeated := repeated_wordsFrom h separators 0 input
      rw [words] at hws
      rwa [hws] at hrepeated
    · exact fun hrepeated => hrepeated.wordsFrom_eq h
  refine ⟨fun ws => ?_, fun e => ?_, hwords⟩
  · rw [← hwords, split]
    rcases words flags separators input with ⟨ws', _ | e⟩ <;> simp
  · simp only [← hwords, split]
    rcases words flags separators input with ⟨ws', _ | e⟩ <;> simp

/-- Separators that are left, one of them in a quote, and a quote that is left open. -/
theorem repeated_of_left_separators :
    let flags : SplitFlags := { dropQuotes := true, leaveSeparators := true }
    (flags.separateEach && flags.leaveSeparators) = false ∧
      Repeated flags [','] 0 ",a,'b,c',,d".toList [⟨"a", 1⟩, ⟨"b,c", 3⟩, ⟨"d", 10⟩] none ∧
      ∃ ws, Repeated flags [','] 0 "a,,'b,c".toList ws (some (.unbalancedQuote 3)) := by
  intro flags
  have hflags : (flags.separateEach && flags.leaveSeparators) = false := rfl
  have hwords : words flags [','] ",a,'b,c',,d".toList =
      ([⟨"a", 1⟩, ⟨"b,c", 3⟩, ⟨"d", 10⟩], none) := by decide +kernel
  have hopen : words flags [','] "a,,'b,c".toList =
      ([⟨"a", 0⟩], some (.unbalancedQuote 3)) := by decide +kernel
  exact ⟨hflags, ((split_iff_repeated hflags _).2.2 _ _).mp hwords,
    _, ((split_iff_repeated hflags _).2.2 _ _).mp hopen⟩

end UnitLint.Words
