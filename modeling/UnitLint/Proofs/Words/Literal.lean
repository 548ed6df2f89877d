import UnitLint.Proofs.Words.Row

/-! # Texts that are read as they are

A text is literal if none of its characters is one that the flags treat specially in a word: no
backslash escapes, and no quote mark is dropped. The words of a literal text are just what was read:
they are laid out in it one after another, and nothing but separators is between them and around
them (`laidOut_of_wordsFrom`). -/

namespace UnitLint.Words

open Text

variable {flags : SplitFlags} {separators : List Char}

/-! ### Characters read as they are -/

/-- Every character of the text is read as itself: no backslash escapes, and no mark is dropped. -/
structure Literal (flags : SplitFlags) (text : List Char) : Prop where
  backslash : flags.escaping = true → '\\' ∉ text
  mark : flags.dropQuotes = true → ∀ c ∈ text, isQuoteMark c = false

theorem Literal.mono {text text' : List Char} (h : Literal flags text) (hsub : text' ⊆ text) :
    Literal flags text' where
  backslash hescaping hmem := h.backslash hescaping (hsub hmem)
  mark hdrop c hc := h.mark hdrop c (hsub hc)

/-- A step at a character adds it to the word, or the word ends there. -/
theorem step_literal (separators : List Char) {c : Char} {s : List Char}
    (h : Literal flags (c :: s)) {quote : Option Quote}
    (hquote : flags.dropQuotes = true → quote = none) (offset : Nat) :
    (∃ quote', (flags.dropQuotes = true → quote' = none) ∧
      step flags separators quote ⟨offset, c :: s⟩ =
        .emit (String.utf8EncodeChar c) quote' ⟨offset + 1, s⟩) ∨
    separators.contains c = true ∧ step flags separators quote ⟨offset, c :: s⟩ =
      .stop [] (afterWord flags separators ⟨offset, c :: s⟩) := by
  have hescape : (flags.escaping && c == '\\') = false := by
    rw [Bool.and_eq_false_iff]
    cases hescaping : flags.escaping with
    | false => exact Or.inl rfl
    | true =>
      refine Or.inr (beq_eq_false_iff_ne.mpr ?_)
      rintro rfl
      exact h.backslash hescaping List.mem_cons_self
  have hbytes : flags.dropQuotes = false → quoteBytes flags c = String.utf8EncodeChar c := by
    intro hdrop
    rw [quoteBytes, if_neg (ne_true_of_eq_false hdrop)]
  cases quote with
  | some q =>
    have hdrop : flags.dropQuotes = false := by
      cases hdrop : flags.dropQuotes with
      | false => rfl
      | true => cases hquote hdrop
    have hopen : ∀ quote', flags.dropQuotes = true → quote' = (none : Option Quote) := by
      intro quote' h
      rw [hdrop] at h
      cases h
    rw [step_quoted hescape, quotedStep, hbytes hdrop]
    split
    · exact Or.inl ⟨_, hopen _, rfl⟩
    · exact Or.inl ⟨_, hopen _, rfl⟩
  | none =>
    rw [step_plain hescape, plainStep]
    split
    · rename_i hmark
      have hdrop : flags.dropQuotes = false := by
        cases hdrop : flags.dropQuotes with
        | false => rfl
        | true => simp [h.mark hdrop c List.mem_cons_self] at hmark
      rw [hbytes hdrop]
      refine Or.inl ⟨_, fun h => ?_, rfl⟩
      rw [hdrop] at h
      cases h
    · split
      · rename_i hsep
        exact Or.inr ⟨hsep, rfl⟩
      · exact Or.inl ⟨none, fun _ => rfl, rfl⟩

/-- At the end of the text a word ends as it is. -/
theorem eq_of_scan_end {quote : Option Quote} {offset : Nat} {bytes : List UInt8}
    {rest : Option Cursor} (h : scan flags separators quote ⟨offset, []⟩ = .ok (bytes, rest)) :
    bytes = [] ∧ rest = none := by
  cases quote with
  | none =>
    rw [scan_nil] at h
    cases h
    exact ⟨rfl, rfl⟩
  | some q =>
    by_cases hrelax : flags.relax = true
    · have hstep : step flags separators (some q) ⟨offset, []⟩ = .stop [] none := by
        rw [step_nil, endStep, if_pos hrelax]
      rw [scan_of_stop hstep] at h
      cases h
      exact ⟨rfl, rfl⟩
    · have hstep : step flags separators (some q) ⟨offset, []⟩ =
          .fail (.unbalancedQuote q.offset) := by
        rw [step_nil, endStep, if_neg hrelax]
      rw [scan_of_fail hstep] at h
      cases h

/-- **The bytes of a word are those of the characters read.** -/
theorem scan_literal {offset : Nat} {text : List Char} (h : Literal flags text)
    {quote : Option Quote} (hquote : flags.dropQuotes = true → quote = none) {bytes : List UInt8}
    {rest : Option Cursor}
    (hscan : scan flags separators quote ⟨offset, text⟩ = .ok (bytes, rest)) :
    ∃ used stop, (Cursor.mk offset text).Reads used stop ∧ LeftAt flags separators stop rest ∧
      bytes = Utf8.encode used := by
  induction text generalizing offset quote bytes with
  | nil =>
    obtain ⟨rfl, rfl⟩ := eq_of_scan_end hscan
    exact ⟨[], _, Cursor.Reads.refl _, .all rfl, rfl⟩
  | cons c s ih =>
    rcases step_literal separators h hquote offset with
      ⟨quote', hquote', hstep⟩ | ⟨hsep, hstep⟩
    · rw [scan_of_emit hstep] at hscan
      cases hnext : scan flags separators quote' ⟨offset + 1, s⟩ with
      | error e => rw [hnext] at hscan; cases hscan
      | ok p =>
        obtain ⟨more, rest'⟩ := p
        rw [hnext] at hscan
        cases hscan
        have hs : Literal flags s := h.mono (List.subset_cons_self c s)
        obtain ⟨used, stop, hreads, hleft, rfl⟩ := ih hs hquote' hnext
        exact ⟨c :: used, stop, (reads_cons offset c s).trans hreads, hleft, rfl⟩
    · rw [scan_of_stop hstep] at hscan
      cases hscan
      exact ⟨[], _, Cursor.Reads.refl _, .separator rfl hsep, rfl⟩

/-- A word is the text that it was read from. -/
theorem word_literal {start : Cursor} (h : Literal flags start.chars) {e : Extraction}
    (hword : word flags separators start = .ok e) :
    ∃ w stop, e.word = some w ∧ w.offset = start.offset ∧ start.Reads w.text.toList stop ∧
      LeftAt flags separators stop e.rest := by
  rw [word_eq] at hword
  cases hscan : scan flags separators none start with
  | error e => rw [hscan] at hword; cases hword
  | ok p =>
    obtain ⟨bytes, rest⟩ := p
    rw [hscan] at hword
    cases hword
    obtain ⟨used, stop, hreads, hleft, rfl⟩ := scan_literal h (fun _ => rfl) hscan
    refine ⟨_, stop, rfl, rfl, ?_, hleft⟩
    rwa [Utf8.decodeLossy_encode, String.toList_ofList]

/-! ### Extractions -/

/-- What stands between two words: separators, and only one where each of them ends a word. -/
structure IsSpace (flags : SplitFlags) (separators space : List Char) : Prop where
  nonempty : space ≠ []
  separates : ∀ c ∈ space, separators.contains c = true
  single : flags.separateEach = true → space.length = 1

/-- What stands before the first word or after the last: separators, and nothing where each of them
ends a word. -/
structure IsMargin (flags : SplitFlags) (separators margin : List Char) : Prop where
  separates : ∀ c ∈ margin, separators.contains c = true
  nil : flags.separateEach = true → margin = []

theorem IsMargin.empty : IsMargin flags separators [] := ⟨by simp, fun _ => rfl⟩

theorem IsMargin.of_skip (heach : flags.separateEach = false) {margin : List Char}
    (h : ∀ c ∈ margin, separators.contains c = true) : IsMargin flags separators margin :=
  ⟨h, fun h' => absurd h' (ne_true_of_eq_false heach)⟩

/-- If nothing is left after skipping, there are only separators. -/
theorem separators_of_skip {start : Cursor} (h : (start.skip separators).nonempty? = none) :
    ∀ c ∈ start.chars, separators.contains c = true := by
  rw [(Cursor.reads_skip separators start).1, Cursor.nil_of_nonempty? h, List.append_nil]
  exact fun _ => separators_of_mem_takeWhile

/-- After a word comes the end of the text, with or without separators before it, or a space. -/
theorem LeftAt.space_or_margin {stop : Cursor} {rest : Option Cursor}
    (h : LeftAt flags.passing separators stop rest) :
    (rest = none ∧ IsMargin flags separators stop.chars) ∨
      ∃ space next, rest = some next ∧ stop.Reads space next ∧ IsSpace flags separators space := by
  cases h with
  | all hnil =>
    rw [hnil]
    exact Or.inl ⟨rfl, .empty⟩
  | @separator c s hchars hsep =>
    have hleave : flags.passing.leaveSeparators = false := rfl
    cases heach : flags.separateEach with
    | true =>
      have hafter : afterWord flags.passing separators stop = some (stop.advance 1) := by
        rw [afterWord, if_neg (ne_true_of_eq_false hleave)]
        exact if_pos heach
      have hreads : stop.Reads [c] (stop.advance 1) := by
        have htake := Cursor.reads_advance (c := stop) (n := 1) (by rw [hchars]; simp)
        rwa [hchars] at htake
      have hspace : IsSpace flags separators [c] :=
        ⟨List.cons_ne_nil c [], by simpa using hsep, fun _ => rfl⟩
      exact Or.inr ⟨[c], _, hafter, hreads, hspace⟩
    | false =>
      have hpassing : flags.passing.separateEach = false := heach
      rw [afterWord_of_skip hpassing hleave]
      cases hnext : (stop.skip separators).nonempty? with
      | none => exact Or.inl ⟨rfl, .of_skip heach (separators_of_skip hnext)⟩
      | some next =>
        obtain rfl := eq_of_nonempty? hnext
        refine Or.inr ⟨_, _, rfl, Cursor.reads_skip separators stop, ?_,
          fun _ => separators_of_mem_takeWhile, fun h => absurd h (ne_true_of_eq_false heach)⟩
        rw [hchars, List.takeWhile_cons_of_pos hsep]
        exact List.cons_ne_nil _ _

/-- **A word is extracted from a literal text as it stands there**, after a margin. -/
theorem extract_literal {start : Cursor} (h : Literal flags start.chars) {e : Extraction}
    (hextract : extract flags.passing separators start = .ok e) :
    (e = ⟨none, none⟩ ∧ flags.separateEach = false ∧
      ∀ c ∈ start.chars, separators.contains c = true) ∨
    ∃ margin first w stop, e.word = some w ∧ IsMargin flags separators margin ∧
      start.Reads margin first ∧ w.offset = first.offset ∧ first.Reads w.text.toList stop ∧
      (flags.separateEach = false → w.text ≠ "") ∧
      LeftAt flags.passing separators stop e.rest := by
  have hpassing : Literal flags.passing start.chars := ⟨h.backslash, h.mark⟩
  cases heach : flags.separateEach with
  | true =>
    have heach' : flags.passing.separateEach = true := heach
    rw [extract, if_pos heach'] at hextract
    refine Or.inr ⟨[], start, ?_⟩
    split at hextract
    · rename_i hnil
      cases hextract
      exact ⟨emptyWord start, start, rfl, .empty, Cursor.Reads.refl _, rfl, Cursor.Reads.refl _,
        Bool.noConfusion, .all hnil⟩
    · rename_i c s hchars
      split at hextract
      · rename_i hsep
        cases hextract
        exact ⟨emptyWord start, start, rfl, .empty, Cursor.Reads.refl _, rfl, Cursor.Reads.refl _,
          Bool.noConfusion, .separator hchars hsep⟩
      · obtain ⟨w, stop, hw, hoffset, hreads, hleft⟩ := word_literal hpassing hextract
        exact ⟨w, stop, hw, .empty, Cursor.Reads.refl _, hoffset, hreads, Bool.noConfusion, hleft⟩
  | false =>
    have heach' : flags.passing.separateEach = false := heach
    have hskip := Cursor.reads_skip separators start
    have hmargin : IsMargin flags separators (start.chars.takeWhile separators.contains) :=
      .of_skip heach fun _ => separators_of_mem_takeWhile
    rw [extract_of_skip heach'] at hextract
    cases hfirst : (start.skip separators).nonempty? with
    | none =>
      rw [hfirst] at hextract
      cases hextract
      exact Or.inl ⟨rfl, rfl, separators_of_skip hfirst⟩
    | some first =>
      rw [hfirst] at hextract
      have hliteral : Literal flags.passing first.chars := by
        obtain rfl := eq_of_nonempty? hfirst
        exact hpassing.mono hskip.subset
      obtain ⟨w, stop, hw, hoffset, hreads, hleft⟩ := word_literal hliteral hextract
      have hne := hleft.used_ne_nil hfirst hreads
      obtain rfl := eq_of_nonempty? hfirst
      refine Or.inr ⟨_, _, w, stop, hw, hmargin, hskip, hoffset, hreads, fun _ hempty => hne ?_,
        hleft⟩
      rw [hempty]
      rfl

/-! ### Words laid out in a text -/

/-- The words stand in the text, which comes after `n` characters, with spaces between them and
margins around them. -/
inductive LaidOut (flags : SplitFlags) (separators : List Char) :
    Nat → List Char → List Word → Prop
  /-- There is no word. -/
  | blank {n : Nat} {text : List Char} (heach : flags.separateEach = false)
      (h : ∀ c ∈ text, separators.contains c = true) : LaidOut flags separators n text []
  /-- There is a word, and nothing but separators after it. -/
  | last {n : Nat} {margin trail : List Char} {word : String}
      (hmargin : IsMargin flags separators margin) (htrail : IsMargin flags separators trail)
      (hword : flags.separateEach = false → word ≠ "") :
      LaidOut flags separators n (margin ++ (word.toList ++ trail)) [⟨word, n + margin.length⟩]
  /-- There is a word, and text after the space that ends it. -/
  | next {n : Nat} {margin space rest : List Char} {word : String} {found : List Word}
      (hmargin : IsMargin flags separators margin) (hspace : IsSpace flags separators space)
      (hword : flags.separateEach = false → word ≠ "")
      (more : LaidOut flags separators
        (n + margin.length + word.length + space.length) rest found) :
      LaidOut flags separators n (margin ++ (word.toList ++ (space ++ rest)))
        (⟨word, n + margin.length⟩ :: found)

/-- **The words of a literal text are laid out in it.** -/
theorem laidOut_of_wordsFrom {start : Cursor} (h : Literal flags start.chars) {found : List Word}
    (hwords : wordsFrom flags separators start = (found, none)) :
    LaidOut flags separators start.offset start.chars found := by
  induction hlength : start.chars.length using Nat.strongRecOn generalizing start found with
  | ind k ih =>
    subst hlength
    rw [wordsFrom_eq_goOn_passing] at hwords
    cases hextract : extract flags.passing separators start with
    | error e => rw [hextract] at hwords; cases hwords
    | ok e =>
      rw [hextract] at hwords
      rcases extract_literal h hextract with ⟨rfl, heach, hall⟩ |
        ⟨margin, first, w, stop, hw, hmargin, hreads, hoffset, hreads', hne, hleft⟩
      · cases hwords
        exact .blank heach hall
      · obtain ⟨_, rest⟩ := e
        obtain rfl : _ = some w := hw
        have hw : w = ⟨w.text, start.offset + margin.length⟩ := by
          rw [← hreads.2, ← hoffset]
        rw [hreads.1, hreads'.1]
        rcases hleft.space_or_margin with ⟨hrest, htrail⟩ | ⟨space, next, hrest, hreads'', hspace⟩
        · obtain rfl : rest = none := hrest
          cases hwords
          rw [hw]
          exact .last hmargin htrail hne
        · obtain rfl : rest = some next := hrest
          have hleave : flags.passing.leaveSeparators = false := rfl
          have hnext : Literal flags next.chars :=
            h.mono ((hreads.trans hreads').trans hreads'').subset
          have hstop : next.offset =
              start.offset + margin.length + w.text.length + space.length := by
            rw [hreads''.2, hreads'.2, hreads.2, String.length_toList]
          cases hmore : wordsFrom flags separators next with
          | mk found' error =>
            rw [goOn, hmore] at hwords
            cases hwords
            have hlaid := ih _ (extract_rest_lt hleave hextract) hnext hmore rfl
            rw [hstop] at hlaid
            rw [hreads''.1, hw]
            exact .next hmargin hspace hne hlaid

end UnitLint.Words
