import UnitLint.Proofs.Words.Scan

/-! # What an extraction reads

The rest that an extraction leaves is what comes after some of the characters (`extract_reads`), and
shorter than the text but for one case (`extract_lt_of_not_stays`). An extraction from another
offset is the same, moved (`extract_shift`). If separators are skipped, a word that is extracted is
spelled by some characters from the first that is no separator on: alone, they are read as the same
word (`extract_ok`). -/

namespace UnitLint.Words

variable {flags : SplitFlags} {separators : List Char}

/-! ### Skipping -/

theorem separators_of_mem_takeWhile {s : List Char} {c : Char}
    (h : c ∈ s.takeWhile separators.contains) : separators.contains c = true :=
  List.all_eq_true.mp List.all_takeWhile c h

namespace Cursor

theorem chars_skip (separators : List Char) (c : Cursor) :
    (c.skip separators).chars = c.chars.dropWhile separators.contains := by
  have hskip := (reads_skip separators c).1
  have hdrop : c.chars.takeWhile separators.contains ++ c.chars.dropWhile separators.contains =
      c.chars := List.takeWhile_append_dropWhile
  exact List.append_cancel_left (hskip.symm.trans hdrop.symm)

/-- No separator comes first after skipping. -/
theorem head_skip {c : Cursor} {a : Char} (h : a ∈ (c.skip separators).chars.head?) :
    separators.contains a = false := by
  have hhead := List.head?_dropWhile_not separators.contains c.chars
  rw [chars_skip, Option.mem_def] at h
  rw [h] at hhead
  simpa using hhead

theorem skip_eq_self {c : Cursor} (h : ∀ a ∈ c.chars.head?, separators.contains a = false) :
    c.skip separators = c := by
  have hnil : c.chars.takeWhile separators.contains = [] := by
    rcases hchars : c.chars with _ | ⟨a, s⟩
    · rfl
    · have ha := h a (by rw [hchars]; rfl)
      exact List.takeWhile_cons_of_neg (ne_true_of_eq_false ha)
  rw [skip, hnil]
  rfl

theorem skip_skip (separators : List Char) (c : Cursor) :
    (c.skip separators).skip separators = c.skip separators :=
  skip_eq_self fun _ ha => head_skip ha

theorem ne_nil_of_nonempty? {c d : Cursor} (h : c.nonempty? = some d) : d.chars ≠ [] := by
  obtain rfl := eq_of_nonempty? h
  rintro hnil
  rw [nonempty?, hnil] at h
  cases h

theorem nonempty?_of_ne_nil {c : Cursor} (h : c.chars ≠ []) : c.nonempty? = some c := by
  rw [nonempty?, if_neg (by simpa using h)]

theorem nil_of_nonempty? {c : Cursor} (h : c.nonempty? = none) : c.chars = [] := by
  rcases hchars : c.chars with _ | ⟨a, s⟩
  · rfl
  · rw [nonempty?_of_ne_nil (by rw [hchars]; exact List.cons_ne_nil a s)] at h
    cases h

end Cursor

/-- What comes after a word comes after some characters. -/
theorem afterWord_reads {c d : Cursor} {a : Char} {s : List Char} (hc : c.chars = a :: s)
    (h : afterWord flags separators c = some d) : ∃ used, c.Reads used d := by
  unfold afterWord at h
  split at h
  · cases h
    exact ⟨[], Cursor.Reads.refl c⟩
  · split at h
    · cases h
      exact ⟨_, Cursor.reads_advance (by rw [hc]; simp)⟩
    · obtain rfl := eq_of_nonempty? h
      exact ⟨_, Cursor.reads_skip separators c⟩

theorem afterWord_of_skip (h : flags.separateEach = false) (h' : flags.leaveSeparators = false)
    (c : Cursor) : afterWord flags separators c = (c.skip separators).nonempty? := by
  rw [afterWord, if_neg (ne_true_of_eq_false h'), if_neg (ne_true_of_eq_false h)]

theorem LeftAt.eq_skip (h : flags.separateEach = false) (h' : flags.leaveSeparators = false)
    {stop d : Cursor} {rest : Option Cursor} (hleft : LeftAt flags separators stop rest)
    (hd : rest = some d) : d = stop.skip separators := by
  cases hleft with
  | all => cases hd
  | separator _ _ =>
    rw [afterWord_of_skip h h'] at hd
    exact eq_of_nonempty? hd

/-- A word that starts at the first character that is no separator has that character. -/
theorem LeftAt.used_ne_nil {start first stop : Cursor} {used : List Char} {rest : Option Cursor}
    (h : LeftAt flags separators stop rest)
    (hfirst : (start.skip separators).nonempty? = some first)
    (hreads : first.Reads used stop) : used ≠ [] := by
  rintro rfl
  have hne := Cursor.ne_nil_of_nonempty? hfirst
  obtain rfl := eq_of_nonempty? hfirst
  have hchars : (start.skip separators).chars = stop.chars := hreads.1
  cases h with
  | all hnil => exact hne (hchars.trans hnil)
  | separator hcons hsep =>
    have := Cursor.head_skip (c := start) (by rw [hchars, hcons]; rfl)
    rw [hsep] at this
    cases this

/-- What is read after skipping starts with no separator. -/
theorem starts_of_skip {start stop : Cursor} {used : List Char} (hne : used ≠ [])
    (hreads : (start.skip separators).Reads used stop) :
    ∃ c s, used = c :: s ∧ separators.contains c = false := by
  obtain ⟨c, s, rfl⟩ := List.exists_cons_of_ne_nil hne
  refine ⟨c, s, rfl, Cursor.head_skip (c := start) ?_⟩
  rw [hreads.1]
  rfl

theorem LeftAt.reads {stop d : Cursor} {rest : Option Cursor}
    (h : LeftAt flags separators stop rest) (hd : rest = some d) : ∃ used, stop.Reads used d := by
  cases h with
  | all => cases hd
  | separator hchars _ => exact afterWord_reads hchars hd

/-! ### Words -/

/-- The word, `n` characters further on. -/
def Word.shift (n : Nat) (w : Word) : Word := ⟨w.text, w.offset + n⟩

/-- The extraction, `n` characters further on. -/
def Extraction.shift (n : Nat) (e : Extraction) : Extraction :=
  ⟨e.word.map (Word.shift n), e.rest.map (Cursor.shift n)⟩

theorem word_eq (start : Cursor) : word flags separators start =
    (scan flags separators none start).map fun p =>
      ⟨some ⟨String.ofList (Text.Utf8.decodeLossy p.1), start.offset⟩, p.2⟩ := by
  unfold word
  cases scan flags separators none start <;> rfl

theorem word_shift (flags : SplitFlags) (separators : List Char) (n : Nat) (start : Cursor) :
    word flags separators (start.shift n) =
      ((word flags separators start).mapError (SplitError.shift n)).map (Extraction.shift n) := by
  have h := scan_shift flags separators n none start
  rw [Option.map_none] at h
  rw [word_eq, word_eq, h]
  cases scan flags separators none start <;> rfl

theorem word_leaving (flags : SplitFlags) (separators : List Char) (start : Cursor) :
    word flags separators start = (word flags.leaving separators start).map fun e =>
      ⟨e.word, e.rest.bind (afterWord flags separators)⟩ := by
  rw [word_eq, word_eq, scan_leaving]
  cases scan flags.leaving separators none start <;> rfl

/-- **A word needs only the characters that spell it.** -/
theorem word_ok {start : Cursor} {e : Extraction} (h : word flags separators start = .ok e) :
    ∃ w used stop, e.word = some w ∧ w.offset = start.offset ∧ start.Reads used stop ∧
      LeftAt flags separators stop e.rest ∧
      word flags separators ⟨start.offset, used⟩ = .ok ⟨some w, none⟩ := by
  rw [word_eq] at h
  cases hscan : scan flags separators none start with
  | error e => rw [hscan] at h; cases h
  | ok p =>
    obtain ⟨bytes, rest⟩ := p
    rw [hscan] at h
    cases h
    obtain ⟨used, stop, hreads, hleft, hused⟩ := scan_ok hscan
    refine ⟨_, used, stop, rfl, rfl, hreads, hleft, ?_⟩
    rw [word_eq, hused]
    rfl

/-- A word that its characters alone are read as, read at the start of a text. -/
theorem word_zero {n : Nat} {s : List Char} {w : Word}
    (h : word flags separators ⟨n, s⟩ = .ok ⟨some w, none⟩) :
    word flags separators ⟨0, s⟩ = .ok ⟨some ⟨w.text, 0⟩, none⟩ := by
  have hshift := word_shift flags separators n ⟨0, s⟩
  rw [Cursor.shift, Nat.zero_add, h] at hshift
  cases hzero : word flags separators ⟨0, s⟩ with
  | error e => rw [hzero] at hshift; cases hshift
  | ok e =>
    obtain ⟨w', used, stop, hw', hoffset, -⟩ := word_ok hzero
    obtain ⟨word', rest'⟩ := e
    obtain rfl : word' = some w' := hw'
    rw [hzero] at hshift
    rcases rest' with _ | rest'
    · cases hshift
      obtain ⟨text, offset⟩ := w'
      obtain rfl : offset = 0 := hoffset
      rfl
    · cases hshift

/-! ### Extractions -/

theorem extract_of_skip (h : flags.separateEach = false) (start : Cursor) :
    extract flags separators start =
      match (start.skip separators).nonempty? with
      | none => .ok ⟨none, none⟩
      | some first => word flags separators first := by
  unfold extract
  exact if_neg (ne_true_of_eq_false h)

/-- Where no separator comes first, a word is read. -/
theorem extract_eq_word {start : Cursor} {c : Char} {s : List Char} (hchars : start.chars = c :: s)
    (hc : separators.contains c = false) :
    extract flags separators start = word flags separators start := by
  have hskip : start.skip separators = start := by
    refine Cursor.skip_eq_self fun a ha => ?_
    rw [hchars] at ha
    obtain rfl := Option.some.inj ha
    exact hc
  have hne : start.chars ≠ [] := by
    rw [hchars]
    exact List.cons_ne_nil c s
  unfold extract
  split
  · rw [hchars]
    dsimp only
    rw [if_neg (ne_true_of_eq_false hc)]
  · rw [hskip, Cursor.nonempty?_of_ne_nil hne]

/-- **An extraction from another offset** is the same extraction, moved. -/
theorem extract_shift (flags : SplitFlags) (separators : List Char) (n : Nat) (start : Cursor) :
    extract flags separators (start.shift n) =
      ((extract flags separators start).mapError (SplitError.shift n)).map
        (Extraction.shift n) := by
  unfold extract
  split
  · obtain ⟨offset, _ | ⟨c, s⟩⟩ := start
    · rfl
    · show (if separators.contains c then _ else _) = _
      dsimp only
      split
      · rw [afterWord_shift]
        rfl
      · exact word_shift flags separators n ⟨offset, c :: s⟩
  · rw [Cursor.skip_shift, Cursor.nonempty?_shift]
    cases (start.skip separators).nonempty? with
    | none => rfl
    | some first => exact word_shift flags separators n first

theorem word_reads {start rest : Cursor} {w : Option Word}
    (h : word flags separators start = .ok ⟨w, some rest⟩) : ∃ used, start.Reads used rest := by
  obtain ⟨w', used, stop, -, -, hreads, hleft, -⟩ := word_ok h
  obtain ⟨used', hreads'⟩ := hleft.reads rfl
  exact ⟨used ++ used', hreads.trans hreads'⟩

/-- **The rest comes after some characters.** -/
theorem extract_reads {start rest : Cursor} {w : Option Word}
    (h : extract flags separators start = .ok ⟨w, some rest⟩) : ∃ used, start.Reads used rest := by
  unfold extract at h
  split at h
  · split at h
    · cases h
    · rename_i c s hchars
      split at h
      · injection h with h
        injection h with _ h
        exact afterWord_reads hchars h
      · exact word_reads h
  · split at h
    · cases h
    · rename_i first hfirst
      obtain rfl := eq_of_nonempty? hfirst
      obtain ⟨used, hreads⟩ := word_reads h
      exact ⟨_, (Cursor.reads_skip separators start).trans hreads⟩

/-- An extraction that fails is a scan that does. -/
theorem exists_of_extract_error {start : Cursor} {e : SplitError}
    (h : extract flags separators start = .error e) :
    ∃ used first, start.Reads used first ∧ scan flags separators none first = .error e := by
  have hword : ∀ {first}, word flags separators first = .error e →
      scan flags separators none first = .error e := by
    intro first h
    rw [word_eq] at h
    cases hscan : scan flags separators none first with
    | error e' => rw [hscan] at h; cases h; rfl
    | ok p => rw [hscan] at h; cases h
  unfold extract at h
  split at h
  · split at h
    · cases h
    · split at h
      · cases h
      · exact ⟨[], start, Cursor.Reads.refl start, hword h⟩
  · split at h
    · cases h
    · rename_i first hfirst
      obtain rfl := eq_of_nonempty? hfirst
      exact ⟨_, _, Cursor.reads_skip separators start, hword h⟩

/-- **A word that is extracted is spelled** by some characters from the first that is no separator
on, and these are needed and no others. -/
theorem extract_ok (hflags : flags.separateEach = false) {start : Cursor} {w : Word}
    {rest : Option Cursor} (h : extract flags separators start = .ok ⟨some w, rest⟩) :
    ∃ used stop, used ≠ [] ∧ (start.skip separators).Reads used stop ∧
      LeftAt flags separators stop rest ∧ w.offset = (start.skip separators).offset ∧
      word flags separators ⟨w.offset, used⟩ = .ok ⟨some w, none⟩ := by
  rw [extract_of_skip hflags] at h
  split at h
  · cases h
  · rename_i first hfirst
    obtain ⟨w', used, stop, hw, hoffset, hreads, hleft, hused⟩ := word_ok h
    have hne := hleft.used_ne_nil hfirst hreads
    obtain rfl := eq_of_nonempty? hfirst
    cases hw
    rw [← hoffset] at hused
    exact ⟨used, stop, hne, hreads, hleft, hoffset, hused⟩

/-! ### Progress -/

/-- Each separator ends a word and stays, and one comes first. -/
def Stays (flags : SplitFlags) (separators input : List Char) : Prop :=
  flags.separateEach = true ∧ flags.leaveSeparators = true ∧
    ∃ c ∈ input.head?, separators.contains c = true

/-- A word that is read from the first character that is no separator on leaves less. -/
theorem word_rest_lt_of_skip {start first rest : Cursor} {w : Option Word}
    (hfirst : (start.skip separators).nonempty? = some first)
    (h : word flags separators first = .ok ⟨w, some rest⟩) :
    rest.chars.length < first.chars.length := by
  obtain ⟨w', used, stop, -, -, hreads, hleft, -⟩ := word_ok h
  have hpos := List.length_pos_iff.mpr (hleft.used_ne_nil hfirst hreads)
  obtain ⟨used', hreads'⟩ := hleft.reads rfl
  rw [hreads.1, hreads'.1]
  simp only [List.length_append]
  omega

/-- **An extraction leaves less**, unless the separator that comes first stays. -/
theorem extract_lt_of_not_stays {start rest : Cursor} {w : Option Word}
    (hstays : ¬ Stays flags separators start.chars)
    (h : extract flags separators start = .ok ⟨w, some rest⟩) :
    rest.chars.length < start.chars.length := by
  unfold extract at h
  split at h
  · rename_i heach
    split at h
    · cases h
    · rename_i c s hchars
      split at h
      · rename_i hsep
        injection h with h
        injection h with _ h
        refine afterWord_lt (eq_false_of_ne_true fun hleave => hstays ?_) hchars hsep h
        exact ⟨heach, hleave, c, by rw [hchars]; rfl, hsep⟩
      · rename_i hsep
        have hhead : ∀ a ∈ start.chars.head?, separators.contains a = false := by
          intro a ha
          rw [hchars] at ha
          obtain rfl := Option.some.inj ha
          exact eq_false_of_ne_true hsep
        have hfirst : (start.skip separators).nonempty? = some start := by
          have hne : start.chars ≠ [] := by
            rw [hchars]
            exact List.cons_ne_nil c s
          rw [Cursor.skip_eq_self hhead, Cursor.nonempty?_of_ne_nil hne]
        exact word_rest_lt_of_skip hfirst h
  · split at h
    · cases h
    · rename_i first hfirst
      have hlt := word_rest_lt_of_skip hfirst h
      obtain rfl := eq_of_nonempty? hfirst
      exact Nat.lt_of_lt_of_le hlt (Cursor.length_skip_le separators start)

end UnitLint.Words
