import UnitLint.Proofs.Words.Iteration
import UnitLint.Proofs.Words.OpenQuotes

/-! # Why a text cannot be split

Words are read one after another, and what stands before a word is read alike if the text ends
there or later (`GoesOn`). So a failure to split a text is a failure to read one word of it
(`exists_word_of_failure`), and the steps of that word lead to its cause (`cause_of_split`). A quote
that is open in the end was opened by a mark: the text can be split up to the mark, and not with
it. -/

namespace UnitLint.Words

variable {flags : SplitFlags} {separators : List Char}

/-! ### From one word to the next -/

/-- The text from `start` on has the same failure as from `next` on, whatever part of the rest is
there. -/
def GoesOn (flags : SplitFlags) (separators : List Char) (start : Cursor) (used : List Char)
    (next : Cursor) : Prop :=
  start.Reads used next ∧ ∀ front, front <+: next.chars →
    (wordsFrom flags separators ⟨start.offset, used ++ front⟩).2 =
      (wordsFrom flags separators ⟨next.offset, front⟩).2

theorem GoesOn.refl (start : Cursor) : GoesOn flags separators start [] start :=
  ⟨Cursor.Reads.refl start, fun _ _ => rfl⟩

theorem GoesOn.trans {start next last : Cursor} {used used' : List Char}
    (h : GoesOn flags separators start used next) (h' : GoesOn flags separators next used' last) :
    GoesOn flags separators start (used ++ used') last := by
  refine ⟨h.1.trans h'.1, fun front hfront => ?_⟩
  have hnext : used' ++ front <+: next.chars := by
    rw [h'.1.1]
    exact (List.prefix_append_right_inj used').mpr hfront
  rw [List.append_assoc, h.2 _ hnext, h'.2 front hfront]

/-- Where the text goes on, it comes to the same failure. -/
theorem GoesOn.failure_eq {start next : Cursor} {used : List Char}
    (h : GoesOn flags separators start used next) :
    (wordsFrom flags separators start).2 = (wordsFrom flags separators next).2 := by
  obtain ⟨offset, chars⟩ := start
  obtain rfl : chars = used ++ next.chars := h.1.1
  exact h.2 next.chars (List.prefix_refl _)

theorem failure_nil (n : Nat) : (wordsFrom flags separators ⟨n, []⟩).2 = none := by
  rw [wordsFrom_eq_goOn_passing]
  unfold extract
  split <;> rfl

theorem skip_cons {c : Char} (hc : separators.contains c = true) (n : Nat) (s : List Char) :
    (Cursor.mk n (c :: s)).skip separators = (Cursor.mk (n + 1) s).skip separators := by
  unfold Cursor.skip Cursor.advance
  rw [List.takeWhile_cons_of_pos hc, List.length_cons, List.drop_succ_cons, Nat.add_assoc,
    Nat.add_comm 1]

/-- The failure that is left, if anything is. -/
def failureIn (flags : SplitFlags) (separators : List Char) (rest : Option Cursor) :
    Option SplitError :=
  rest.bind fun next => (wordsFrom flags separators next).2

theorem goOn_some (w : Word) (rest : Option Cursor) :
    (goOn (wordsFrom flags separators) (.ok ⟨some w, rest⟩)).2 =
      failureIn flags separators rest := by
  cases rest <;> rfl

/-- After a word the separator that ended it is passed. -/
theorem failureIn_afterWord {c : Char} (hc : separators.contains c = true) (n : Nat)
    (s : List Char) :
    failureIn flags separators (afterWord flags.passing separators ⟨n, c :: s⟩) =
      (wordsFrom flags separators ⟨n + 1, s⟩).2 := by
  cases heach : flags.separateEach with
  | false =>
    have hpassing : flags.passing.separateEach = false := heach
    rw [afterWord_of_skip hpassing rfl, skip_cons hc, wordsFrom_skip heach ⟨n + 1, s⟩]
    cases ((Cursor.mk (n + 1) s).skip separators).nonempty? <;> rfl
  | true =>
    have hafter : afterWord flags.passing separators ⟨n, c :: s⟩ = some ⟨n + 1, s⟩ := by
      unfold afterWord
      rw [if_neg (by simp [SplitFlags.passing])]
      exact if_pos heach
    rw [hafter]
    rfl

/-- A separator that comes first is passed as well. -/
theorem goesOn_separator {c : Char} (hc : separators.contains c = true) (n : Nat)
    (s : List Char) : GoesOn flags separators ⟨n, c :: s⟩ [c] ⟨n + 1, s⟩ := by
  refine ⟨reads_cons n c s, fun front _ => ?_⟩
  rw [List.singleton_append]
  cases heach : flags.separateEach with
  | false => rw [wordsFrom_skip heach, skip_cons hc, ← wordsFrom_skip heach]
  | true =>
    have hextract : extract flags.passing separators ⟨n, c :: front⟩ =
        .ok ⟨some (emptyWord ⟨n, c :: front⟩),
          afterWord flags.passing separators ⟨n, c :: front⟩⟩ := by
      unfold extract
      rw [if_pos (show flags.passing.separateEach = true from heach)]
      exact if_pos hc
    rw [wordsFrom_eq_goOn_passing, hextract, goOn_some, failureIn_afterWord hc]

/-! ### Words -/

/-- The first character is no separator. -/
def StartsWord (separators s : List Char) : Prop :=
  ∃ c ∈ s.head?, separators.contains c = false

theorem StartsWord.of_prefix {s front : List Char} (h : StartsWord separators s)
    (hfront : front <+: s) (hne : front ≠ []) : StartsWord separators front := by
  obtain ⟨c, front, rfl⟩ := List.exists_cons_of_ne_nil hne
  obtain ⟨t, rfl⟩ := hfront
  exact h

/-- The failure of a word, or of what comes after it. -/
theorem failure_word {start : Cursor} (h : StartsWord separators start.chars) :
    (wordsFrom flags separators start).2 =
      match scan flags.passing separators none start with
      | .error e => some e
      | .ok (_, rest) => failureIn flags separators rest := by
  obtain ⟨c, hhead, hc⟩ := h
  obtain ⟨s, hchars⟩ := List.head?_eq_some_iff.mp hhead
  rw [wordsFrom_eq_goOn_passing, extract_eq_word hchars hc, word_eq]
  rcases scan flags.passing separators none start with e | ⟨bytes, rest⟩
  · rfl
  · exact goOn_some _ rest

/-- After a word that a separator ends. -/
theorem goesOn_word {start rest : Cursor} {bytes : List UInt8}
    (h : StartsWord separators start.chars)
    (hscan : scan flags.passing separators none start = .ok (bytes, some rest)) :
    ∃ used next, used ≠ [] ∧ GoesOn flags separators start used next := by
  obtain ⟨last, stop, bytes', hsteps, hstop⟩ := steps_of_scan_ok hscan
  rcases step_stop hstop with hnone | ⟨rfl, rfl, -, c, s, hchars, hc, hstop⟩
  · cases hnone
  · obtain ⟨used, bytes, hreads, hused⟩ := hsteps.scan
    obtain ⟨n, chars⟩ := stop
    obtain rfl : chars = c :: s := hchars
    refine ⟨used ++ [c], ⟨n + 1, s⟩, by simp, hreads.trans (reads_cons n c s),
      fun front hfront => ?_⟩
    have hprefix : c :: front <+: c :: s := List.cons_prefix_cons.mpr ⟨rfl, hfront⟩
    have hstarts : StartsWord separators (used ++ c :: front) := by
      refine h.of_prefix ?_ (by simp)
      rw [hreads.1]
      exact (List.prefix_append_right_inj used).mpr hprefix
    rw [List.append_assoc, List.singleton_append, failure_word hstarts,
      hused _ hprefix, scan_of_stop (hstop front)]
    exact failureIn_afterWord hc n front

/-- **A failure is that of a word.** -/
theorem exists_word_of_failure {start : Cursor} {e : SplitError}
    (h : (wordsFrom flags separators start).2 = some e) :
    ∃ used first, GoesOn flags separators start used first ∧ StartsWord separators first.chars ∧
      scan flags.passing separators none first = .error e := by
  induction hlength : start.chars.length using Nat.strongRecOn generalizing start with
  | ind k ih =>
    subst hlength
    -- After a separator or a word, what is left has the failure.
    have hmore : ∀ {used next}, used ≠ [] → GoesOn flags separators start used next →
        ∃ used first, GoesOn flags separators start used first ∧
          StartsWord separators first.chars ∧
            scan flags.passing separators none first = .error e := by
      intro used next hne hgoes
      have hlt : next.chars.length < start.chars.length := by
        have hpos := List.length_pos_iff.mpr hne
        rw [hgoes.1.1, List.length_append]
        omega
      obtain ⟨used', first, hgoes', hfirst⟩ := ih _ hlt (hgoes.failure_eq ▸ h) rfl
      exact ⟨used ++ used', first, hgoes.trans hgoes', hfirst⟩
    obtain ⟨n, _ | ⟨c, s⟩⟩ := start
    · rw [failure_nil] at h
      cases h
    · cases hc : separators.contains c with
      | true => exact hmore (List.cons_ne_nil c []) (goesOn_separator hc n s)
      | false =>
        have hstarts : StartsWord separators (c :: s) := ⟨c, rfl, hc⟩
        rcases hscan : scan flags.passing separators none ⟨n, c :: s⟩ with e' | ⟨bytes, _ | rest⟩
        · rw [failure_word hstarts, hscan] at h
          cases h
          exact ⟨[], _, GoesOn.refl _, hstarts, hscan⟩
        · rw [failure_word hstarts, hscan] at h
          cases h
        · obtain ⟨used, next, hne, hgoes⟩ := goesOn_word hstarts hscan
          exact hmore hne hgoes

/-- Outside quotes, a word that is being read fails as what is left of it. -/
theorem failure_of_steps {input used : List Char} {first stop : Cursor}
    (hgoes : GoesOn flags separators ⟨0, input⟩ used first)
    (hfirst : StartsWord separators first.chars)
    (hsteps : Steps flags.passing separators none first none stop) :
    ∃ front, (Cursor.mk 0 input).Reads front stop ∧ ∀ s, s <+: stop.chars →
      (words flags separators (front ++ s)).2 =
        match scan flags.passing separators none ⟨stop.offset, s⟩ with
        | .error e => some e
        | .ok (_, rest) => failureIn flags separators rest := by
  obtain ⟨part, bytes, hreads, hpart⟩ := hsteps.scan
  refine ⟨used ++ part, hgoes.1.trans hreads, fun s hs => ?_⟩
  have hprefix : part ++ s <+: first.chars := by
    rw [hreads.1]
    exact (List.prefix_append_right_inj part).mpr hs
  have hword : (words flags separators (used ++ part ++ s)).2 =
      (wordsFrom flags separators ⟨first.offset, part ++ s⟩).2 := by
    rw [List.append_assoc]
    exact hgoes.2 _ hprefix
  rw [hword]
  by_cases hnil : part ++ s = []
  · obtain ⟨rfl, rfl⟩ := List.append_eq_nil_iff.mp hnil
    rw [List.append_nil, failure_nil, scan_of_stop rfl]
    rfl
  · rw [failure_word (hfirst.of_prefix hprefix hnil), hpart s hs]
    cases scan flags.passing separators none ⟨stop.offset, s⟩ <;> rfl

/-! ### Causes -/

/-- A text that ends in quotes. The mark after `before` opened them, since the text can be split up
to the mark and not with it, and `inside` does not close them. -/
structure OpenQuotes (flags : SplitFlags) (separators before : List Char) (mark : Char)
    (inside : List Char) : Prop where
  quoting : flags.quoting = true
  isMark : isQuoteMark mark = true
  outside : ∃ ws, split flags separators before = .ok ws
  opened : split flags separators (before ++ [mark]) = .error (.unbalancedQuote before.length)
  unclosed : Unclosed flags.escaping mark inside

/-- What is wrong with a text that cannot be split, and the flags under which it is wrong. -/
inductive Cause (flags : SplitFlags) (separators : List Char) : List Char → SplitError → Prop
  /-- Quotes are open at the end of the text. -/
  | openQuotes {before : List Char} {mark : Char} {inside : List Char}
    (relax : flags.relax = false) (quotes : OpenQuotes flags separators before mark inside) :
    Cause flags separators (before ++ mark :: inside) (.unbalancedQuote before.length)
  /-- A backslash comes last, in quotes if it could be kept outside them. -/
  | lastBackslash {before : List Char} (escaping : flags.escaping = true)
    (relax : flags.relax = false)
    (quotes : flags.keepUnknownEscapes = true → ∃ outside mark inside,
      before = outside ++ mark :: inside ∧ OpenQuotes flags separators outside mark inside) :
    Cause flags separators (before ++ ['\\']) (.unbalancedEscape before.length)
  /-- What comes after a backslash is no escape. -/
  | noEscape {before : List Char} {c : Char} {after : List Char} {e : EscapeError}
    (escaping : flags.escaping = true) (keep : flags.keepUnknownEscapes = false)
    (error : flags.unescape = true ∧ Escape.decode false (c :: after) = .error e ∨
      flags.unescape = false ∧ flags.unescapeSeparators = true ∧ e = .unknown c) :
    Cause flags separators (before ++ '\\' :: c :: after) (.invalidEscape before.length e)

/-- A quote mark that is not in quotes opens them. -/
theorem scan_mark {flags : SplitFlags} {c : Char} (hquoting : flags.quoting = true)
    (hmark : isQuoteMark c = true) (hrelax : flags.relax = false) (separators : List Char)
    (n : Nat) : scan flags separators none ⟨n, [c]⟩ = .error (.unbalancedQuote n) := by
  have hback : (flags.escaping && c == '\\') = false := by
    rw [Bool.and_eq_false_iff]
    refine Or.inr (beq_eq_false_iff_ne.mpr ?_)
    rintro rfl
    cases hmark
  have hopen : step flags separators none ⟨n, [c]⟩ =
      .emit (quoteBytes flags c) (some ⟨c, n⟩) ⟨n + 1, []⟩ := by
    rw [step_plain hback, plainStep, if_pos (Bool.and_eq_true_iff.mpr ⟨hquoting, hmark⟩)]
    rfl
  have hend : step flags separators (some ⟨c, n⟩) ⟨n + 1, []⟩ = .fail (.unbalancedQuote n) := by
    rw [step_nil, endStep, if_neg (by simp [hrelax])]
  rw [scan_of_emit hopen, scan_of_fail hend]
  rfl

/-- **A quote that is open where a word fails** was opened by a mark, and nothing closed it. -/
theorem openQuotes_of_steps {input used : List Char} {first stop : Cursor} {q : Quote}
    (hgoes : GoesOn flags separators ⟨0, input⟩ used first)
    (hfirst : StartsWord separators first.chars)
    (hsteps : Steps flags.passing separators none first (some q) stop)
    (hrelax : flags.relax = false) :
    ∃ before inside, (Cursor.mk 0 input).Reads (before ++ q.mark :: inside) stop ∧
      q.offset = before.length ∧ OpenQuotes flags separators before q.mark inside := by
  rcases hsteps.opened with ⟨hnone, -⟩ | ⟨mid, next, inside, hmid, hopens, hinside, hkeeps⟩
  · cases hnone
  · obtain ⟨before, hreads, hbefore⟩ := failure_of_steps hgoes hfirst hmid
    have hoffset : mid.offset = before.length := hreads.2.trans (Nat.zero_add _)
    have hend : scan flags.passing separators none ⟨mid.offset, []⟩ = .ok ([], none) :=
      scan_of_stop rfl
    have hmark := scan_mark hopens.quoting hopens.mark hrelax separators mid.offset
    refine ⟨before, inside, ?_, hopens.offset.trans hoffset, hopens.quoting, hopens.mark,
      ?_, ?_, ?_⟩
    · have hall := (hreads.trans hopens.reads).trans hinside
      rwa [List.append_assoc, List.singleton_append] at hall
    · have hfailure := hbefore [] List.nil_prefix
      rw [hend, List.append_nil] at hfailure
      exact exists_split_iff.mpr hfailure
    · have hfailure := hbefore [q.mark] ⟨next.chars, hopens.reads.1.symm⟩
      rw [hmark] at hfailure
      rw [split_error_iff, hfailure, hoffset]
    · have hunclosed := hkeeps [] .nil
      rwa [List.append_nil] at hunclosed

/-- **A text that cannot be split has a cause of that**, and the failure points at it. -/
theorem cause_of_split {input : List Char} {e : SplitError}
    (h : split flags separators input = .error e) : Cause flags separators input e := by
  obtain ⟨used, first, hgoes, hfirst, hscan⟩ := exists_word_of_failure (split_error_iff.mp h)
  obtain ⟨last, stop, hsteps, hfails⟩ := steps_of_scan_error hscan
  obtain ⟨part, bytes, hpart, -⟩ := hsteps.scan
  obtain ⟨hchars, hoffset⟩ := hgoes.1.trans hpart
  rw [Nat.zero_add] at hoffset
  cases hfails with
  | openQuote hrelax =>
    obtain ⟨before, inside, hreads, hbefore, hquotes⟩ :=
      openQuotes_of_steps hgoes hfirst hsteps hrelax
    obtain rfl : input = before ++ _ :: inside := hreads.1.trans (List.append_nil _)
    rw [hbefore]
    exact .openQuotes hrelax hquotes
  | openEscape hescaping hrelax hkeep =>
    obtain rfl : input = used ++ part ++ ['\\'] := hchars
    obtain rfl := hoffset
    refine .lastBackslash hescaping hrelax fun hkeep' => ?_
    obtain ⟨q, rfl⟩ := Option.ne_none_iff_exists'.mp (hkeep hkeep')
    obtain ⟨before, inside, hreads, -, hquotes⟩ := openQuotes_of_steps hgoes hfirst hsteps hrelax
    exact ⟨before, q.mark, inside, List.append_cancel_right hreads.1, hquotes⟩
  | @noEscape _ _ c s _ hescaping hkeep herror =>
    obtain rfl : input = used ++ part ++ '\\' :: c :: s := hchars
    obtain rfl := hoffset
    refine .noEscape hescaping hkeep ?_
    have hescape : escape flags c s = .error _ := herror
    unfold escape at hescape
    split at hescape
    · exact Or.inl ⟨‹_›, hescape⟩
    · split at hescape <;> cases hescape
      exact Or.inr ⟨eq_false_of_ne_true ‹_›, ‹_›, rfl⟩

/-! ### Flags that rule causes out -/

/-- Where nothing need be closed, only an escape can be wrong. -/
theorem Cause.of_relax {input : List Char} {e : SplitError} (h : Cause flags separators input e)
    (hrelax : flags.relax = true) : (flags.escaping = true ∧ flags.keepUnknownEscapes = false) ∧
      ∃ n source, e = .invalidEscape n source := by
  cases h with
  | openQuotes hrelax' | lastBackslash _ hrelax' => rw [hrelax] at hrelax'; cases hrelax'
  | noEscape hescaping hkeep => exact ⟨⟨hescaping, hkeep⟩, _, _, rfl⟩

/-- Where a backslash is an ordinary character, only quotes can be wrong. -/
theorem Cause.of_literal {input : List Char} {e : SplitError} (h : Cause flags separators input e)
    (hescaping : flags.escaping = false) : ∃ n, e = .unbalancedQuote n := by
  cases h with
  | openQuotes => exact ⟨_, rfl⟩
  | lastBackslash hescaping' | noEscape hescaping' => rw [hescaping] at hescaping'; cases hescaping'

/-- Where nothing need be closed and no escape can be wrong, every text can be split. -/
theorem exists_split_of_forgiving (hrelax : flags.relax = true)
    (hescape : flags.keepUnknownEscapes = true ∨ flags.literalBackslash = true)
    (input : List Char) : ∃ ws, split flags separators input = .ok ws := by
  cases hsplit : split flags separators input with
  | ok ws => exact ⟨ws, rfl⟩
  | error e =>
    obtain ⟨⟨hescaping, hkeep⟩, -⟩ := (cause_of_split hsplit).of_relax hrelax
    rcases hescape with hkeep' | hliteral
    · rw [hkeep] at hkeep'
      cases hkeep'
    · rw [SplitFlags.escaping, hliteral] at hescaping
      cases hescaping

end UnitLint.Words
