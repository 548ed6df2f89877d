import UnitLint.Proofs.Words.Iteration

/-! # How words are spelled

The words of a text are spelled in it one after another: after some separators, each stands at its
offset in characters that alone are split into that word (`spelled_words`). Separators come before
it, and after it come separators or the end of the text. -/

namespace UnitLint.Words

variable {flags : SplitFlags} {separators : List Char}

/-- Words are spelled in a text that comes after `n` characters: the first after a gap of
separators, where a spelling starts that alone is split into this word, and those after it in what
is left. -/
inductive Spelled (flags : SplitFlags) (separators : List Char) :
    Nat → List Char → List Word → Prop
  | nil (n : Nat) (text : List Char) : Spelled flags separators n text []
  | cons {n : Nat} {gap spelling rest : List Char} {w : Word} {ws : List Word}
      (gap_separates : ∀ c ∈ gap, separators.contains c = true)
      (starts : ∃ c s, spelling = c :: s ∧ separators.contains c = false)
      (ends : ∀ c ∈ rest.head?, separators.contains c = true)
      (spells : split flags separators spelling = .ok [⟨w.text, 0⟩])
      (offset_eq : w.offset = n + gap.length)
      (more : Spelled flags separators (w.offset + spelling.length) rest ws) :
      Spelled flags separators n (gap ++ (spelling ++ rest)) (w :: ws)

/-- More separators before the first word do not matter. -/
theorem Spelled.append_left {n : Nat} {text : List Char} {ws : List Word} {gap : List Char}
    (hgap : ∀ c ∈ gap, separators.contains c = true)
    (h : Spelled flags separators (n + gap.length) text ws) :
    Spelled flags separators n (gap ++ text) ws := by
  cases h with
  | nil => exact .nil n _
  | @cons _ gap' spelling rest w ws hgap' hstarts hends hspells hoffset hmore =>
    rw [← List.append_assoc]
    refine .cons (fun c hc => ?_) hstarts hends hspells ?_ hmore
    · rcases List.mem_append.mp hc with hc | hc
      · exact hgap c hc
      · exact hgap' c hc
    · rw [hoffset, List.length_append, Nat.add_assoc]

/-- A word stands at its offset, where no separator is. -/
theorem Spelled.getElem? {n : Nat} {text : List Char} {ws : List Word}
    (h : Spelled flags separators n text ws) {w : Word} (hw : w ∈ ws) :
    ∃ i c, w.offset = n + i ∧ text[i]? = some c ∧ separators.contains c = false := by
  induction h with
  | nil => cases hw
  | @cons n gap spelling rest w' ws hgap hstarts hends hspells hoffset hmore ih =>
    rcases List.mem_cons.mp hw with rfl | hw
    · obtain ⟨c, s, rfl, hc⟩ := hstarts
      refine ⟨gap.length, c, hoffset, ?_, hc⟩
      rw [List.getElem?_append_right (Nat.le_refl _), Nat.sub_self]
      rfl
    · obtain ⟨i, c, hi, hchar, hc⟩ := ih hw
      refine ⟨gap.length + (spelling.length + i), c, by omega, ?_, hc⟩
      rw [List.getElem?_append_right (Nat.le_add_right _ _), Nat.add_sub_cancel_left,
        List.getElem?_append_right (Nat.le_add_right _ _), Nat.add_sub_cancel_left, hchar]

/-- A word that its spelling alone is read as is all that the spelling is split into. -/
theorem split_spelling {n : Nat} {spelling : List Char} {w : Word}
    (hword : word flags.passing separators ⟨n, spelling⟩ = .ok ⟨some w, none⟩)
    (hstarts : ∃ c s, spelling = c :: s ∧ separators.contains c = false) :
    split flags separators spelling = .ok [⟨w.text, 0⟩] := by
  obtain ⟨c, s, rfl, hc⟩ := hstarts
  have hwords : words flags separators (c :: s) = ([⟨w.text, 0⟩], none) := by
    rw [words, wordsFrom_eq_goOn_passing, extract_eq_word rfl hc, word_zero hword]
    rfl
  rw [split, hwords]

theorem spelled_wordsFrom (h : flags.separateEach = false) (start : Cursor) :
    Spelled flags separators start.offset start.chars (wordsFrom flags separators start).1 := by
  induction hlength : start.chars.length using Nat.strongRecOn generalizing start with
  | ind k ih =>
    subst hlength
    have heach : flags.passing.separateEach = false := h
    rw [wordsFrom_eq_goOn_passing]
    cases hextract : extract flags.passing separators start with
    | error e => exact .nil _ _
    | ok e =>
      obtain ⟨_ | w, rest⟩ := e
      · exact .nil _ _
      · obtain ⟨used, stop, hne, hreads, hleft, hoffset, hword⟩ := extract_ok heach hextract
        have hskip := Cursor.reads_skip separators start
        have hstarts := starts_of_skip hne hreads
        have hends : ∀ c ∈ stop.chars.head?, separators.contains c = true := by
          intro c hc
          cases hleft with
          | all hnil => rw [hnil] at hc; cases hc
          | separator hchars hsep =>
            rw [hchars] at hc
            obtain rfl := Option.some.inj hc
            exact hsep
        have hchars : start.chars =
            start.chars.takeWhile separators.contains ++ (used ++ stop.chars) := by
          rw [← hreads.1]
          exact hskip.1
        -- The words after this one may be spelled from where it stops or from the rest.
        have hmore : ∀ ws, Spelled flags separators stop.offset stop.chars ws →
            Spelled flags separators start.offset start.chars (w :: ws) := by
          intro ws hws
          rw [hchars]
          refine .cons (fun c hc => separators_of_mem_takeWhile hc) hstarts hends
            (split_spelling hword hstarts) ?_ ?_
          · rw [hoffset, ← hskip.2]
          · rwa [hoffset, ← hreads.2]
        rcases rest with _ | rest
        · exact hmore [] (.nil _ _)
        · refine hmore _ ?_
          obtain rfl := hleft.eq_skip heach rfl rfl
          have hstop := Cursor.reads_skip separators stop
          have hleave : flags.passing.leaveSeparators = false := rfl
          have hlt := extract_rest_lt hleave hextract
          have hrest := ih _ hlt (stop.skip separators) rfl
          rw [hstop.2] at hrest
          rw [hstop.1]
          exact hrest.append_left fun c hc => separators_of_mem_takeWhile hc

/-- **The words of a text are spelled in it**, if separators between them are skipped. -/
theorem spelled_words (h : flags.separateEach = false) (separators input : List Char) :
    Spelled flags separators 0 input (words flags separators input).1 :=
  spelled_wordsFrom h ⟨0, input⟩

end UnitLint.Words
