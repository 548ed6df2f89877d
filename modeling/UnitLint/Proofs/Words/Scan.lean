import UnitLint.Proofs.Words.Step
import UnitLint.Words.Split

/-! # What a scan reads

Step after step, a scan comes to the place where it stops or fails (`Steps`). What it has read until
then it reads alike if the text ends there (`Steps.scan`). So a scan that reads a word reads some
characters, and needs no others: alone, they are read as the same word, with nothing left
(`scan_ok`). Either they are the whole text, or a separator comes after them. As each step is, a
scan is the same from another offset (`scan_shift`), and what is done about separators after the
word is done at its end (`scan_leaving`). -/

namespace UnitLint.Words

variable {flags : SplitFlags} {separators : List Char}

/-! ### Scans by their first step -/

theorem scan_of_fail {quote : Option Quote} {start : Cursor} {e : SplitError}
    (h : step flags separators quote start = .fail e) :
    scan flags separators quote start = .error e := by
  rw [scan]
  split <;> simp_all

theorem scan_of_stop {quote : Option Quote} {start : Cursor} {bytes : List UInt8}
    {rest : Option Cursor} (h : step flags separators quote start = .stop bytes rest) :
    scan flags separators quote start = .ok (bytes, rest) := by
  rw [scan]
  split <;> simp_all

theorem scan_of_emit {quote quote' : Option Quote} {start next : Cursor} {bytes : List UInt8}
    (h : step flags separators quote start = .emit bytes quote' next) :
    scan flags separators quote start =
      (scan flags separators quote' next).map fun p => (bytes ++ p.1, p.2) := by
  rw [scan]
  split
  · simp_all
  · simp_all
  · rename_i h'
    rw [h] at h'
    cases h'
    cases scan flags separators quote' next <;> rfl

/-- A scan ends or goes on by its first step. -/
theorem scan_induction (flags : SplitFlags) (separators : List Char)
    {motive : Option Quote → Cursor → Prop}
    (fail : ∀ quote start e, step flags separators quote start = .fail e → motive quote start)
    (stop : ∀ quote start bytes rest, step flags separators quote start = .stop bytes rest →
      motive quote start)
    (emit : ∀ quote start bytes quote' next,
      step flags separators quote start = .emit bytes quote' next → motive quote' next →
        motive quote start)
    (quote : Option Quote) (start : Cursor) : motive quote start := by
  refine scan.induct flags separators motive ?_ ?_ ?_ ?_ quote start
  · exact fun quote start e h => fail quote start e h
  · exact fun quote start bytes rest h => stop quote start bytes rest h
  · exact fun quote start bytes quote' next h _ _ ih => emit quote start bytes quote' next h ih
  · exact fun quote start bytes quote' next h _ _ _ ih => emit quote start bytes quote' next h ih

/-! ### Scans from elsewhere and under other flags -/

/-- **A scan from another offset** is the same scan, moved. -/
theorem scan_shift (flags : SplitFlags) (separators : List Char) (n : Nat) (quote : Option Quote)
    (start : Cursor) :
    scan flags separators (quote.map (Quote.shift n)) (start.shift n) =
      ((scan flags separators quote start).mapError (SplitError.shift n)).map fun p =>
        (p.1, p.2.map (Cursor.shift n)) := by
  induction quote, start using scan_induction flags separators with
  | fail quote start e h =>
    have h' := step_shift flags separators n quote start
    rw [h] at h'
    rw [scan_of_fail h, scan_of_fail h']
    rfl
  | stop quote start bytes rest h =>
    have h' := step_shift flags separators n quote start
    rw [h] at h'
    rw [scan_of_stop h, scan_of_stop h']
    rfl
  | emit quote start bytes quote' next h ih =>
    have h' := step_shift flags separators n quote start
    rw [h] at h'
    rw [scan_of_emit h, scan_of_emit h', ih]
    cases scan flags separators quote' next <;> rfl

/-- **What is done about separators after a word** is done when the word has been read. -/
theorem scan_leaving (flags : SplitFlags) (separators : List Char) (quote : Option Quote)
    (start : Cursor) :
    scan flags separators quote start =
      (scan flags.leaving separators quote start).map fun p =>
        (p.1, p.2.bind (afterWord flags separators)) := by
  induction quote, start using scan_induction flags.leaving separators with
  | fail quote start e h =>
    have h' := step_leaving flags separators quote start
    rw [h] at h'
    rw [scan_of_fail h, scan_of_fail h']
    rfl
  | stop quote start bytes rest h =>
    have h' := step_leaving flags separators quote start
    rw [h] at h'
    rw [scan_of_stop h, scan_of_stop h']
    rfl
  | emit quote start bytes quote' next h ih =>
    have h' := step_leaving flags separators quote start
    rw [h] at h'
    rw [scan_of_emit h, scan_of_emit h', ih]
    cases scan flags.leaving separators quote' next <;> rfl

/-! ### Steps in a row -/

/-- Steps that go on, from one place to another. At both, the quote is given that is open there. -/
inductive Steps (flags : SplitFlags) (separators : List Char) :
    Option Quote → Cursor → Option Quote → Cursor → Prop
  | refl (quote : Option Quote) (start : Cursor) : Steps flags separators quote start quote start
  | head {quote quote' last : Option Quote} {start next stop : Cursor} {bytes : List UInt8}
    (first : step flags separators quote start = .emit bytes quote' next)
    (more : Steps flags separators quote' next last stop) :
    Steps flags separators quote start last stop

/-- **What steps have read** they read alike if less of the rest is there. -/
theorem Steps.scan {quote last : Option Quote} {start stop : Cursor}
    (h : Steps flags separators quote start last stop) :
    ∃ used bytes, start.Reads used stop ∧ ∀ front, front <+: stop.chars →
      Words.scan flags separators quote ⟨start.offset, used ++ front⟩ =
        (Words.scan flags separators last ⟨stop.offset, front⟩).map
          fun p => (bytes ++ p.1, p.2) := by
  induction h with
  | refl quote start =>
    refine ⟨[], [], Cursor.Reads.refl start, fun front _ => ?_⟩
    rw [List.nil_append]
    cases Words.scan flags separators quote ⟨start.offset, front⟩ <;> rfl
  | @head quote quote' last start next stop bytes hstep _ ih =>
    obtain ⟨used', bytes', hreads', hmore⟩ := ih
    obtain ⟨used, -, hreads, hfront⟩ := step_emit hstep
    refine ⟨used ++ used', bytes ++ bytes', hreads.trans hreads', fun front hprefix => ?_⟩
    have hnext : used' ++ front <+: next.chars := by
      rw [hreads'.1]
      exact List.prefix_append_right_inj used' |>.mpr hprefix
    rw [List.append_assoc, scan_of_emit (hfront _ hnext), hmore front hprefix]
    cases Words.scan flags separators last ⟨stop.offset, front⟩ with
    | error e => rfl
    | ok p => simp [Except.map]

/-- A scan that fails comes to a step that does. -/
theorem steps_of_scan_error {quote : Option Quote} {start : Cursor} {e : SplitError}
    (h : scan flags separators quote start = .error e) :
    ∃ last stop, Steps flags separators quote start last stop ∧ Fails flags last stop e := by
  induction quote, start using scan_induction flags separators with
  | fail quote start e' hstep =>
    rw [scan_of_fail hstep] at h
    cases h
    exact ⟨quote, start, .refl quote start, step_fail hstep⟩
  | stop quote start bytes rest hstep =>
    rw [scan_of_stop hstep] at h
    cases h
  | emit quote start bytes quote' next hstep ih =>
    rw [scan_of_emit hstep] at h
    cases hnext : scan flags separators quote' next with
    | error e' =>
      rw [hnext] at h
      cases h
      obtain ⟨last, stop, hsteps, hfails⟩ := ih hnext
      exact ⟨last, stop, .head hstep hsteps, hfails⟩
    | ok p => rw [hnext] at h; cases h

/-- A scan that reads a word comes to a step that stops. -/
theorem steps_of_scan_ok {quote : Option Quote} {start : Cursor} {bytes : List UInt8}
    {rest : Option Cursor} (h : scan flags separators quote start = .ok (bytes, rest)) :
    ∃ last stop bytes', Steps flags separators quote start last stop ∧
      step flags separators last stop = .stop bytes' rest := by
  induction quote, start using scan_induction flags separators generalizing bytes with
  | fail quote start e hstep =>
    rw [scan_of_fail hstep] at h
    cases h
  | stop quote start bytes' rest' hstep =>
    rw [scan_of_stop hstep] at h
    cases h
    exact ⟨quote, start, _, .refl quote start, hstep⟩
  | emit quote start bytes' quote' next hstep ih =>
    rw [scan_of_emit hstep] at h
    cases hnext : scan flags separators quote' next with
    | error e => rw [hnext] at h; cases h
    | ok p =>
      rw [hnext] at h
      obtain ⟨more, rest'⟩ := p
      cases h
      obtain ⟨last, stop, bytes', hsteps, hstop⟩ := ih hnext
      exact ⟨last, stop, bytes', .head hstep hsteps, hstop⟩

/-! ### The characters of a word -/

/-- What is left where a word ends: nothing at the end of the text, and else what comes after the
word, which a separator follows. -/
inductive LeftAt (flags : SplitFlags) (separators : List Char) (stop : Cursor) :
    Option Cursor → Prop
  | all : stop.chars = [] → LeftAt flags separators stop none
  | separator {c : Char} {s : List Char} : stop.chars = c :: s → separators.contains c = true →
      LeftAt flags separators stop (afterWord flags separators stop)

/-- **A scan needs only the characters that it reads.** -/
theorem scan_ok {quote : Option Quote} {start : Cursor} {bytes : List UInt8} {rest : Option Cursor}
    (h : scan flags separators quote start = .ok (bytes, rest)) :
    ∃ used stop, start.Reads used stop ∧ LeftAt flags separators stop rest ∧
      scan flags separators quote ⟨start.offset, used⟩ = .ok (bytes, none) := by
  obtain ⟨last, stop, bytes', hsteps, hstop⟩ := steps_of_scan_ok h
  rcases step_stop hstop with rfl | ⟨rfl, rfl, rfl, c, s, hchars, hsep, -⟩
  · exact ⟨start.chars, ⟨start.offset + start.chars.length, []⟩,
      ⟨(List.append_nil _).symm, rfl⟩, .all rfl, h⟩
  · obtain ⟨used, bytes', hreads, hused⟩ := hsteps.scan
    refine ⟨used, stop, hreads, .separator hchars hsep, ?_⟩
    have hend : scan flags separators none ⟨stop.offset, []⟩ = .ok ([], none) := scan_of_stop rfl
    have hfront := hused [] List.nil_prefix
    have hall := hused stop.chars (List.prefix_refl _)
    rw [← hreads.1, h, scan_of_stop hstop] at hall
    rw [List.append_nil, hend] at hfront
    rw [hfront]
    cases hall
    rfl

end UnitLint.Words
