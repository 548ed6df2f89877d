import UnitLint.Words.Escape

/-! # What an escape sequence uses up

An escape sequence that is decoded has a known number of characters, at least one
(`length_of_decode`), and none of the characters after them matters: it is decoded alike whatever
follows it (`decode_append`, `decode_of_append`). -/

namespace UnitLint.Words.Escape

/-! ### Forms -/

/-- A form refuses no number but one that is out of range. -/
def Form.Bounds (form : Form) : Prop :=
  ∀ value e, form.decoded value = .error e → e = .outOfRange value

theorem bounds_octal : octal.Bounds := by
  intro value e h
  have hbyte : byte value = .error e := h
  unfold byte at hbyte
  split at hbyte <;> cases hbyte
  rfl

theorem bounds_of_form? {letter : Char} {form : Form} (h : form? letter = some form) :
    form.Bounds := by
  have hchar : ∀ value e, char value = .error e → e = .outOfRange value := by
    intro value e h
    unfold char at h
    split at h <;> cases h
    rfl
  unfold form? at h
  split at h <;> cases h
  · exact bounds_octal
  · exact hchar
  · exact hchar

theorem read_append (form : Form) (acceptNul : Bool) {s : List Char} (h : form.count ≤ s.length)
    (t : List Char) : form.read acceptNul (s ++ t) = form.read acceptNul s := by
  have hnumber : number form.radix form.count (s ++ t) = number form.radix form.count s := by
    have hlength : ¬ (s ++ t).length < form.count := by
      rw [List.length_append]
      omega
    rw [number, number, if_neg hlength, if_neg (Nat.not_lt.mpr h), List.take_append_of_le_length h]
  unfold Form.read
  rw [hnumber]

theorem read_of_short {form : Form} {s : List Char} (h : s.length < form.count)
    (acceptNul : Bool) : form.read acceptNul s = .error .truncated := by
  unfold Form.read number
  rw [if_pos h]
  rfl

theorem count_le_of_read {form : Form} {acceptNul : Bool} {s : List Char} {d : Decoded}
    (h : form.read acceptNul s = .ok d) : form.count ≤ s.length := by
  refine Nat.not_lt.mp fun hlt => ?_
  rw [read_of_short hlt] at h
  cases h

/-! ### Sequences -/

/-- What a character after a backslash starts: a letter that names a character, a letter that a
number follows, octal digits, or nothing. -/
theorem start_cases {motive : Char → Prop} (named : ∀ c e, named? c = some e → motive c)
    (form : ∀ c form, named? c = none → form? c = some form → motive c)
    (octal : ∀ c, named? c = none → form? c = none → isOctal c = true → motive c)
    (unknown : ∀ c, named? c = none → form? c = none → isOctal c = false → motive c)
    (c : Char) : motive c := by
  cases hnamed : named? c with
  | some e => exact named c e hnamed
  | none =>
    cases hform : form? c with
    | some f => exact form c f hnamed hform
    | none =>
      cases hoctal : isOctal c with
      | true => exact octal c hnamed hform hoctal
      | false => exact unknown c hnamed hform hoctal

theorem decode_named {c e : Char} (h : named? c = some e) (acceptNul : Bool) (s : List Char) :
    decode acceptNul (c :: s) = .ok (.char e, 1) := by
  rw [decode, h]

theorem decode_form {c : Char} {form : Form} (h : named? c = none) (h' : form? c = some form)
    (acceptNul : Bool) (s : List Char) : decode acceptNul (c :: s) =
      (form.read acceptNul s).map fun d => (d, form.count + 1) := by
  rw [decode, h, h']
  dsimp only
  cases form.read acceptNul s <;> rfl

theorem decode_octal {c : Char} (h : named? c = none) (h' : form? c = none)
    (hoctal : isOctal c = true) (acceptNul : Bool) (s : List Char) : decode acceptNul (c :: s) =
      (octal.read acceptNul (c :: s)).map fun d => (d, octal.count) := by
  rw [decode, h, h']
  dsimp only
  rw [if_pos hoctal]
  cases octal.read acceptNul (c :: s) <;> rfl

theorem decode_unknown {c : Char} (h : named? c = none) (h' : form? c = none)
    (hoctal : isOctal c = false) (acceptNul : Bool) (s : List Char) :
    decode acceptNul (c :: s) = .error (.unknown c) := by
  rw [decode, h, h']
  dsimp only
  rw [if_neg (by simp [hoctal])]

/-- **The ways to decode an escape sequence**: it is one letter, it is a letter and the digits of
its form, or it is octal digits. -/
theorem decode_cases {acceptNul : Bool} {c : Char} {s : List Char} {d : Decoded} {n : Nat}
    (h : decode acceptNul (c :: s) = .ok (d, n)) :
    (∃ e, named? c = some e ∧ d = .char e ∧ n = 1) ∨
      (∃ form, named? c = none ∧ form? c = some form ∧ form.read acceptNul s = .ok d ∧
        n = form.count + 1) ∨
      (named? c = none ∧ form? c = none ∧ isOctal c = true ∧
        octal.read acceptNul (c :: s) = .ok d ∧ n = octal.count) := by
  induction c using start_cases with
  | named c e hnamed =>
    rw [decode_named hnamed] at h
    cases h
    exact Or.inl ⟨e, hnamed, rfl, rfl⟩
  | form c form hnamed hform =>
    rw [decode_form hnamed hform] at h
    cases hread : form.read acceptNul s with
    | error e => rw [hread] at h; cases h
    | ok d' =>
      rw [hread] at h
      cases h
      exact Or.inr (Or.inl ⟨form, hnamed, hform, hread, rfl⟩)
  | octal c hnamed hform hoctal =>
    rw [decode_octal hnamed hform hoctal] at h
    cases hread : octal.read acceptNul (c :: s) with
    | error e => rw [hread] at h; cases h
    | ok d' =>
      rw [hread] at h
      cases h
      exact Or.inr (Or.inr ⟨hnamed, hform, hoctal, rfl, rfl⟩)
  | unknown c hnamed hform hoctal =>
    rw [decode_unknown hnamed hform hoctal] at h
    cases h

/-- An escape sequence has at least one character, and all of them. -/
theorem length_of_decode {acceptNul : Bool} {s : List Char} {d : Decoded} {n : Nat}
    (h : decode acceptNul s = .ok (d, n)) : 0 < n ∧ n ≤ s.length := by
  rcases s with _ | ⟨c, s⟩
  · cases h
  · rcases decode_cases h with ⟨e, -, -, rfl⟩ | ⟨form, -, -, hread, rfl⟩ | ⟨-, -, -, hread, rfl⟩
    · simp
    · have := count_le_of_read hread
      simpa using this
    · exact ⟨by decide, count_le_of_read hread⟩

/-- What follows an escape sequence does not matter. -/
theorem decode_append {acceptNul : Bool} {s : List Char} {d : Decoded} {n : Nat}
    (h : decode acceptNul s = .ok (d, n)) (t : List Char) :
    decode acceptNul (s ++ t) = .ok (d, n) := by
  rcases s with _ | ⟨c, s⟩
  · cases h
  · rw [List.cons_append]
    rcases decode_cases h with ⟨e, hnamed, rfl, rfl⟩ | ⟨form, hnamed, hform, hread, rfl⟩ |
      ⟨hnamed, hform, hoctal, hread, rfl⟩
    · rw [decode_named hnamed]
    · rw [decode_form hnamed hform, read_append form acceptNul (count_le_of_read hread), hread]
      rfl
    · rw [decode_octal hnamed hform hoctal, ← List.cons_append,
        read_append octal acceptNul (count_le_of_read hread), hread]
      rfl

/-- The characters of an escape sequence are all that is needed to decode it. -/
theorem decode_of_append {acceptNul : Bool} {s t : List Char} {d : Decoded} {n : Nat}
    (h : decode acceptNul (s ++ t) = .ok (d, n)) (hn : n ≤ s.length) :
    decode acceptNul s = .ok (d, n) := by
  rcases s with _ | ⟨c, s⟩
  · exact absurd (length_of_decode h).1 (Nat.not_lt.mpr hn)
  · rw [List.cons_append] at h
    rcases decode_cases h with ⟨e, hnamed, rfl, rfl⟩ | ⟨form, hnamed, hform, hread, rfl⟩ |
      ⟨hnamed, hform, hoctal, hread, rfl⟩
    · rw [decode_named hnamed]
    · rw [read_append form acceptNul (Nat.le_of_succ_le_succ hn)] at hread
      rw [decode_form hnamed hform, hread]
      rfl
    · rw [← List.cons_append, read_append octal acceptNul hn] at hread
      rw [decode_octal hnamed hform hoctal, hread]
      rfl

end UnitLint.Words.Escape
