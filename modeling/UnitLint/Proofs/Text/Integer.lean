import Mathlib.Data.Nat.Log
import UnitLint.Proofs.Text.Digit
import UnitLint.Text.Integer

/-! # How integers are written

An integer is written in one of three ways: with hexadecimal digits after `0x` or `0X`, with octal
digits after a zero, or with decimal digits that do not start with a zero, but for a lone zero; a
sign may stand in front (`Writes`). A text is read as an integer just if it writes it and the
integer is below 2 to the 63rd in magnitude (`integer?_eq_some_iff`), and each integer can be
written in all three ways (`exists_writes`). -/

namespace UnitLint.Text

/-- The text, which has no sign, writes the magnitude in the radix. -/
inductive WritesMagnitude : Nat → Nat → List Char → Prop
  | hexadecimal {n : Nat} {mark : Char} {s : List Char} (hmark : mark = 'x' ∨ mark = 'X')
    (hs : s ≠ []) (h : IsNumeral 16 s.length n s) : WritesMagnitude 16 n ('0' :: mark :: s)
  | octal {n : Nat} {s : List Char} (hs : s ≠ []) (h : IsNumeral 8 s.length n s) :
    WritesMagnitude 8 n ('0' :: s)
  | decimal {n : Nat} {s : List Char} (hs : s ≠ []) (hzero : s.head? = some '0' → s = ['0'])
    (h : IsNumeral 10 s.length n s) : WritesMagnitude 10 n s

/-- The text writes the integer in the radix: its magnitude, after a sign or without one. -/
inductive Writes (radix : Nat) : Int → List Char → Prop
  | plain {n : Nat} {s : List Char} (h : WritesMagnitude radix n s) : Writes radix n s
  | plus {n : Nat} {s : List Char} (h : WritesMagnitude radix n s) : Writes radix n ('+' :: s)
  | minus {n : Nat} {s : List Char} (h : WritesMagnitude radix n s) : Writes radix (-n) ('-' :: s)

/-! ### Reading magnitudes -/

theorem radixOf_mark {mark : Char} (hmark : mark = 'x' ∨ mark = 'X') (s : List Char) :
    radixOf ('0' :: mark :: s) = (16, s) := by
  rcases hmark with rfl | rfl <;> rfl

theorem radixOf_zero {c : Char} (hmark : ¬ (c = 'x' ∨ c = 'X')) (s : List Char) :
    radixOf ('0' :: c :: s) = (8, c :: s) := by
  rw [not_or] at hmark
  exact radixOf.eq_3 c s hmark.1 hmark.2

theorem radixOf_decimal {s : List Char} (hzero : s.head? = some '0' → s = ['0']) :
    radixOf s = (10, s) := by
  have hmore : ∀ c t, s ≠ '0' :: c :: t := by
    rintro c t rfl
    cases hzero rfl
  exact radixOf.eq_4 s (fun t => hmore 'x' t) (fun t => hmore 'X' t) hmore

/-- A text announces one of the three radices. -/
theorem announced_cases (s : List Char) :
    (∃ mark t, (mark = 'x' ∨ mark = 'X') ∧ s = '0' :: mark :: t) ∨
      (∃ c t, ¬ (c = 'x' ∨ c = 'X') ∧ s = '0' :: c :: t) ∨ (s.head? = some '0' → s = ['0']) := by
  rcases s with _ | ⟨z, _ | ⟨c, t⟩⟩
  · exact .inr (.inr nofun)
  · exact .inr (.inr fun h => congrArg (· :: []) (Option.some.inj h))
  · by_cases hz : z = '0'
    · subst hz
      by_cases hmark : c = 'x' ∨ c = 'X'
      · exact .inl ⟨c, t, hmark, rfl⟩
      · exact .inr (.inl ⟨c, t, hmark, rfl⟩)
    · exact .inr (.inr fun h => absurd (Option.some.inj h) hz)

/-- A mark is no octal digit. -/
theorem not_mark_of_isNumeral {n : Nat} {c : Char} {s : List Char}
    (h : IsNumeral 8 (c :: s).length n (c :: s)) : ¬ (c = 'x' ∨ c = 'X') := by
  obtain ⟨d, hd, hc⟩ := h.exists_digit (by decide) c List.mem_cons_self
  have hdigit := digit?_of_isDigit (by decide) hd hc
  rintro (rfl | rfl) <;> cases hdigit

/-- The announced digits are there, and they write the number. -/
theorem exists_writesMagnitude_iff {n : Nat} {s : List Char} :
    (∃ radix, WritesMagnitude radix n s) ↔
      (radixOf s).2 ≠ [] ∧ digits (radixOf s).1 0 (radixOf s).2 = .ok n := by
  constructor
  · rintro ⟨_, h⟩
    cases h with
    | hexadecimal hmark hs h =>
      rw [radixOf_mark hmark]
      exact ⟨hs, (digits_eq_ok_iff (by simp) (by simp)).mpr h⟩
    | @octal _ s hs h =>
      obtain ⟨c, t, rfl⟩ := List.exists_cons_of_ne_nil hs
      rw [radixOf_zero (not_mark_of_isNumeral h)]
      exact ⟨hs, (digits_eq_ok_iff (by simp) (by simp)).mpr h⟩
    | decimal hs hzero h =>
      rw [radixOf_decimal hzero]
      exact ⟨hs, (digits_eq_ok_iff (by simp) (by simp)).mpr h⟩
  · rintro ⟨hs, h⟩
    rcases announced_cases s with ⟨mark, t, hmark, rfl⟩ | ⟨c, t, hmark, rfl⟩ | hzero
    · rw [radixOf_mark hmark] at hs h
      exact ⟨16, .hexadecimal hmark hs ((digits_eq_ok_iff (by simp) (by simp)).mp h)⟩
    · rw [radixOf_zero hmark] at hs h
      exact ⟨8, .octal hs ((digits_eq_ok_iff (by simp) (by simp)).mp h)⟩
    · rw [radixOf_decimal hzero] at hs h
      exact ⟨10, .decimal hs hzero ((digits_eq_ok_iff (by simp) (by simp)).mp h)⟩

/-- **Magnitudes** are read as they are written, below 2 to the 63rd. -/
theorem magnitude?_eq_some_iff {n : Nat} {s : List Char} :
    magnitude? s = some n ↔ (∃ radix, WritesMagnitude radix n s) ∧ n < 2 ^ 63 := by
  have hbound : magnitudeBound = 2 ^ 63 := rfl
  rw [exists_writesMagnitude_iff, magnitude?, hbound]
  by_cases hs : (radixOf s).2 = []
  · simp [hs]
  · cases hdigits : digits (radixOf s).1 0 (radixOf s).2 with
    | error c => simp [hs, hdigits]
    | ok m =>
      simp only [hs, hdigits, List.isEmpty_iff, if_false, ne_eq, not_false_eq_true, true_and,
        Except.ok.injEq, Option.ite_none_right_eq_some, Option.some.injEq]
      constructor
      · rintro ⟨hlt, rfl⟩
        exact ⟨rfl, hlt⟩
      · rintro ⟨rfl, hlt⟩
        exact ⟨hlt, rfl⟩

/-! ### Reading integers -/

/-- What has no sign starts with a digit. -/
theorem WritesMagnitude.not_sign {radix n : Nat} {s : List Char} (h : WritesMagnitude radix n s) :
    ∀ c ∈ s.head?, c ≠ '+' ∧ c ≠ '-' := by
  intro c hc
  cases h with
  | hexadecimal | octal =>
    obtain rfl : '0' = c := Option.some.inj hc
    decide
  | decimal _ _ h =>
    obtain ⟨d, hd, hdigit⟩ := h.exists_digit (by decide) c (List.mem_of_mem_head? hc)
    have hvalue := digit?_of_isDigit (by decide) hd hdigit
    constructor <;> rintro rfl <;> cases hvalue

/-- A text starts with a sign, or it does not. -/
theorem sign_cases (s : List Char) :
    (∃ t, s = '-' :: t) ∨ (∃ t, s = '+' :: t) ∨ ∀ c ∈ s.head?, c ≠ '+' ∧ c ≠ '-' := by
  rcases s with _ | ⟨c, t⟩
  · exact .inr (.inr nofun)
  · by_cases hminus : c = '-'
    · exact .inl ⟨t, by rw [hminus]⟩
    · by_cases hplus : c = '+'
      · exact .inr (.inl ⟨t, by rw [hplus]⟩)
      · refine .inr (.inr fun d hd => ?_)
        obtain rfl := Option.some.inj hd
        exact ⟨hplus, hminus⟩

theorem integer?_minus (s : List Char) :
    integer? ('-' :: s) = (magnitude? s).map fun n : Nat => -(n : Int) := by
  rw [integer?]
  cases magnitude? s <;> rfl

theorem integer?_plus (s : List Char) :
    integer? ('+' :: s) = (magnitude? s).map fun n : Nat => (n : Int) := by
  rw [integer?]
  cases magnitude? s <;> rfl

theorem integer?_plain {s : List Char} (h : ∀ c ∈ s.head?, c ≠ '+' ∧ c ≠ '-') :
    integer? s = (magnitude? s).map fun n : Nat => (n : Int) := by
  have hminus : ∀ t, s ≠ '-' :: t := fun t hs => (h '-' (by rw [hs]; rfl)).2 rfl
  have hplus : ∀ t, s ≠ '+' :: t := fun t hs => (h '+' (by rw [hs]; rfl)).1 rfl
  rw [integer?.eq_3 s hminus hplus]
  cases magnitude? s <;> rfl

/-- **Integers** are read as they are written, below 2 to the 63rd in magnitude. -/
theorem integer?_eq_some_iff {s : List Char} {n : Int} :
    integer? s = some n ↔ (∃ radix, Writes radix n s) ∧ -2 ^ 63 < n ∧ n < 2 ^ 63 := by
  constructor
  · intro h
    have hread : ∀ {t : List Char} {sign : Nat → Int}, (magnitude? t).map sign = some n →
        ∃ radix m, WritesMagnitude radix m t ∧ m < 2 ^ 63 ∧ sign m = n := by
      intro t sign h
      obtain ⟨m, hm, hn⟩ := Option.map_eq_some_iff.mp h
      obtain ⟨⟨radix, hwrites⟩, hlt⟩ := magnitude?_eq_some_iff.mp hm
      exact ⟨radix, m, hwrites, hlt, hn⟩
    rcases sign_cases s with ⟨t, rfl⟩ | ⟨t, rfl⟩ | hs
    · rw [integer?_minus] at h
      obtain ⟨radix, m, hwrites, hlt, rfl⟩ := hread h
      exact ⟨⟨radix, .minus hwrites⟩, by omega, by omega⟩
    · rw [integer?_plus] at h
      obtain ⟨radix, m, hwrites, hlt, rfl⟩ := hread h
      exact ⟨⟨radix, .plus hwrites⟩, by omega, by omega⟩
    · rw [integer?_plain hs] at h
      obtain ⟨radix, m, hwrites, hlt, rfl⟩ := hread h
      exact ⟨⟨radix, .plain hwrites⟩, by omega, by omega⟩
  · rintro ⟨⟨radix, h⟩, hlow, hhigh⟩
    cases h with
    | plain h =>
      rw [integer?_plain h.not_sign, magnitude?_eq_some_iff.mpr ⟨⟨radix, h⟩, by omega⟩]
      rfl
    | plus h =>
      rw [integer?_plus, magnitude?_eq_some_iff.mpr ⟨⟨radix, h⟩, by omega⟩]
      rfl
    | minus h =>
      rw [integer?_minus, magnitude?_eq_some_iff.mpr ⟨⟨radix, h⟩, by omega⟩]
      rfl

/-! ### Writing integers -/

/-- The digits of a number, `count` of them. -/
theorem isNumeral_digitChar {radix count n : Nat} (h : n < radix ^ count) :
    IsNumeral radix ((digitsOf radix count n).map Nat.digitChar).length n
      ((digitsOf radix count n).map Nat.digitChar) := by
  rw [List.length_map, length_digitsOf]
  refine ⟨h, ?_⟩
  rw [List.forall₂_map_right_iff]
  exact List.forall₂_same.mpr fun d _ => Or.inl rfl

/-- The first of as many digits as a number needs is not zero. -/
theorem head?_digits_log {n : Nat} (hn : n ≠ 0) :
    ((digitsOf 10 (Nat.log 10 n + 1) n).map Nat.digitChar).head? ≠ some '0' := by
  have hpos : 0 < n / 10 ^ Nat.log 10 n :=
    Nat.div_pos (Nat.pow_log_le_self 10 hn) (Nat.pow_pos (by decide))
  have hten : 1 < 10 := by decide
  have hlog : n < 10 ^ Nat.log 10 n * 10 := Nat.lt_pow_succ_log_self hten n
  have hlt : n / 10 ^ Nat.log 10 n < 10 := Nat.div_lt_of_lt_mul hlog
  have hdigit : ∀ d < 10, 0 < d → Nat.digitChar d ≠ '0' := by decide
  rw [digitsOf, List.map_cons, Nat.mod_eq_of_lt hlt]
  exact fun h => hdigit _ hlt hpos (Option.some.inj h)

theorem exists_writesMagnitude {radix : Nat} (hradix : radix = 16 ∨ radix = 8 ∨ radix = 10)
    (n : Nat) : ∃ s, WritesMagnitude radix n s := by
  have hlog : ∀ r, 1 < r → n < r ^ (Nat.log r n + 1) := fun r hr => Nat.lt_pow_succ_log_self hr n
  rcases hradix with rfl | rfl | rfl
  · exact ⟨_, .hexadecimal (Or.inl rfl) (by simp [digitsOf])
      (isNumeral_digitChar (hlog 16 (by decide)))⟩
  · exact ⟨_, .octal (by simp [digitsOf]) (isNumeral_digitChar (hlog 8 (by decide)))⟩
  · refine ⟨_, .decimal (by simp [digitsOf]) (fun hzero => ?_)
      (isNumeral_digitChar (hlog 10 (by decide)))⟩
    by_cases hn : n = 0
    · subst hn
      rfl
    · exact absurd hzero (head?_digits_log hn)

/-- Every integer is written in each radix. -/
theorem exists_writes {radix : Nat} (hradix : radix = 16 ∨ radix = 8 ∨ radix = 10) (n : Int) :
    ∃ s, Writes radix n s := by
  obtain ⟨s, hs⟩ := exists_writesMagnitude hradix n.natAbs
  rcases Int.natAbs_eq n with hn | hn
  · rw [hn]
    exact ⟨s, .plain hs⟩
  · rw [hn]
    exact ⟨'-' :: s, .minus hs⟩

end UnitLint.Text
