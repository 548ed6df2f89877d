import UnitLint.Text.Digit
import Mathlib.Data.List.Forall2
import Mathlib.Tactic.Ring

/-! # Numbers in digits

A number below `radix ^ count` is written in `count` digits, with zeros before the others; letters
that are digits may be written in either case. A text has a number as its value just if it writes
that number in as many digits as it has characters (`digits_eq_ok_iff`). -/

namespace UnitLint.Text

/-- The digits of a number in the radix, `count` of them, with the highest first. -/
def digitsOf (radix : Nat) : Nat → Nat → List Nat
  | 0, _ => []
  | count + 1, n => n / radix ^ count % radix :: digitsOf radix count n

/-- Whether a character writes the digit, in either case. -/
def IsDigit (d : Nat) (c : Char) : Prop := c = Nat.digitChar d ∨ c = (Nat.digitChar d).toUpper

/-- The text writes the number in `count` digits of the radix. -/
structure IsNumeral (radix count n : Nat) (s : List Char) : Prop where
  lt_pow : n < radix ^ count
  digits : List.Forall₂ IsDigit (digitsOf radix count n) s

instance (d : Nat) (c : Char) : Decidable (IsDigit d c) :=
  inferInstanceAs (Decidable (c = Nat.digitChar d ∨ c = (Nat.digitChar d).toUpper))

instance (radix count n : Nat) (s : List Char) : Decidable (IsNumeral radix count n s) :=
  decidable_of_iff (n < radix ^ count ∧ List.Forall₂ IsDigit (digitsOf radix count n) s)
    ⟨fun h => ⟨h.1, h.2⟩, fun h => ⟨h.lt_pow, h.digits⟩⟩

theorem digit?_digitChar : ∀ d < 16, digit? 16 (Nat.digitChar d) = some d ∧
    digit? 16 (Nat.digitChar d).toUpper = some d := by decide

theorem digit?_of_isDigit {radix d : Nat} {c : Char} (hradix : radix ≤ 16) (hd : d < radix)
    (h : IsDigit d c) : digit? radix c = some d := by
  have hsixteen : digit? 16 c = some d := by
    have hboth := digit?_digitChar d (by omega)
    rcases h with rfl | rfl
    · exact hboth.1
    · exact hboth.2
  unfold digit? at hsixteen ⊢
  obtain ⟨hvalue, -⟩ := Option.filter_eq_some_iff.mp hsixteen
  dsimp only
  rw [hvalue]
  simp [hd]

theorem length_digitsOf (radix count n : Nat) : (digitsOf radix count n).length = count := by
  induction count with
  | zero => rfl
  | succ count ih => rw [digitsOf, List.length_cons, ih]

theorem IsNumeral.length_eq {radix count n : Nat} {s : List Char}
    (h : IsNumeral radix count n s) : s.length = count := by
  rw [← h.digits.length_eq, length_digitsOf]

/-- A numeral consists of digits. -/
theorem IsNumeral.exists_digit {radix count n : Nat} (hpos : 0 < radix) {s : List Char}
    (h : IsNumeral radix count n s) : ∀ c ∈ s, ∃ d < radix, IsDigit d c := by
  have hdigits := h.digits
  clear h
  induction count generalizing s with
  | zero =>
    cases hdigits
    nofun
  | succ count ih =>
    obtain ⟨c, s, hc, hs, rfl⟩ := List.forall₂_cons_left_iff.mp hdigits
    intro x hx
    rcases List.mem_cons.mp hx with rfl | hx
    · exact ⟨_, Nat.mod_lt _ hpos, hc⟩
    · exact ih hs x hx

/-- The digits after those of `value` shift it by their number of places. -/
theorem digits_of_forall₂ {radix : Nat} (hpos : 0 < radix) (hradix : radix ≤ 16) {count n : Nat}
    {s : List Char} (h : List.Forall₂ IsDigit (digitsOf radix count n) s) (value : Nat) :
    digits radix value s = .ok (value * radix ^ count + n % radix ^ count) := by
  induction count generalizing value s with
  | zero =>
    cases h
    simp [digits, Nat.mod_one]
  | succ count ih =>
    obtain ⟨c, s, hc, hs, rfl⟩ := List.forall₂_cons_left_iff.mp h
    have hdigit := digit?_of_isDigit hradix (Nat.mod_lt _ hpos) hc
    have hplaces : (value * radix + n / radix ^ count % radix) * radix ^ count +
        n % radix ^ count = value * radix ^ (count + 1) + n % radix ^ (count + 1) := by
      rw [Nat.mod_pow_succ]
      ring
    rw [digits, hdigit]
    dsimp only
    rw [ih hs, hplaces]

/-- **The value of a numeral is its number.** -/
theorem digits_of_isNumeral {radix : Nat} (hpos : 0 < radix) (hradix : radix ≤ 16) {count n : Nat}
    {s : List Char} (h : IsNumeral radix count n s) : digits radix 0 s = .ok n := by
  rw [digits_of_forall₂ hpos hradix h.digits, Nat.zero_mul, Nat.zero_add, Nat.mod_eq_of_lt h.lt_pow]

/-! ### The number that a text writes -/

/-- A digit is one of ten ASCII digits or twelve letters. -/
theorem isDigit_of_digit? {radix d : Nat} {c : Char} (h : digit? radix c = some d) :
    IsDigit d c := by
  have hdecimal : ∀ d < 10, Char.ofNat (d + 48) = Nat.digitChar d := by decide
  have hletter : ∀ d < 6, Char.ofNat (d + 97) = Nat.digitChar (d + 10) ∧
      Char.ofNat (d + 65) = (Nat.digitChar (d + 10)).toUpper := by decide
  have hat : ∀ k, k ≤ c.toNat → Char.ofNat (c.toNat - k + k) = c := fun k hk => by
    rw [Nat.sub_add_cancel hk, Char.ofNat_toNat]
  have hle : ∀ a b : Char, a ≤ b ↔ a.toNat ≤ b.toNat := fun _ _ => Iff.rfl
  unfold digit? at h
  obtain ⟨hvalue, -⟩ := Option.filter_eq_some_iff.mp h
  simp only [Bool.and_eq_true, decide_eq_true_eq, hle] at hvalue
  split at hvalue
  · rename_i hrange
    obtain rfl := Option.some.inj hvalue
    have hlt : c.toNat - 48 < 10 := by
      have hupper : c.toNat ≤ 57 := hrange.2
      omega
    exact Or.inl ((hat 48 hrange.1).symm.trans (hdecimal _ hlt))
  · split at hvalue
    · rename_i hrange
      obtain rfl := Option.some.inj hvalue
      have hlt : c.toNat - 97 < 6 := by
        have hupper : c.toNat ≤ 102 := hrange.2
        omega
      exact Or.inl ((hat 97 hrange.1).symm.trans (hletter _ hlt).1)
    · split at hvalue
      · rename_i hrange
        obtain rfl := Option.some.inj hvalue
        have hlt : c.toNat - 65 < 6 := by
          have hupper : c.toNat ≤ 70 := hrange.2
          omega
        exact Or.inr ((hat 65 hrange.1).symm.trans (hletter _ hlt).2)
      · cases hvalue

/-- The digits of a text are those of its value, below those of the value before it. -/
theorem forall₂_of_digits {radix value n : Nat} {s : List Char}
    (h : digits radix value s = .ok n) :
    n / radix ^ s.length = value ∧ List.Forall₂ IsDigit (digitsOf radix s.length n) s := by
  induction s generalizing value with
  | nil =>
    cases h
    exact ⟨by simp, .nil⟩
  | cons c s ih =>
    rw [digits] at h
    cases hdigit : digit? radix c with
    | none => rw [hdigit] at h; cases h
    | some d =>
      rw [hdigit] at h
      obtain ⟨hvalue, hdigits⟩ := ih h
      have hlt := digit?_lt hdigit
      have hhead : n / radix ^ s.length % radix = d := by
        rw [hvalue, Nat.mul_add_mod_self_right, Nat.mod_eq_of_lt hlt]
      refine ⟨?_, ?_⟩
      · rw [List.length_cons, Nat.pow_succ, ← Nat.div_div_eq_div_mul, hvalue,
          Nat.mul_comm, Nat.mul_add_div (by omega), Nat.div_eq_of_lt hlt, Nat.add_zero]
      · refine .cons ?_ hdigits
        rw [hhead]
        exact isDigit_of_digit? hdigit

/-- **The value of a text is the number that it writes.** -/
theorem digits_eq_ok_iff {radix : Nat} (hpos : 0 < radix) (hradix : radix ≤ 16) {n : Nat}
    {s : List Char} : digits radix 0 s = .ok n ↔ IsNumeral radix s.length n s := by
  refine ⟨fun h => ?_, digits_of_isNumeral hpos hradix⟩
  obtain ⟨hzero, hdigits⟩ := forall₂_of_digits h
  refine ⟨Nat.lt_of_div_eq_zero (Nat.pow_pos hpos) hzero, hdigits⟩

end UnitLint.Text
