import UnitLint.Check.Rule
import UnitLint.Proofs.Lookup.Scalar
import UnitLint.Proofs.Text.Integer

/-! # Integers that are refused

A value of an integer field is refused unless its text writes an integer, in any of the three ways,
that is below 2 to the 63rd in magnitude (`integers_within_bounds`). So the least integer of 64 bits
is refused, though it can be represented: the magnitude is read before the sign counts
(`least_integer_is_refused`). -/

namespace UnitLint

open Text

theorem isInteger_iff {v : Value} : isInteger v = true ↔
    ∃ radix n, Writes radix n v.text.toList ∧ -2 ^ 63 < n ∧ n < 2 ^ 63 := by
  rw [isInteger, Option.isSome_iff_exists]
  constructor
  · rintro ⟨n, hn⟩
    obtain ⟨⟨radix, h⟩, hbounds⟩ := integer?_eq_some_iff.mp hn
    exact ⟨radix, n, h, hbounds⟩
  · rintro ⟨radix, n, h, hbounds⟩
    exact ⟨n, integer?_eq_some_iff.mpr ⟨⟨radix, h⟩, hbounds⟩⟩

/-- Nothing is found about an integer field just if its last occurrence, if there is one, is an
integer. -/
theorem Rule.findings_validInteger_eq_nil_iff {c : Check} (hmode : c.field.mode = .int) :
    findings c (lookup c.unit c.field) .validInteger = .ok [] ↔
      ∀ o, (c.unit.valuesOf c.field.group c.field.key).getLast? = some o →
        isInteger (baseValue c.field.key o) = true := by
  have hfound := found_int_iff (u := c.unit) hmode
  rw [findings]
  cases hlast : (c.unit.valuesOf c.field.group c.field.key).getLast? with
  | none => simp
  | some o =>
    rw [hlast] at hfound
    by_cases hinteger : isInteger (baseValue c.field.key o) = true
    · rw [if_pos (hfound.mpr ⟨o, rfl, hinteger⟩)]
      exact iff_of_true rfl fun _ ho => Option.some.inj ho ▸ hinteger
    · have hnot : ¬ (lookup c.unit c.field).found = true := by
        rw [hfound]
        rintro ⟨_, ho, h⟩
        exact hinteger (Option.some.inj ho ▸ h)
      rw [if_neg hnot]
      exact iff_of_false (by simp) fun h => hinteger (h o rfl)

/-- **Which integers there are.** A text is read as an integer just if it writes it, with
hexadecimal, octal or decimal digits, and it is one of 64 bits, but not the least of these. Each one
of 64 bits can be written in all three radices, and it is read however it is written just if it is
not the least. A value of an integer field is refused just if it writes none of those read. -/
theorem integers_within_bounds (s : List Char) (n : Int) (c : Check) (hmode : c.field.mode = .int) :
    (integer? s = some n ↔
      (∃ radix, Writes radix n s) ∧ (-2 ^ 63 ≤ n ∧ n ≤ 2 ^ 63 - 1) ∧ n ≠ -2 ^ 63) ∧
    (-2 ^ 63 ≤ n → n ≤ 2 ^ 63 - 1 → ∀ radix, radix = 16 ∨ radix = 8 ∨ radix = 10 →
      (∃ t, Writes radix n t) ∧ ((∀ t, Writes radix n t → integer? t = some n) ↔ n ≠ -2 ^ 63)) ∧
    (Rule.findings c (lookup c.unit c.field) .validInteger = .ok [] ↔
      ∀ o, (c.unit.valuesOf c.field.group c.field.key).getLast? = some o →
        ∃ radix m, Writes radix m (baseValue c.field.key o).text.toList ∧
          (-2 ^ 63 ≤ m ∧ m ≤ 2 ^ 63 - 1) ∧ m ≠ -2 ^ 63) := by
  have hbounds : ∀ m : Int, -2 ^ 63 < m ∧ m < 2 ^ 63 ↔
      (-2 ^ 63 ≤ m ∧ m ≤ 2 ^ 63 - 1) ∧ m ≠ -2 ^ 63 := by
    intro m
    omega
  refine ⟨?_, fun hlow hhigh radix hradix => ?_, ?_⟩
  · rw [integer?_eq_some_iff, hbounds]
  · obtain ⟨t, ht⟩ := exists_writes hradix n
    refine ⟨⟨t, ht⟩, fun hread hleast => ?_, fun hleast t ht => ?_⟩
    · exact ((hbounds n).mp (integer?_eq_some_iff.mp (hread t ht)).2).2 hleast
    · exact integer?_eq_some_iff.mpr ⟨⟨radix, ht⟩, (hbounds n).mpr ⟨⟨hlow, hhigh⟩, hleast⟩⟩
  · simp only [Rule.findings_validInteger_eq_nil_iff hmode, isInteger_iff, hbounds]

/-- One more than the least integer, in all three radices, and as a value in quotes. -/
theorem integers_within_bounds_lowest :
    let n : Int := -0x7fffffffffffffff
    let v : Value := ⟨"PidsLimit", "\"-0X7FFFfffffffffff\\\nf\" ", ⟨2, 10⟩⟩
    let c : Check := ⟨⟨false, []⟩, ⟨⟨"a.container"⟩, [⟨"Container", 1, [⟨"PidsLimit", 0, v⟩]⟩]⟩,
      ⟨"Container", "PidsLimit", .int, false⟩, "container"⟩
    (∃ radix, Writes radix n "-0777777777777777777777".toList) ∧
      (∀ t, Writes 10 n t → integer? t = some n) ∧
      Rule.findings c (lookup c.unit c.field) .validInteger = .ok [] := by
  intro n v c
  obtain ⟨hoctal, hdecimal, -⟩ := integers_within_bounds "-0777777777777777777777".toList n c rfl
  obtain ⟨hbase, -, hvalid⟩ := integers_within_bounds (baseValue "PidsLimit" v).text.toList n c rfl
  obtain ⟨⟨radix, hwrites⟩, hbounds⟩ := hbase.mp (by decide)
  refine ⟨(hoctal.mp (by decide)).1,
    (hdecimal (by decide) (by decide) 10 (by simp)).2.mpr (by decide),
    hvalid.mpr fun o ho => ?_⟩
  obtain rfl : v = o := Option.some.inj ho
  exact ⟨radix, n, hwrites, hbounds⟩

/-- The least integer of 64 bits is not read. -/
theorem least_integer_is_refused : ¬ ∀ (s : List Char) (n : Int), integer? s = some n ↔
    (∃ radix, Writes radix n s) ∧ -2 ^ 63 ≤ n ∧ n ≤ 2 ^ 63 - 1 := by
  intro h
  have hdigits : digits 10 0 "9223372036854775808".toList = .ok (2 ^ 63) := by decide
  have hwrites : Writes 10 (-2 ^ 63) "-9223372036854775808".toList :=
    .minus (.decimal (by decide) (by decide) ((digits_eq_ok_iff (by decide) (by decide)).mp hdigits))
  have hread := (h _ _).mpr ⟨⟨10, hwrites⟩, by decide, by decide⟩
  have hnone : integer? "-9223372036854775808".toList = none := by decide
  rw [hnone] at hread
  cases hread

end UnitLint
