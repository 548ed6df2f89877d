import Mathlib.Tactic.SplitIfs

/-! # Texts of one line

No number is written with a line feed. Lines that hold none are found again in the text that ends
each of them with one (`splitOn_terminated`). Whether a text has a line feed is decided on its bytes
(`newline_mem_iff_bytes`). -/

namespace UnitLint.Text

/-! ### Numbers and lines -/

theorem newline_ne_digitChar (n : Nat) : '\n' ≠ Nat.digitChar n := by
  grind [Nat.digitChar]

/-- **A number stands on one line.** -/
theorem newline_notMem_toDigits {radix : Nat} (h : 1 < radix) (n : Nat) :
    '\n' ∉ Nat.toDigits radix n := by
  induction n using Nat.strongRecOn with
  | ind n ih =>
    have hlast : ∀ d, '\n' ∉ [Nat.digitChar d] := fun d hd =>
      newline_ne_digitChar d (List.mem_singleton.mp hd)
    rw [Nat.toDigits_eq_if h]
    split
    · exact hlast n
    · have hlt : n / radix < n := Nat.div_lt_self (by omega) h
      intro hmem
      rcases List.mem_append.mp hmem with hmem | hmem
      · exact ih _ hlt hmem
      · exact hlast _ hmem

@[simp]
theorem newline_notMem_decimal (n : Nat) : '\n' ∉ Nat.toDigits 10 n :=
  newline_notMem_toDigits (by decide) n

/-- **The lines of a text** that ends each of them with a line feed. -/
theorem splitOn_terminated {ls : List (List Char)} (h : ∀ l ∈ ls, '\n' ∉ l) :
    (ls.flatMap (· ++ ['\n'])).splitOn '\n' = ls ++ [[]] := by
  induction ls with
  | nil => rfl
  | cons l ls ih =>
    have hl : ∀ c ∈ l, (c == '\n') = false := by
      intro c hc
      refine beq_eq_false_iff_ne.mpr ?_
      rintro rfl
      exact h l List.mem_cons_self hc
    have hsplit := List.splitOnP_append_cons_of_forall_mem hl '\n' (beq_self_eq_true _)
      (ls.flatMap (· ++ ['\n']))
    have hmore := ih fun l' hl' => h l' (List.mem_cons_of_mem l hl')
    rw [List.flatMap_cons, List.append_assoc, List.singleton_append, List.cons_append, ← hmore]
    exact hsplit

/-! ### Bytes -/

/-- A byte of a character is the character itself, or is outside of ASCII. -/
theorem toNat_of_mem_utf8EncodeChar {c : Char} {b : UInt8} (h : b ∈ String.utf8EncodeChar c) :
    b.toNat = c.toNat ∨ 0x80 ≤ b.toNat := by
  unfold String.utf8EncodeChar at h
  dsimp only at h
  split_ifs at h <;> simp only [List.mem_cons, List.not_mem_nil, or_false] at h
  · subst h
    left
    rw [UInt8.toNat_ofNat', Nat.mod_eq_of_lt (by omega)]
    rfl
  · right
    obtain rfl | rfl := h <;> rw [UInt8.toNat_ofNat'] <;> omega
  · right
    obtain rfl | rfl | rfl := h <;> rw [UInt8.toNat_ofNat'] <;> omega
  · right
    obtain rfl | rfl | rfl | rfl := h <;> rw [UInt8.toNat_ofNat'] <;> omega

theorem newline_mem_iff_bytes (s : String) :
    '\n' ∈ s.toList ↔ 10 ∈ s.toByteArray.data.toList := by
  rw [← String.utf8Encode_toList, List.utf8Encode, List.toList_data_toByteArray, List.mem_flatMap]
  constructor
  · exact fun h => ⟨'\n', h, by decide⟩
  · rintro ⟨c, hc, hbyte⟩
    rcases toNat_of_mem_utf8EncodeChar hbyte with hsame | houtside
    · have hnewline : '\n' = c := Char.toNat_inj.mp hsame
      rwa [hnewline]
    · exact absurd houtside (by decide)

-- the characters of a literal are read out of its bytes one after another, which takes far longer
instance decidableNewlineMem (s : String) : Decidable ('\n' ∈ s.toList) :=
  decidable_of_iff _ (newline_mem_iff_bytes s).symm

end UnitLint.Text
