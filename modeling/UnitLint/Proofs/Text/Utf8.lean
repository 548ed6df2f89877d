import UnitLint.Text.Utf8
import Mathlib.Tactic.SplitIfs

/-! # Encoded text

The bytes of a character are read back as that character, whatever follows them (`next_encodeChar`):
there is one lemma for each length, by the range of the lead byte and of its tails. So the bytes of
a text are read back as the text (`decodeLossy_encode`). -/

namespace UnitLint.Text.Utf8

theorem toNat_ofNat_of_lt {n : Nat} (h : n < 256) : (UInt8.ofNat n).toNat = n := by
  rw [UInt8.toNat_ofNat', Nat.mod_eq_of_lt h]

theorem toNat_tail (n : Nat) : (UInt8.ofNat (n % 64 + 0x80)).toNat = n % 64 + 0x80 :=
  toNat_ofNat_of_lt (by omega)

/-! ### Lead bytes and their tails -/

theorem lead_of_two {n : Nat} (h : 0xC2 ≤ n) (h' : n ≤ 0xDF) :
    lead n = some ⟨n - 0xC0, [(0x80, 0xBF)]⟩ := by
  unfold lead
  rw [if_neg (by omega), if_neg (by omega), if_pos h']

theorem lead_of_three {n : Nat} (h : 0xE0 ≤ n) (h' : n ≤ 0xEF) : lead n =
    some ⟨n - 0xE0, [(if n = 0xE0 then 0xA0 else 0x80, if n = 0xED then 0x9F else 0xBF),
      (0x80, 0xBF)]⟩ := by
  unfold lead
  rw [if_neg (by omega), if_neg (by omega), if_neg (by omega)]
  by_cases h0 : n = 0xE0
  · subst h0; rfl
  by_cases h1 : n = 0xED
  · subst h1; rfl
  simp only [beq_iff_eq, h0, h1, h', if_true, if_false]

theorem lead_of_four {n : Nat} (h : 0xF0 ≤ n) (h' : n ≤ 0xF4) : lead n =
    some ⟨n - 0xF0, [(if n = 0xF0 then 0x90 else 0x80, if n = 0xF4 then 0x8F else 0xBF),
      (0x80, 0xBF), (0x80, 0xBF)]⟩ := by
  unfold lead
  rw [if_neg (by omega), if_neg (by omega), if_neg (by omega)]
  have h0 : ¬ n = 0xE0 := by omega
  have h1 : ¬ n = 0xED := by omega
  have h2 : ¬ n ≤ 0xEF := by omega
  simp only [beq_iff_eq, h0, h1, h2, if_false]
  by_cases h3 : n = 0xF0
  · subst h3; rfl
  by_cases h4 : n = 0xF4
  · subst h4; rfl
  have h5 : n ≤ 0xF3 := by omega
  simp only [h3, h4, h5, if_true, if_false]

theorem fitting_nil (bytes : List UInt8) : fitting [] bytes = [] := by
  cases bytes <;> rfl

theorem fitting_cons {low high : Nat} {ranges : List (Nat × Nat)} {b : UInt8} {bytes : List UInt8}
    (h : low ≤ b.toNat ∧ b.toNat ≤ high) :
    fitting ((low, high) :: ranges) (b :: bytes) = b :: fitting ranges bytes := by
  simp [fitting, h]

/-- A lead byte with all the tails that it announces is a character. -/
theorem next_of_fitting {b : UInt8} {bytes tails : List UInt8} {l : Lead}
    (hlead : lead b.toNat = some l) (hfit : fitting l.tails bytes = tails)
    (hlength : tails.length = l.tails.length) :
    next b bytes = (some (Char.ofNat (codePoint l.bits tails)), bytes.drop tails.length) := by
  unfold next
  rw [hlead]
  dsimp only
  rw [hfit, if_pos (by simp [hlength])]

/-! ### The lengths -/

theorem next_one {v : Nat} (h : v ≤ 0x7F) (rest : List UInt8) :
    next (UInt8.ofNat v) rest = (some (Char.ofNat v), rest) := by
  have hlead : lead (UInt8.ofNat v).toNat = some ⟨v, []⟩ := by
    rw [toNat_ofNat_of_lt (by omega), lead, if_pos h]
  rw [next_of_fitting hlead (fitting_nil rest) rfl]
  rfl

theorem next_two {v : Nat} (h : 0x7F < v) (h' : v ≤ 0x7FF) (rest : List UInt8) :
    next (UInt8.ofNat (v / 64 % 32 + 0xC0)) (UInt8.ofNat (v % 64 + 0x80) :: rest) =
      (some (Char.ofNat v), rest) := by
  have hb : (UInt8.ofNat (v / 64 % 32 + 0xC0)).toNat = v / 64 % 32 + 0xC0 :=
    toNat_ofNat_of_lt (by omega)
  have ht := toNat_tail v
  have hlead : lead (UInt8.ofNat (v / 64 % 32 + 0xC0)).toNat = _ :=
    lead_of_two (by omega) (by omega)
  have hfit : fitting [(0x80, 0xBF)] (UInt8.ofNat (v % 64 + 0x80) :: rest) =
      [UInt8.ofNat (v % 64 + 0x80)] := by
    rw [fitting_cons (by omega), fitting_nil]
  have hcode : codePoint ((UInt8.ofNat (v / 64 % 32 + 0xC0)).toNat - 0xC0)
      [UInt8.ofNat (v % 64 + 0x80)] = v := by
    simp only [codePoint, List.foldl]
    omega
  rw [next_of_fitting hlead hfit rfl, hcode]
  rfl

theorem next_three {v : Nat} (h : 0x7FF < v) (h' : v ≤ 0xFFFF) (hv : v < 0xD800 ∨ 0xDFFF < v)
    (rest : List UInt8) :
    next (UInt8.ofNat (v / 4096 % 16 + 0xE0))
        (UInt8.ofNat (v / 64 % 64 + 0x80) :: UInt8.ofNat (v % 64 + 0x80) :: rest) =
      (some (Char.ofNat v), rest) := by
  have hb : (UInt8.ofNat (v / 4096 % 16 + 0xE0)).toNat = v / 4096 % 16 + 0xE0 :=
    toNat_ofNat_of_lt (by omega)
  have ht := toNat_tail (v / 64)
  have ht' := toNat_tail v
  have hlead : lead (UInt8.ofNat (v / 4096 % 16 + 0xE0)).toNat = _ :=
    lead_of_three (by omega) (by omega)
  have hfit : ∀ low high, low ≤ v / 64 % 64 + 0x80 ∧ v / 64 % 64 + 0x80 ≤ high →
      fitting [(low, high), (0x80, 0xBF)]
          (UInt8.ofNat (v / 64 % 64 + 0x80) :: UInt8.ofNat (v % 64 + 0x80) :: rest) =
        [UInt8.ofNat (v / 64 % 64 + 0x80), UInt8.ofNat (v % 64 + 0x80)] := by
    intro low high hrange
    rw [fitting_cons (by omega), fitting_cons (by omega), fitting_nil]
  have hcode : codePoint ((UInt8.ofNat (v / 4096 % 16 + 0xE0)).toNat - 0xE0)
      [UInt8.ofNat (v / 64 % 64 + 0x80), UInt8.ofNat (v % 64 + 0x80)] = v := by
    simp only [codePoint, List.foldl]
    omega
  rw [next_of_fitting hlead (hfit _ _ (by rw [hb]; split_ifs <;> omega)) rfl, hcode]
  rfl

theorem next_four {v : Nat} (h : 0xFFFF < v) (h' : v < 0x110000) (rest : List UInt8) :
    next (UInt8.ofNat (v / 262144 % 8 + 0xF0))
        (UInt8.ofNat (v / 4096 % 64 + 0x80) :: UInt8.ofNat (v / 64 % 64 + 0x80) ::
          UInt8.ofNat (v % 64 + 0x80) :: rest) =
      (some (Char.ofNat v), rest) := by
  have hb : (UInt8.ofNat (v / 262144 % 8 + 0xF0)).toNat = v / 262144 % 8 + 0xF0 :=
    toNat_ofNat_of_lt (by omega)
  have ht := toNat_tail (v / 4096)
  have ht' := toNat_tail (v / 64)
  have ht'' := toNat_tail v
  have hlead : lead (UInt8.ofNat (v / 262144 % 8 + 0xF0)).toNat = _ :=
    lead_of_four (by omega) (by omega)
  have hfit : ∀ low high, low ≤ v / 4096 % 64 + 0x80 ∧ v / 4096 % 64 + 0x80 ≤ high →
      fitting [(low, high), (0x80, 0xBF), (0x80, 0xBF)]
          (UInt8.ofNat (v / 4096 % 64 + 0x80) :: UInt8.ofNat (v / 64 % 64 + 0x80) ::
            UInt8.ofNat (v % 64 + 0x80) :: rest) =
        [UInt8.ofNat (v / 4096 % 64 + 0x80), UInt8.ofNat (v / 64 % 64 + 0x80),
          UInt8.ofNat (v % 64 + 0x80)] := by
    intro low high hrange
    rw [fitting_cons (by omega), fitting_cons (by omega), fitting_cons (by omega), fitting_nil]
  have hcode : codePoint ((UInt8.ofNat (v / 262144 % 8 + 0xF0)).toNat - 0xF0)
      [UInt8.ofNat (v / 4096 % 64 + 0x80), UInt8.ofNat (v / 64 % 64 + 0x80),
        UInt8.ofNat (v % 64 + 0x80)] = v := by
    simp only [codePoint, List.foldl]
    omega
  rw [next_of_fitting hlead (hfit _ _ (by rw [hb]; split_ifs <;> omega)) rfl, hcode]
  rfl

/-- **The bytes of a character are read back**, whatever follows them. -/
theorem next_encodeChar (c : Char) : ∃ b tails, String.utf8EncodeChar c = b :: tails ∧
    ∀ rest, next b (tails ++ rest) = (some c, rest) := by
  have hvalid : c.val.toNat < 0xD800 ∨ 0xDFFF < c.val.toNat ∧ c.val.toNat < 0x110000 := c.valid
  have hc : Char.ofNat c.val.toNat = c := Char.ofNat_toNat c
  have hread : ∀ {b tails}, (∀ rest, next b (tails ++ rest) = (some (Char.ofNat c.val.toNat), rest)) →
      ∃ b' tails', b :: tails = b' :: tails' ∧ ∀ rest, next b' (tails' ++ rest) = (some c, rest) := by
    intro b tails h
    rw [hc] at h
    exact ⟨b, tails, rfl, h⟩
  unfold String.utf8EncodeChar
  dsimp only
  split_ifs with h1 h2 h3
  · exact hread (next_one h1)
  · exact hread (next_two (by omega) h2)
  · exact hread (next_three (by omega) h3 (by omega))
  · exact hread (next_four (by omega) (by omega))

theorem ne_zero_of_mem_encodeChar {c : Char} (hc : c ≠ '\x00') {b : UInt8}
    (hb : b ∈ String.utf8EncodeChar c) : b ≠ 0 := by
  have hpos : 0 < c.val.toNat := by
    refine Nat.pos_of_ne_zero fun hzero => hc ?_
    have hchar : Char.ofNat c.val.toNat = c := Char.ofNat_toNat c
    rw [hzero] at hchar
    exact hchar.symm
  have hne : ∀ n, 0 < n → n < 256 → UInt8.ofNat n ≠ 0 := by
    intro n hn hlt hzero
    have hvalue := toNat_ofNat_of_lt hlt
    rw [hzero] at hvalue
    exact absurd hvalue (by simp; omega)
  unfold String.utf8EncodeChar at hb
  dsimp only at hb
  split_ifs at hb with h1 h2 h3 <;>
    simp only [List.mem_cons, List.not_mem_nil, or_false] at hb
  · rw [hb]
    exact hne _ hpos (by omega)
  · rcases hb with rfl | rfl <;> exact hne _ (by omega) (by omega)
  · rcases hb with rfl | rfl | rfl <;> exact hne _ (by omega) (by omega)
  · rcases hb with rfl | rfl | rfl | rfl <;> exact hne _ (by omega) (by omega)

/-! ### Texts -/

theorem pieces_encode (s : List Char) : pieces (encode s) = s.map some := by
  induction s with
  | nil => rw [encode, List.flatMap_nil, pieces, List.map_nil]
  | cons c s ih =>
    obtain ⟨b, tails, hbytes, hnext⟩ := next_encodeChar c
    have hencode : encode (c :: s) = b :: (tails ++ encode s) := by
      rw [encode, List.flatMap_cons, hbytes]
      rfl
    rw [hencode, pieces, hnext, ih, List.map_cons]

/-- **The bytes of a text are read back as the text.** -/
theorem decodeLossy_encode (s : List Char) : decodeLossy (encode s) = s := by
  rw [decodeLossy, pieces_encode, List.map_map]
  exact List.map_id s

end UnitLint.Text.Utf8
