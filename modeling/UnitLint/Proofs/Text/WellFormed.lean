import Mathlib.Data.List.Forall2
import UnitLint.Proofs.Text.Utf8

/-! # Well-formed bytes

A character that is read has the bytes that it is read from (`eq_of_next`): there is one lemma for
each length, by what the lead byte announces and the ranges of its tails. So bytes are read as a
text, without any run that is ill formed, just if they are the bytes of that text
(`decode?_eq_some_iff`). -/

namespace UnitLint.Text.Utf8

/-! ### Lead bytes and tails that fit -/

/-- The bytes lie in the ranges. -/
abbrev Fits : List (Nat × Nat) → List UInt8 → Prop :=
  List.Forall₂ fun range b => range.1 ≤ b.toNat ∧ b.toNat ≤ range.2

theorem fits_of_length {ranges : List (Nat × Nat)} {bytes : List UInt8}
    (h : (fitting ranges bytes).length = ranges.length) :
    Fits ranges (fitting ranges bytes) ∧
      bytes = fitting ranges bytes ++ bytes.drop (fitting ranges bytes).length := by
  induction ranges generalizing bytes with
  | nil =>
    rw [fitting_nil]
    exact ⟨.nil, rfl⟩
  | cons range ranges ih =>
    obtain ⟨low, high⟩ := range
    rcases bytes with _ | ⟨b, bytes⟩
    · cases h
    · by_cases hb : low ≤ b.toNat ∧ b.toNat ≤ high
      · rw [fitting_cons hb] at h ⊢
        obtain ⟨hfits, hbytes⟩ := ih (Nat.succ.inj h)
        refine ⟨.cons hb hfits, ?_⟩
        rw [List.length_cons, List.drop_succ_cons, List.cons_append, ← hbytes]
      · rw [fitting, if_neg (by simpa using hb)] at h
        cases h

theorem lead_cases {n : Nat} {l : Lead} (h : lead n = some l) :
    n ≤ 0x7F ∧ l = ⟨n, []⟩ ∨
    (0xC2 ≤ n ∧ n ≤ 0xDF) ∧ l = ⟨n - 0xC0, [(0x80, 0xBF)]⟩ ∨
    (0xE0 ≤ n ∧ n ≤ 0xEF) ∧ l = ⟨n - 0xE0,
      [(if n = 0xE0 then 0xA0 else 0x80, if n = 0xED then 0x9F else 0xBF), (0x80, 0xBF)]⟩ ∨
    (0xF0 ≤ n ∧ n ≤ 0xF4) ∧ l = ⟨n - 0xF0,
      [(if n = 0xF0 then 0x90 else 0x80, if n = 0xF4 then 0x8F else 0xBF), (0x80, 0xBF),
        (0x80, 0xBF)]⟩ := by
  by_cases h1 : n ≤ 0x7F
  · rw [lead, if_pos h1] at h
    exact Or.inl ⟨h1, (Option.some.inj h).symm⟩
  by_cases h2 : 0xC2 ≤ n ∧ n ≤ 0xDF
  · rw [lead_of_two h2.1 h2.2] at h
    exact Or.inr (Or.inl ⟨h2, (Option.some.inj h).symm⟩)
  by_cases h3 : 0xE0 ≤ n ∧ n ≤ 0xEF
  · rw [lead_of_three h3.1 h3.2] at h
    exact Or.inr (Or.inr (Or.inl ⟨h3, (Option.some.inj h).symm⟩))
  by_cases h4 : 0xF0 ≤ n ∧ n ≤ 0xF4
  · rw [lead_of_four h4.1 h4.2] at h
    exact Or.inr (Or.inr (Or.inr ⟨h4, (Option.some.inj h).symm⟩))
  have hnone : lead n = none := by
    fun_cases lead n with
    | case2 | case10 => rfl
    | case4 | case5 | case7 | case9 =>
      simp only [beq_iff_eq] at *
      omega
    | _ => omega
  rw [hnone] at h
  cases h

/-! ### The lengths -/

theorem val_ofNat {v : Nat} (h : v < 0xD800 ∨ 0xDFFF < v ∧ v < 0x110000) :
    (Char.ofNat v).val.toNat = v := by
  have hvalid : v.isValidChar := h
  rw [Char.ofNat, dif_pos hvalid]
  rfl

theorem ofNat_eq_of_toNat {n : Nat} {b : UInt8} (h : n = b.toNat) : UInt8.ofNat n = b := by
  rw [h, UInt8.ofNat_toNat]

theorem encodeChar_one {b : UInt8} (h : b.toNat ≤ 0x7F) :
    String.utf8EncodeChar (Char.ofNat (codePoint b.toNat [])) = [b] := by
  have hv : (Char.ofNat b.toNat).val.toNat = b.toNat := val_ofNat (by omega)
  unfold String.utf8EncodeChar codePoint
  rw [List.foldl_nil, hv]
  dsimp only
  rw [if_pos h, ofNat_eq_of_toNat rfl]

theorem encodeChar_two {b t : UInt8} (hb : 0xC2 ≤ b.toNat ∧ b.toNat ≤ 0xDF)
    (ht : 0x80 ≤ t.toNat ∧ t.toNat ≤ 0xBF) :
    String.utf8EncodeChar (Char.ofNat (codePoint (b.toNat - 0xC0) [t])) = [b, t] := by
  obtain ⟨v, hcode⟩ : ∃ v, (b.toNat - 0xC0) * 64 + t.toNat % 64 = v := ⟨_, rfl⟩
  have hv : (Char.ofNat v).val.toNat = v := val_ofNat (by omega)
  unfold String.utf8EncodeChar codePoint
  simp only [List.foldl, hcode, hv]
  rw [if_neg (by omega), if_pos (by omega), ofNat_eq_of_toNat (b := b) (by omega),
    ofNat_eq_of_toNat (b := t) (by omega)]

theorem encodeChar_three {b t t' : UInt8} (hb : 0xE0 ≤ b.toNat ∧ b.toNat ≤ 0xEF)
    (ht : (if b.toNat = 0xE0 then 0xA0 else 0x80) ≤ t.toNat ∧
      t.toNat ≤ if b.toNat = 0xED then 0x9F else 0xBF)
    (ht' : 0x80 ≤ t'.toNat ∧ t'.toNat ≤ 0xBF) :
    String.utf8EncodeChar (Char.ofNat (codePoint (b.toNat - 0xE0) [t, t'])) = [b, t, t'] := by
  obtain ⟨v, hcode⟩ :
      ∃ v, ((b.toNat - 0xE0) * 64 + t.toNat % 64) * 64 + t'.toNat % 64 = v := ⟨_, rfl⟩
  have hv : (Char.ofNat v).val.toNat = v := val_ofNat (by split_ifs at ht <;> omega)
  have hlong : 0x7FF < v ∧ v ≤ 0xFFFF := by split_ifs at ht <;> omega
  have hrange : 0x80 ≤ t.toNat ∧ t.toNat ≤ 0xBF := by split_ifs at ht <;> omega
  unfold String.utf8EncodeChar codePoint
  simp only [List.foldl, hcode, hv]
  rw [if_neg (by omega), if_neg (by omega), if_pos (by omega),
    ofNat_eq_of_toNat (b := b) (by omega), ofNat_eq_of_toNat (b := t) (by omega),
    ofNat_eq_of_toNat (b := t') (by omega)]

theorem encodeChar_four {b t t' t'' : UInt8} (hb : 0xF0 ≤ b.toNat ∧ b.toNat ≤ 0xF4)
    (ht : (if b.toNat = 0xF0 then 0x90 else 0x80) ≤ t.toNat ∧
      t.toNat ≤ if b.toNat = 0xF4 then 0x8F else 0xBF)
    (ht' : 0x80 ≤ t'.toNat ∧ t'.toNat ≤ 0xBF) (ht'' : 0x80 ≤ t''.toNat ∧ t''.toNat ≤ 0xBF) :
    String.utf8EncodeChar (Char.ofNat (codePoint (b.toNat - 0xF0) [t, t', t''])) =
      [b, t, t', t''] := by
  obtain ⟨v, hcode⟩ : ∃ v, (((b.toNat - 0xF0) * 64 + t.toNat % 64) * 64 + t'.toNat % 64) * 64 +
      t''.toNat % 64 = v := ⟨_, rfl⟩
  have hlong : 0xFFFF < v ∧ v < 0x110000 := by split_ifs at ht <;> omega
  have hrange : 0x80 ≤ t.toNat ∧ t.toNat ≤ 0xBF := by split_ifs at ht <;> omega
  have hv : (Char.ofNat v).val.toNat = v := val_ofNat (by omega)
  unfold String.utf8EncodeChar codePoint
  simp only [List.foldl, hcode, hv]
  rw [if_neg (by omega), if_neg (by omega), if_neg (by omega),
    ofNat_eq_of_toNat (b := b) (by omega), ofNat_eq_of_toNat (b := t) (by omega),
    ofNat_eq_of_toNat (b := t') (by omega), ofNat_eq_of_toNat (b := t'') (by omega)]

/-! ### Texts -/

/-- A character is read from its bytes. -/
theorem eq_of_next {b : UInt8} {bytes rest : List UInt8} {c : Char}
    (h : next b bytes = (some c, rest)) : b :: bytes = String.utf8EncodeChar c ++ rest := by
  unfold next at h
  split at h
  · cases h
  · rename_i l hlead
    dsimp only at h
    split at h
    · rename_i hlength
      obtain ⟨hfits, hbytes⟩ := fits_of_length (by simpa using hlength)
      obtain ⟨hc, rfl⟩ := Prod.mk.inj h
      have hchar : String.utf8EncodeChar c = b :: fitting l.tails bytes := by
        rw [← Option.some.inj hc]
        generalize fitting l.tails bytes = tails at hfits
        rcases lead_cases hlead with ⟨hb, rfl⟩ | ⟨hb, rfl⟩ | ⟨hb, rfl⟩ | ⟨hb, rfl⟩
        · cases hfits
          exact encodeChar_one hb
        · obtain _ | ⟨ht, _ | _⟩ := hfits
          exact encodeChar_two hb ht
        · obtain _ | ⟨ht, _ | ⟨ht', _ | _⟩⟩ := hfits
          exact encodeChar_three hb ht ht'
        · obtain _ | ⟨ht, _ | ⟨ht', _ | ⟨ht'', _ | _⟩⟩⟩ := hfits
          exact encodeChar_four hb ht ht' ht''
      rw [hchar, List.cons_append, ← hbytes]
    · cases h

/-- **Bytes are read as a text just if they are those of the text.** -/
theorem decode?_eq_some_iff {bytes : List UInt8} {s : List Char} :
    decode? bytes = some s ↔ bytes = encode s := by
  constructor
  · intro h
    induction bytes using pieces.induct generalizing s with
    | case1 =>
      rw [decode?, pieces, List.mapM_nil] at h
      cases h
      rfl
    | case2 b bytes ih =>
      rw [decode?, pieces, List.mapM_cons] at h
      obtain ⟨c, hc, h⟩ := Option.bind_eq_some_iff.mp h
      obtain ⟨s', hs', h⟩ := Option.bind_eq_some_iff.mp h
      cases h
      have hnext : next b bytes = (some c, (next b bytes).2) := Prod.ext hc rfl
      rw [eq_of_next hnext, ih hs', encode, encode, List.flatMap_cons]
  · rintro rfl
    rw [decode?, pieces_encode]
    induction s with
    | nil => rfl
    | cons c s ih => rw [List.map_cons, List.mapM_cons, ih]; rfl

/-- Texts with the same bytes are the same. -/
theorem eq_of_encode_eq {s t : List Char} (h : encode s = encode t) : s = t := by
  have hs : decode? (encode s) = some s := decode?_eq_some_iff.mpr rfl
  rw [decode?_eq_some_iff.mpr h] at hs
  exact (Option.some.inj hs).symm

end UnitLint.Text.Utf8
