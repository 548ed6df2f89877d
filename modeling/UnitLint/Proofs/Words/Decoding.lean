import UnitLint.Proofs.Failure
import UnitLint.Proofs.Text.Digit
import UnitLint.Proofs.Words.Escape

/-! # What an escape sequence stands for

A text that starts with an escape sequence is decoded to what the sequence stands for, and only
such a text is decoded at all (`decode_eq_ok_iff`): a letter names a character, digits write the
number of a byte or a character. So decoding reads a front of the text and looks at nothing after
it, unless the text ends too early (`decode_reads_front`). Zero is the one number that may be
refused, and accepting it changes nothing else. -/

namespace UnitLint.Words

open Text

/-- The number of a decoded escape: that of the byte, or the code point of the character. -/
def Decoded.code : Decoded → Nat
  | byte b => b.toNat
  | char c => c.toNat

namespace Escape

/-- The text is an escape sequence for a byte or a character. Digits write its number, with the
highest place first. -/
inductive IsSequence : List Char → Decoded → Prop
  | named {l c : Char} (h : named? l = some c) : IsSequence [l] (.char c)
  | hex {b : UInt8} {s : List Char} (h : IsNumeral 16 2 b.toNat s) : IsSequence ('x' :: s) (.byte b)
  | octal {b : UInt8} {s : List Char} (h : IsNumeral 8 3 b.toNat s) : IsSequence s (.byte b)
  | short {c : Char} {s : List Char} (h : IsNumeral 16 4 c.toNat s) :
    IsSequence ('u' :: s) (.char c)
  | long {c : Char} {s : List Char} (h : IsNumeral 16 8 c.toNat s) :
    IsSequence ('U' :: s) (.char c)

/-! ### Numbers -/

theorem byte_eq_ok_iff {value : Nat} {d : Decoded} :
    byte value = .ok d ↔ ∃ b : UInt8, d = .byte b ∧ b.toNat = value := by
  unfold byte
  constructor
  · intro h
    split at h
    · rename_i hle
      cases h
      exact ⟨_, rfl, UInt8.toNat_ofNat_of_lt' (Nat.lt_succ_of_le hle)⟩
    · cases h
  · rintro ⟨b, rfl, rfl⟩
    have hlt : b.toNat < 256 := b.toNat_lt_size
    rw [if_pos (by omega), UInt8.ofNat_toNat]

theorem char_eq_ok_iff {value : Nat} {d : Decoded} :
    char value = .ok d ↔ ∃ c : Char, d = .char c ∧ c.toNat = value := by
  unfold char
  constructor
  · intro h
    split at h
    · rename_i hvalid
      cases h
      refine ⟨_, rfl, ?_⟩
      rw [Char.ofNat, dif_pos hvalid]
      rfl
    · cases h
  · rintro ⟨c, rfl, rfl⟩
    have hvalid : c.toNat.isValidChar := c.valid
    rw [if_pos hvalid, Char.ofNat_toNat]

theorem number_eq_ok_iff {radix : Nat} (hpos : 0 < radix) (hradix : radix ≤ 16)
    {count value : Nat} {s : List Char} : number radix count s = .ok value ↔
      count ≤ s.length ∧ IsNumeral radix count value (s.take count) := by
  unfold number
  by_cases hlength : s.length < count
  · rw [if_pos hlength]
    exact ⟨nofun, fun h => absurd h.1 (Nat.not_le.mpr hlength)⟩
  · have hle : count ≤ s.length := Nat.not_lt.mp hlength
    have hiff := digits_eq_ok_iff hpos hradix (n := value) (s := s.take count)
    rw [List.length_take_of_le hle] at hiff
    rw [if_neg hlength, ← hiff]
    cases digits radix 0 (s.take count) with
    | error c => exact ⟨nofun, nofun⟩
    | ok n => exact ⟨fun h => ⟨hle, by cases h; rfl⟩, fun h => by cases h.2; rfl⟩

theorem read_eq_ok_iff {form : Form} (hpos : 0 < form.radix) (hradix : form.radix ≤ 16)
    {acceptNul : Bool} {s : List Char} {d : Decoded} : form.read acceptNul s = .ok d ↔
      ∃ value, form.count ≤ s.length ∧
        IsNumeral form.radix form.count value (s.take form.count) ∧
        (value = 0 → acceptNul = true) ∧ form.decoded value = .ok d := by
  have hzero : ∀ value, (value == 0 && !acceptNul) = false ↔ (value = 0 → acceptNul = true) := by
    intro value
    cases acceptNul <;> simp
  unfold Form.read
  constructor
  · intro h
    obtain ⟨value, hnumber, h⟩ := bind_eq_ok_iff.mp h
    obtain ⟨hle, hnumeral⟩ := (number_eq_ok_iff hpos hradix).mp hnumber
    split at h
    · cases h
    · rename_i hnul
      exact ⟨value, hle, hnumeral, (hzero value).mp (eq_false_of_ne_true hnul), h⟩
  · rintro ⟨value, hle, hnumeral, hnul, hdecoded⟩
    refine bind_eq_ok_iff.mpr
      ⟨value, (number_eq_ok_iff hpos hradix).mpr ⟨hle, hnumeral⟩, ?_⟩
    rw [if_neg (ne_true_of_eq_false ((hzero value).mpr hnul))]
    exact hdecoded

/-! ### Sequences -/

/-- An octal digit starts no other form. -/
theorem octal_digit : ∀ d < 8, ∀ c, IsDigit d c →
    named? c = none ∧ form? c = none ∧ isOctal c = true := by
  have hall : ∀ d < 8, (named? (Nat.digitChar d) = none ∧ form? (Nat.digitChar d) = none ∧
      isOctal (Nat.digitChar d) = true) ∧ (Nat.digitChar d).toUpper = Nat.digitChar d := by
    decide
  intro d hd c hc
  obtain ⟨hforms, hupper⟩ := hall d hd
  rcases hc with rfl | rfl
  · exact hforms
  · rwa [hupper]

theorem code_ne_zero_of_named? {l c : Char} (h : named? l = some c) : c.toNat ≠ 0 := by
  unfold named? at h
  split at h <;> cases h <;> decide

/-- A form reads the numeral of what it stands for. -/
theorem read_of_isNumeral {form : Form} (hpos : 0 < form.radix) (hradix : form.radix ≤ 16)
    {acceptNul : Bool} {d : Decoded} {value : Nat} {s : List Char}
    (h : IsNumeral form.radix form.count value s) (hnul : value = 0 → acceptNul = true)
    (hd : form.decoded value = .ok d) : form.read acceptNul s = .ok d := by
  have hlength := h.length_eq
  refine (read_eq_ok_iff hpos hradix).mpr ⟨value, by omega, ?_, hnul, hd⟩
  rwa [List.take_of_length_le (by omega)]

/-- A sequence is decoded, and all of it is used. -/
theorem decode_of_isSequence {acceptNul : Bool} {s : List Char} {d : Decoded}
    (h : IsSequence s d) (hnul : d.code = 0 → acceptNul = true) :
    decode acceptNul s = .ok (d, s.length) := by
  have hform : ∀ {c : Char} {form : Form} {value : Nat} {s : List Char}, named? c = none →
      form? c = some form → form.radix = 16 → IsNumeral form.radix form.count value s →
        (value = 0 → acceptNul = true) → form.decoded value = .ok d →
          decode acceptNul (c :: s) = .ok (d, (c :: s).length) := by
    intro c form value s hnamed hform hradix h hnul hd
    rw [decode_form hnamed hform, read_of_isNumeral (by omega) (by omega) h hnul hd,
      List.length_cons, h.length_eq]
    rfl
  cases h with
  | named h => exact decode_named h acceptNul []
  | hex h => exact hform rfl rfl rfl h hnul (byte_eq_ok_iff.mpr ⟨_, rfl, rfl⟩)
  | short h => exact hform rfl rfl rfl h hnul (char_eq_ok_iff.mpr ⟨_, rfl, rfl⟩)
  | long h => exact hform rfl rfl rfl h hnul (char_eq_ok_iff.mpr ⟨_, rfl, rfl⟩)
  | octal h =>
    obtain ⟨c, s', hc, -, rfl⟩ := List.forall₂_cons_left_iff.mp h.digits
    obtain ⟨hnamed, hform, hoctal⟩ := octal_digit _ (Nat.mod_lt _ (by decide)) c hc
    have hread : octal.read acceptNul (c :: s') = .ok (.byte _) :=
      read_of_isNumeral (by decide) (by decide) h hnul (byte_eq_ok_iff.mpr ⟨_, rfl, rfl⟩)
    rw [decode_octal hnamed hform hoctal, hread, h.length_eq]
    rfl

/-- What is decoded is a sequence that the text starts with. -/
theorem isSequence_of_decode {acceptNul : Bool} {s : List Char} {d : Decoded} {n : Nat}
    (h : decode acceptNul s = .ok (d, n)) :
    IsSequence (s.take n) d ∧ (d.code = 0 → acceptNul = true) := by
  rcases s with _ | ⟨c, s⟩
  · cases h
  · rcases decode_cases h with ⟨e, hnamed, rfl, rfl⟩ | ⟨form, -, hform, hread, rfl⟩ |
      ⟨-, -, -, hread, rfl⟩
    · exact ⟨.named hnamed, fun hzero => absurd hzero (code_ne_zero_of_named? hnamed)⟩
    · rw [List.take_succ_cons]
      unfold form? at hform
      split at hform <;> cases hform
      · obtain ⟨value, -, h, hnul, hd⟩ := (read_eq_ok_iff (by decide) (by decide)).mp hread
        obtain ⟨b, rfl, rfl⟩ := byte_eq_ok_iff.mp hd
        exact ⟨.hex h, hnul⟩
      · obtain ⟨value, -, h, hnul, hd⟩ := (read_eq_ok_iff (by decide) (by decide)).mp hread
        obtain ⟨e, rfl, rfl⟩ := char_eq_ok_iff.mp hd
        exact ⟨.short h, hnul⟩
      · obtain ⟨value, -, h, hnul, hd⟩ := (read_eq_ok_iff (by decide) (by decide)).mp hread
        obtain ⟨e, rfl, rfl⟩ := char_eq_ok_iff.mp hd
        exact ⟨.long h, hnul⟩
    · obtain ⟨value, -, h, hnul, hd⟩ := (read_eq_ok_iff (by decide) (by decide)).mp hread
      obtain ⟨b, rfl, rfl⟩ := byte_eq_ok_iff.mp hd
      exact ⟨.octal h, hnul⟩

/-- **What is decoded**: a sequence at the start of the text, for a byte or a character that is not
zero, or that may be. -/
theorem decode_eq_ok_iff {acceptNul : Bool} {s : List Char} {d : Decoded} {n : Nat} :
    decode acceptNul s = .ok (d, n) ↔
      n ≤ s.length ∧ IsSequence (s.take n) d ∧ (d.code = 0 → acceptNul = true) := by
  constructor
  · exact fun h => ⟨(length_of_decode h).2, isSequence_of_decode h⟩
  · rintro ⟨hn, hsequence, hnul⟩
    have h := decode_append (decode_of_isSequence hsequence hnul) (s.drop n)
    rwa [List.take_append_drop, List.length_take_of_le hn] at h

/-- A sequence has one, three, five or nine characters. -/
theorem IsSequence.length_mem {s : List Char} {d : Decoded} (h : IsSequence s d) :
    s.length ∈ [1, 3, 5, 9] := by
  cases h with
  | named => simp
  | hex h | octal h | short h | long h => simp [h.length_eq]

/-! ### Refusals -/

/-- Only a text that ends too early can be decoded otherwise when more follows. -/
theorem decode_append_of_ne {acceptNul : Bool} {s : List Char}
    (h : decode acceptNul s ≠ .error .truncated) (t : List Char) :
    decode acceptNul (s ++ t) = decode acceptNul s := by
  have hcount : ∀ {form : Form} {s : List Char} {used : Nat},
      (form.read acceptNul s).map (fun d => (d, used)) ≠ .error .truncated →
        form.count ≤ s.length := by
    intro form s used hread
    refine Nat.not_lt.mp fun hlt => hread ?_
    rw [read_of_short hlt]
    rfl
  rcases s with _ | ⟨c, s⟩
  · exact absurd rfl h
  · rw [List.cons_append]
    induction c using start_cases with
    | named c e hnamed => rw [decode_named hnamed, decode_named hnamed]
    | form c form hnamed hform =>
      rw [decode_form hnamed hform] at h
      rw [decode_form hnamed hform, decode_form hnamed hform, read_append _ _ (hcount h)]
    | octal c hnamed hform hoctal =>
      rw [decode_octal hnamed hform hoctal] at h
      rw [decode_octal hnamed hform hoctal, decode_octal hnamed hform hoctal, ← List.cons_append,
        read_append _ _ (hcount h)]
    | unknown c hnamed hform hoctal =>
      rw [decode_unknown hnamed hform hoctal, decode_unknown hnamed hform hoctal]

/-- To accept zero changes nothing but the refusal of zero. -/
theorem read_accept (form : Form) (s : List Char) :
    form.read false s = .error .nul ∨ form.read true s = form.read false s := by
  unfold Form.read
  cases number form.radix form.count s with
  | error e => exact Or.inr rfl
  | ok value =>
    by_cases hzero : value = 0
    · subst hzero
      exact Or.inl rfl
    · refine Or.inr ?_
      show (if (value == 0 && !true) = true then _ else form.decoded value) =
        if (value == 0 && !false) = true then _ else form.decoded value
      rw [if_neg (by simp), if_neg (by simp [hzero])]

theorem read_ne_nul {form : Form} (hform : form.Bounds) (s : List Char) :
    form.read true s ≠ .error .nul := by
  intro h
  unfold Form.read at h
  rcases bind_eq_error_iff.mp h with hnumber | ⟨value, -, h⟩
  · unfold number at hnumber
    split at hnumber
    · cases hnumber
    · cases hdigits : digits form.radix 0 (s.take form.count) <;>
        rw [hdigits] at hnumber <;> cases hnumber
  · rw [if_neg (by simp)] at h
    cases hform value _ h

theorem decode_accept {s : List Char} (h : decode false s ≠ .error .nul) :
    decode true s = decode false s := by
  rcases s with _ | ⟨c, s⟩
  · rfl
  · induction c using start_cases with
    | named c e hnamed => rw [decode_named hnamed, decode_named hnamed]
    | form c form hnamed hform =>
      rw [decode_form hnamed hform] at h ⊢
      rcases read_accept form s with hnul | heq
      · rw [hnul] at h
        exact absurd rfl h
      · rw [decode_form hnamed hform, heq]
    | octal c hnamed hform hoctal =>
      rw [decode_octal hnamed hform hoctal] at h ⊢
      rcases read_accept octal (c :: s) with hnul | heq
      · rw [hnul] at h
        exact absurd rfl h
      · rw [decode_octal hnamed hform hoctal, heq]
    | unknown c hnamed hform hoctal =>
      rw [decode_unknown hnamed hform hoctal, decode_unknown hnamed hform hoctal]

theorem decode_ne_nul (s : List Char) : decode true s ≠ .error .nul := by
  have hmap : ∀ {form : Form} {s : List Char} {used : Nat}, form.Bounds →
      (form.read true s).map (fun d => (d, used)) ≠ .error .nul := by
    intro form s used hform h
    cases hread : form.read true s with
    | ok d => rw [hread] at h; cases h
    | error e =>
      rw [hread] at h
      cases h
      exact read_ne_nul hform s hread
  rcases s with _ | ⟨c, s⟩
  · exact nofun
  · induction c using start_cases with
    | named c e hnamed => rw [decode_named hnamed]; exact nofun
    | form c form hnamed hform => rw [decode_form hnamed hform]; exact hmap (bounds_of_form? hform)
    | octal c hnamed hform hoctal =>
      rw [decode_octal hnamed hform hoctal]
      exact hmap bounds_octal
    | unknown c hnamed hform hoctal => rw [decode_unknown hnamed hform hoctal]; exact nofun

/-! ### Decoding -/

/-- **Decoding reads a front of the text**, and that alone decides, unless the text ends too early.
What is decoded is the sequence in front, which has one, three, five or nine characters, and it is
not zero unless zero is accepted. That is all that accepting zero changes. -/
theorem decode_reads_front (acceptNul : Bool) (s t : List Char) :
    (decode acceptNul s ≠ .error .truncated → decode acceptNul (s ++ t) = decode acceptNul s) ∧
      (∀ d n, decode acceptNul s = .ok (d, n) →
        n ∈ [1, 3, 5, 9] ∧ n ≤ s.length ∧ decode acceptNul (s.take n) = .ok (d, n) ∧
          IsSequence (s.take n) d ∧ (d.code = 0 → acceptNul = true)) ∧
      (decode false s ≠ .error .nul → decode true s = decode false s) ∧
      decode true s ≠ .error .nul := by
  refine ⟨fun h => decode_append_of_ne h t, fun d n h => ?_, decode_accept, decode_ne_nul s⟩
  obtain ⟨hn, hsequence, hnul⟩ := decode_eq_ok_iff.mp h
  have htake : (s.take n).length = n := List.length_take_of_le hn
  have hfront := decode_of_isSequence hsequence hnul
  have hmem := hsequence.length_mem
  rw [htake] at hfront hmem
  exact ⟨hmem, hn, hfront, hsequence, hnul⟩

/-- Three octal digits, and more digits that are not read. -/
theorem decode_reads_front_octal :
    let s := "1017".toList
    let d := Decoded.byte 65
    (decode false s ≠ .error .truncated ∧ decode false s = .ok (d, 3) ∧
        decode false s ≠ .error .nul) ∧
      decode false (s ++ ['0']) = .ok (d, 3) ∧ decode false ['1', '0', '1'] = .ok (d, 3) ∧
      IsSequence ['1', '0', '1'] d ∧ decode true s = .ok (d, 3) := by
  intro s d
  have hdecode : decode false s = .ok (d, 3) := rfl
  have htruncated : decode false s ≠ .error .truncated := by rw [hdecode]; exact nofun
  have hnul : decode false s ≠ .error .nul := by rw [hdecode]; exact nofun
  obtain ⟨happend, hfront, haccept, -⟩ := decode_reads_front false s ['0']
  obtain ⟨-, -, htake, hsequence, -⟩ := hfront d 3 hdecode
  exact ⟨⟨htruncated, hdecode, hnul⟩, happend htruncated, htake, hsequence, haccept hnul⟩

end Escape

end UnitLint.Words
