import UnitLint.Proofs.Check.PortShapes

/-! # The digits of ports

Numbers may be written in the digits of any script, and nothing else in a port is outside ASCII. So
the text of a port is ASCII just if its numbers are runs of the digits 0 to 9
(`Published.isAscii_iff`), and values that the tests of ports accept can be read by a machine just
if no digit in them is of another script (`readable_iff`). The tests do accept such digits. -/

namespace UnitLint.Port

open Text

/-- All characters are ASCII. -/
def IsAscii (s : List Char) : Prop := ∀ c ∈ s, c.toNat < 128

/-- The number is a run of the digits 0 to 9. -/
def Number.IsPlain (n : Number) : Prop := ∀ c ∈ n.digits, c.isDigit = true

/-! ### Numbers -/

/-- The numbers of a range. -/
def Range.numbers : Range → List Number
  | single port => [port]
  | between low high => [low, high]

/-- The numbers of an address: the four of a dotted one. -/
def Address.numbers : Address → List Number
  | dotted first second third fourth => [first, second, third, fourth].map Octet.toNumber
  | bracketed _ _ _ => []

/-- The numbers of a host part. -/
def HostPart.numbers : HostPart → List Number
  | unsaid => []
  | range r => r.numbers
  | address a => a.numbers
  | addressRange a r => a.numbers ++ r.numbers

/-- The numbers of a published port: all port numbers, and the parts of a dotted address. -/
def Published.numbers (p : Published) : List Number :=
  (p.host.map HostPart.numbers).getD [] ++ p.range.numbers

/-! ### Characters outside ASCII -/

variable {c : Char} {s t : List Char} {ns ms : List Number}

instance (s : List Char) : Decidable (IsAscii s) :=
  decidable_of_iff (s.all fun c => decide (c.toNat < 128)) (by simp [IsAscii])

/-- Of the digits of all scripts, those from 0 to 9 are ASCII. -/
theorem toNat_lt_iff (h : isDecimalDigit c = true) : c.toNat < 128 ↔ c.isDigit = true := by
  have hzeros : ∀ first ∈ zeros, first = 48 ∨ 128 ≤ first := by decide
  obtain ⟨first, hfirst, hc⟩ := List.any_eq_true.mp h
  rw [Bool.and_eq_true, decide_eq_true_eq, decide_eq_true_eq] at hc
  have hdigit : c.isDigit = true ↔ 48 ≤ c.toNat ∧ c.toNat ≤ 57 := by
    simp [Char.isDigit, UInt32.le_iff_toNat_le]
  rw [hdigit]
  rcases hzeros first hfirst with rfl | hfirst <;> omega

/-- The text consists of the numbers and of ASCII characters between them. -/
structure MadeOf (s : List Char) (ns : List Number) : Prop where
  digits_subset : ∀ n ∈ ns, n.digits ⊆ s
  ascii_or_digit : ∀ c ∈ s, c.toNat < 128 ∨ ∃ n ∈ ns, c ∈ n.digits

theorem madeOf_of_isAscii (h : IsAscii s) : MadeOf s [] := ⟨nofun, fun c hc => Or.inl (h c hc)⟩

theorem Number.madeOf (n : Number) : MadeOf n.digits [n] := by
  refine ⟨fun m hm => ?_, fun c hc => Or.inr ⟨n, List.mem_singleton_self n, hc⟩⟩
  rw [List.mem_singleton.mp hm]
  exact List.Subset.refl n.digits

theorem MadeOf.append (hs : MadeOf s ns) (ht : MadeOf t ms) : MadeOf (s ++ t) (ns ++ ms) := by
  constructor
  · intro n hn c hc
    rcases List.mem_append.mp hn with hn | hn
    · exact List.mem_append_left t (hs.digits_subset n hn hc)
    · exact List.mem_append_right s (ht.digits_subset n hn hc)
  · intro c hc
    rcases List.mem_append.mp hc with hc | hc
    · refine (hs.ascii_or_digit c hc).imp_right ?_
      rintro ⟨n, hn, hdigit⟩
      exact ⟨n, List.mem_append_left ms hn, hdigit⟩
    · refine (ht.ascii_or_digit c hc).imp_right ?_
      rintro ⟨n, hn, hdigit⟩
      exact ⟨n, List.mem_append_right ns hn, hdigit⟩

theorem MadeOf.append_ascii (h : MadeOf s ns) (ht : IsAscii t) : MadeOf (s ++ t) ns := by
  simpa using h.append (madeOf_of_isAscii ht)

theorem MadeOf.cons (h : MadeOf s ns) (hc : c.toNat < 128) : MadeOf (c :: s) ns :=
  (madeOf_of_isAscii (List.forall_mem_singleton.mpr hc)).append h

/-- **A text of numbers is ASCII** just if all of them are runs of the digits 0 to 9. -/
theorem MadeOf.isAscii_iff (h : MadeOf s ns) : IsAscii s ↔ ∀ n ∈ ns, n.IsPlain := by
  constructor
  · intro hs n hn c hc
    exact (toNat_lt_iff (n.decimal c hc)).mp (hs c (h.digits_subset n hn hc))
  · intro hplain c hc
    rcases h.ascii_or_digit c hc with hascii | ⟨n, hn, hdigit⟩
    · exact hascii
    · exact (toNat_lt_iff (n.decimal c hdigit)).mpr (hplain n hn c hdigit)

theorem MadeOf.ascii_or_decimal (h : MadeOf s ns) (hc : c ∈ s) :
    c.toNat < 128 ∨ isDecimalDigit c = true := by
  refine (h.ascii_or_digit c hc).imp_right ?_
  rintro ⟨n, -, hdigit⟩
  exact n.decimal c hdigit

/-! ### Texts of shapes -/

theorem Range.madeOf (r : Range) : MadeOf r.text r.numbers := by
  cases r with
  | single port => exact port.madeOf
  | between low high => exact low.madeOf.append (high.madeOf.cons (by decide))

theorem Address.madeOf (a : Address) : MadeOf a.text a.numbers := by
  cases a with
  | dotted first second third fourth =>
    exact first.madeOf.append ((second.madeOf.append ((third.madeOf.append
      (fourth.madeOf.cons (by decide))).cons (by decide))).cons (by decide))
  | bracketed inner hne hallowed =>
    have hchars : IsAscii addressChars := by decide
    have hinner : MadeOf inner [] := madeOf_of_isAscii fun c hc => hchars c (hallowed c hc)
    exact (hinner.append_ascii (by decide)).cons (by decide)

theorem HostPart.madeOf (part : HostPart) : MadeOf part.text part.numbers := by
  cases part with
  | unsaid => exact madeOf_of_isAscii (by decide)
  | range r => exact r.madeOf.append_ascii (by decide)
  | address a => exact a.madeOf.append_ascii (by decide)
  | addressRange a r => exact a.madeOf.append ((r.madeOf.append_ascii (by decide)).cons (by decide))

theorem isAscii_protocolText (protocol : Option Protocol) : IsAscii (protocolText protocol) := by
  rcases protocol with _ | _ | _ | _ <;> decide

theorem Published.madeOf (p : Published) : MadeOf p.text p.numbers := by
  have hhost : MadeOf (hostText p.host) ((p.host.map HostPart.numbers).getD []) := by
    cases p.host with
    | none => exact madeOf_of_isAscii nofun
    | some part => exact part.madeOf
  exact (hhost.append p.range.madeOf).append_ascii (isAscii_protocolText p.protocol)

/-! ### Accepted values -/

/-- The text can be read by a machine as a port: it is ASCII, and all numbers that it can be taken
to have are runs of the digits 0 to 9. -/
def IsReadable (s : List Char) : Prop :=
  IsAscii s ∧ ∀ p : Published, p.text = s → ∀ n ∈ p.numbers, n.IsPlain

/-- **Accepted ports can be read by a machine**, but for digits of other scripts. Each value that a
test of ports accepts is a port that can be published, and has no characters outside ASCII but
decimal digits. It can be read by a machine just if it has none of these. -/
theorem readable_iff {r : Resolution} (h : ValueTest.passes r .publishedPorts = .ok true ∨
    ValueTest.passes r .exposedPorts = .ok true) : ∀ v ∈ r.values,
      (∃ p : Published, p.text = v.text.toList) ∧
      (∀ c ∈ v.text.toList, c.toNat < 128 ∨ isDecimalDigit c = true) ∧
      (IsReadable v.text.toList ↔
        ∀ c ∈ v.text.toList, isDecimalDigit c = true → c.isDigit = true) := by
  intro v hv
  obtain ⟨p, hp⟩ : ∃ p : Published, p.text = v.text.toList := by
    rcases h with h | h
    · exact passes_publishedPorts_iff.mp h v hv
    · obtain ⟨e, he⟩ := passes_exposedPorts_iff.mp h v hv
      exact ⟨e.toPublished, e.text_toPublished.trans he⟩
  have hchars : ∀ c ∈ v.text.toList, c.toNat < 128 ∨ isDecimalDigit c = true := fun c hc =>
    p.madeOf.ascii_or_decimal (hp ▸ hc)
  refine ⟨⟨p, hp⟩, hchars, ?_, ?_⟩
  · rintro ⟨hascii, -⟩ c hc hdecimal
    exact (toNat_lt_iff hdecimal).mp (hascii c hc)
  · intro hdigits
    have hascii : IsAscii v.text.toList := fun c hc =>
      (hchars c hc).elim id fun hdecimal => (toNat_lt_iff hdecimal).mpr (hdigits c hc hdecimal)
    exact ⟨hascii, fun q hq => q.madeOf.isAscii_iff.mp (hq ▸ hascii)⟩

/-- A port on an address, in brackets or not. -/
theorem readable_iff_addresses :
    let r : Resolution := ⟨[⟨"PublishPort", "[::1]:8080:80/tcp", ⟨3, 12⟩⟩,
      ⟨"PublishPort", "127.0.0.1::80-81", ⟨4, 12⟩⟩], []⟩
    ValueTest.passes r .publishedPorts = .ok true ∧ ∀ v ∈ r.values, IsReadable v.text.toList := by
  intro r
  have hpasses : ValueTest.passes r .publishedPorts = .ok true := by decide
  have hascii : ∀ v ∈ r.values, IsAscii v.text.toList := by decide
  refine ⟨hpasses, fun v hv => ((readable_iff (Or.inl hpasses) v hv).2.2).mpr ?_⟩
  exact fun c hc hdecimal => (toNat_lt_iff hdecimal).mp (hascii v hv c hc)

/-- A port in Arabic digits is accepted by both tests. -/
theorem accepts_other_digits : ¬ ∀ r : Resolution,
    ValueTest.passes r .publishedPorts = .ok true ∨ ValueTest.passes r .exposedPorts = .ok true →
      ∀ v ∈ r.values, IsReadable v.text.toList := by
  intro h
  let v : Value := ⟨"PublishPort", "٨٠", ⟨3, 12⟩⟩
  have hpasses : ValueTest.passes ⟨[v], []⟩ .publishedPorts = .ok true := by decide
  have hascii := (h ⟨[v], []⟩ (Or.inl hpasses) v List.mem_cons_self).1
  revert hascii
  decide

end UnitLint.Port
