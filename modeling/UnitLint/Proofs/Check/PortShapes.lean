import UnitLint.Check.ValueTest
import UnitLint.Proofs.Text.Cut

/-! # The shapes of ports

What a port is written like, told apart from how it is read: numbers, ranges, protocols, addresses
and host parts, each with its text. Texts are read back piece by piece, and no piece holds a mark
that it ends with. So an exposed port is accepted just if it has the shape of one
(`isExposed_iff`), and so is a published port (`isPublished_iff`), of which an exposed port is a
special case. -/

namespace UnitLint.Port

open Text

/-! ### Shapes -/

/-- A number is one or more decimal digits, of any script. -/
structure Number where
  digits : List Char
  ne_nil : digits ≠ []
  decimal : ∀ c ∈ digits, isDecimalDigit c = true

/-- A range of ports. -/
inductive Range where
  /-- One port. -/
  | single (port : Number)
  /-- The ports from one to another. -/
  | between (low high : Number)

/-- The text of a range: a number, or two with a hyphen between them. -/
def Range.text : Range → List Char
  | single port => port.digits
  | between low high => low.digits ++ '-' :: high.digits

/-- The protocols that a port can be for. -/
inductive Protocol where
  | tcp
  | udp
  | sctp

/-- The name of a protocol. -/
def Protocol.name : Protocol → String
  | tcp => "tcp"
  | udp => "udp"
  | sctp => "sctp"

/-- What follows the ports: nothing, or a slash and a protocol. -/
def protocolText : Option Protocol → List Char
  | none => []
  | some protocol => '/' :: protocol.name.toList

/-- A part of a dotted address is a number of at most three digits. -/
structure Octet extends Number where
  length_le : digits.length ≤ 3

/-- The characters of a bracketed address. -/
def addressChars : List Char := "0123456789ABCDEFabcdef:.".toList

/-- An address of the host. -/
inductive Address where
  /-- Four numbers. -/
  | dotted (first second third fourth : Octet)
  /-- A text of address characters that is not empty. -/
  | bracketed (inner : List Char) (ne_nil : inner ≠ []) (allowed : ∀ c ∈ inner, c ∈ addressChars)

/-- The text of an address: numbers with dots between them, or a text in brackets. -/
def Address.text : Address → List Char
  | dotted first second third fourth =>
    first.digits ++ '.' :: (second.digits ++ '.' :: (third.digits ++ '.' :: fourth.digits))
  | bracketed inner _ _ => '[' :: (inner ++ [']'])

/-- What a published port says about the host. -/
inductive HostPart where
  /-- Nothing. -/
  | unsaid
  /-- Its ports. -/
  | range (r : Range)
  /-- Its address. -/
  | address (a : Address)
  /-- Its address and its ports. -/
  | addressRange (a : Address) (r : Range)

/-- The text of a host part. -/
def HostPart.text : HostPart → List Char
  | unsaid => [':']
  | range r => r.text ++ [':']
  | address a => a.text ++ [':', ':']
  | addressRange a r => a.text ++ ':' :: (r.text ++ [':'])

/-- The text of the host part, where there may be none. -/
def hostText : Option HostPart → List Char
  | none => []
  | some host => host.text

/-- A port that can be exposed. -/
structure Exposed where
  range : Range
  protocol : Option Protocol

/-- A port that can be published. -/
structure Published where
  host : Option HostPart
  range : Range
  protocol : Option Protocol

/-- The text of an exposed port. -/
def Exposed.text (e : Exposed) : List Char := e.range.text ++ protocolText e.protocol

/-- The text of a published port. -/
def Published.text (p : Published) : List Char :=
  hostText p.host ++ p.range.text ++ protocolText p.protocol

/-- An exposed port says nothing about the host, and can be published. -/
def Exposed.toPublished (e : Exposed) : Published := ⟨none, e.range, e.protocol⟩

theorem Exposed.text_toPublished (e : Exposed) : e.toPublished.text = e.text := rfl

/-! ### Marks -/

variable {s : List Char} {c : Char}

theorem Number.notMem (n : Number) (h : isDecimalDigit c = false) : c ∉ n.digits := by
  intro hc
  rw [n.decimal c hc] at h
  cases h

theorem Range.notMem (r : Range) (h : isDecimalDigit c = false) (hhyphen : c ≠ '-') :
    c ∉ r.text := by
  cases r with
  | single port => exact port.notMem h
  | between low high =>
    simp only [Range.text, List.mem_append, List.mem_cons, not_or]
    exact ⟨low.notMem h, hhyphen, high.notMem h⟩

theorem Address.dotted_notMem (first second third fourth : Octet) (h : isDecimalDigit c = false)
    (hdot : c ≠ '.') : c ∉ (dotted first second third fourth).text := by
  simp only [Address.text, List.mem_append, List.mem_cons, not_or]
  exact ⟨first.notMem h, hdot, second.notMem h, hdot, third.notMem h, hdot, fourth.notMem h⟩

theorem Address.notMem (a : Address) (h : isDecimalDigit c = false)
    (hchars : c ∉ '[' :: ']' :: addressChars) : c ∉ a.text := by
  simp only [List.mem_cons, not_or] at hchars
  obtain ⟨hopen, hclose, hinner⟩ := hchars
  cases a with
  | dotted first second third fourth =>
    refine Address.dotted_notMem first second third fourth h ?_
    rintro rfl
    exact hinner (by decide)
  | bracketed inner hne hallowed =>
    simp only [Address.text, List.mem_append, List.mem_cons, List.not_mem_nil, or_false, not_or]
    exact ⟨hopen, fun hc => hinner (hallowed c hc), hclose⟩

/-! ### Ranges and protocols -/

theorem isNumber_iff : isNumber s = true ↔ ∃ n : Number, n.digits = s := by
  unfold isNumber
  rw [Bool.and_eq_true, Bool.not_eq_true', List.isEmpty_eq_false_iff, List.all_eq_true]
  constructor
  · rintro ⟨hne, hdecimal⟩
    exact ⟨⟨s, hne, hdecimal⟩, rfl⟩
  · rintro ⟨n, rfl⟩
    exact ⟨n.ne_nil, n.decimal⟩

theorem isRange_iff : isRange s = true ↔ ∃ r : Range, r.text = s := by
  have hhyphen : isDecimalDigit '-' = false := by decide
  constructor
  · intro h
    have hs : ['-'].intercalate (s.splitOn '-') = s := List.intercalate_splitOn '-'
    unfold isRange at h
    split at h
    · rename_i n hsplit
      obtain ⟨n, rfl⟩ := isNumber_iff.mp h
      rw [hsplit, List.intercalate_singleton] at hs
      exact ⟨.single n, hs⟩
    · rename_i low high hsplit
      rw [Bool.and_eq_true, isNumber_iff, isNumber_iff] at h
      obtain ⟨⟨low, rfl⟩, high, rfl⟩ := h
      rw [hsplit, List.intercalate_cons_cons, List.intercalate_singleton] at hs
      exact ⟨.between low high, by rw [← hs, Range.text]; simp⟩
    · cases h
  · rintro ⟨r, rfl⟩
    cases r with
    | single port =>
      rw [isRange, Range.text, List.splitOn_eq_singleton (port.notMem hhyphen)]
      exact isNumber_iff.mpr ⟨port, rfl⟩
    | between low high =>
      rw [isRange, Range.text, List.splitOn_append_cons_self_of_not_mem (low.notMem hhyphen),
        List.splitOn_eq_singleton (high.notMem hhyphen)]
      exact Bool.and_eq_true_iff.mpr ⟨isNumber_iff.mpr ⟨low, rfl⟩, isNumber_iff.mpr ⟨high, rfl⟩⟩

theorem contains_protocols_iff :
    protocols.contains s = true ↔ ∃ protocol : Protocol, protocol.name.toList = s := by
  rw [List.contains_iff_mem]
  constructor
  · intro h
    simp only [protocols, List.map_cons, List.map_nil, List.mem_cons, List.not_mem_nil,
      or_false] at h
    rcases h with rfl | rfl | rfl
    · exact ⟨.tcp, rfl⟩
    · exact ⟨.udp, rfl⟩
    · exact ⟨.sctp, rfl⟩
  · rintro ⟨protocol, rfl⟩
    cases protocol <;> decide

/-- The ports are what stands before the protocol. -/
theorem withoutProtocol?_eq_some_iff {ports : List Char} : withoutProtocol? s = some ports ↔
    '/' ∉ ports ∧ ∃ protocol, ports ++ protocolText protocol = s := by
  constructor
  · intro h
    unfold withoutProtocol? at h
    split at h
    · rename_i hdrop
      obtain rfl := Option.some.inj h
      exact ⟨dropWhile_eq_nil_iff.mp hdrop, none, List.append_nil s⟩
    · rename_i slash protocol hdrop
      have hs := eq_of_dropWhile hdrop
      split at h
      · rename_i hprotocol
        obtain ⟨protocol, rfl⟩ := contains_protocols_iff.mp hprotocol
        obtain rfl := Option.some.inj h
        exact ⟨notMem_takeWhile s '/', some protocol, hs.symm⟩
      · cases h
  · rintro ⟨hports, protocol, rfl⟩
    cases protocol with
    | none =>
      rw [protocolText, List.append_nil, withoutProtocol?, dropWhile_eq_nil_iff.mpr hports]
    | some protocol =>
      rw [protocolText, withoutProtocol?, dropWhile_cut hports, takeWhile_cut hports]
      exact if_pos (contains_protocols_iff.mpr ⟨protocol, rfl⟩)

/-- **An exposed port** is accepted just if it has the shape of one. -/
theorem isExposed_iff : isExposed s = true ↔ ∃ e : Exposed, e.text = s := by
  rw [isExposed, Option.any_eq_true]
  simp only [withoutProtocol?_eq_some_iff, isRange_iff]
  constructor
  · rintro ⟨_, ⟨-, protocol, rfl⟩, range, rfl⟩
    exact ⟨⟨range, protocol⟩, rfl⟩
  · rintro ⟨⟨range, protocol⟩, rfl⟩
    exact ⟨_, ⟨range.notMem (by decide) (by decide), protocol, rfl⟩, range, rfl⟩

/-! ### Addresses -/

theorem toNat_lt_of_isAddressChar (h : isAddressChar c = true) : c.toNat < 128 := by
  have hle : ∀ {d : Char}, c ≤ d → c.toNat ≤ d.toNat := fun h => h
  simp only [isAddressChar, Bool.or_eq_true, Bool.and_eq_true, decide_eq_true_eq, beq_iff_eq] at h
  rcases h with (((⟨-, h⟩ | ⟨-, h⟩) | ⟨-, h⟩) | rfl) | rfl
  · exact lt_of_le_of_lt (hle h) (by decide)
  · exact lt_of_le_of_lt (hle h) (by decide)
  · exact lt_of_le_of_lt (hle h) (by decide)
  · decide
  · decide

theorem isAddressChar_iff : isAddressChar c = true ↔ c ∈ addressChars := by
  constructor
  · intro h
    have hall : ∀ n < 128, isAddressChar (Char.ofNat n) = true → Char.ofNat n ∈ addressChars := by
      decide
    have hc := hall c.toNat (toNat_lt_of_isAddressChar h)
    rw [Char.ofNat_toNat] at hc
    exact hc h
  · have hall : addressChars.all isAddressChar = true := by decide
    exact List.all_eq_true.mp hall c

theorem exists_octet {n : List Char} (h : (isNumber n && decide (n.length ≤ 3)) = true) :
    ∃ o : Octet, o.digits = n := by
  rw [Bool.and_eq_true, isNumber_iff, decide_eq_true_eq] at h
  obtain ⟨⟨n, rfl⟩, hlength⟩ := h
  exact ⟨⟨n, hlength⟩, rfl⟩

theorem Octet.isOctet (o : Octet) : (isNumber o.digits && decide (o.digits.length ≤ 3)) = true :=
  Bool.and_eq_true_iff.mpr ⟨isNumber_iff.mpr ⟨o.toNumber, rfl⟩, decide_eq_true o.length_le⟩

theorem isDotted_iff : isDotted s = true ↔
    ∃ first second third fourth, (Address.dotted first second third fourth).text = s := by
  constructor
  · intro h
    have hs : ['.'].intercalate (s.splitOn '.') = s := List.intercalate_splitOn '.'
    rw [isDotted, Bool.and_eq_true, beq_iff_eq] at h
    obtain ⟨hlength, hall⟩ := h
    match hsplit : s.splitOn '.', hlength with
    | [first, second, third, fourth], _ =>
      rw [hsplit] at hs hall
      have hoctet : ∀ n ∈ [first, second, third, fourth], ∃ o : Octet, o.digits = n :=
        fun n hn => exists_octet (List.all_eq_true.mp hall n hn)
      obtain ⟨first, rfl⟩ := hoctet first (by simp)
      obtain ⟨second, rfl⟩ := hoctet second (by simp)
      obtain ⟨third, rfl⟩ := hoctet third (by simp)
      obtain ⟨fourth, rfl⟩ := hoctet fourth (by simp)
      refine ⟨first, second, third, fourth, ?_⟩
      rw [← hs, Address.text]
      simp only [List.intercalate_cons_cons, List.intercalate_singleton, List.append_assoc,
        List.singleton_append]
  · rintro ⟨first, second, third, fourth, rfl⟩
    have hdot : ∀ o : Octet, '.' ∉ o.digits := fun o => o.notMem (by decide)
    rw [isDotted, Address.text, List.splitOn_append_cons_self_of_not_mem (hdot first),
      List.splitOn_append_cons_self_of_not_mem (hdot second),
      List.splitOn_append_cons_self_of_not_mem (hdot third),
      List.splitOn_eq_singleton (hdot fourth)]
    simp [first.isOctet, second.isOctet, third.isOctet, fourth.isOctet]

/-! ### Mappings -/

theorem Range.colon_notMem (r : Range) : ':' ∉ r.text := r.notMem (by decide) (by decide)

/-- What stands before a colon where ports of the host may stand. -/
def rangeText : Option Range → List Char
  | none => []
  | some r => r.text

theorem isHostRange_iff : isHostRange s = true ↔ ∃ host : Option Range, rangeText host = s := by
  rw [isHostRange, Bool.or_eq_true, List.isEmpty_iff, isRange_iff]
  constructor
  · rintro (rfl | ⟨r, rfl⟩)
    · exact ⟨none, rfl⟩
    · exact ⟨some r, rfl⟩
  · rintro ⟨_ | r, rfl⟩
    · exact Or.inl rfl
    · exact Or.inr ⟨r, rfl⟩

theorem rangeText_notMem (host : Option Range) (h : isDecimalDigit c = false) (hhyphen : c ≠ '-') :
    c ∉ rangeText host := by
  cases host with
  | none => exact List.not_mem_nil
  | some r => exact r.notMem h hhyphen

theorem colon_notMem_rangeText (host : Option Range) : ':' ∉ rangeText host :=
  rangeText_notMem host (by decide) (by decide)

theorem isPair_iff : isPair s = true ↔
    ∃ (host : Option Range) (r : Range), rangeText host ++ ':' :: r.text = s := by
  constructor
  · intro h
    have hs : [':'].intercalate (s.splitOn ':') = s := List.intercalate_splitOn ':'
    unfold isPair at h
    split at h
    · rename_i host range hsplit
      rw [Bool.and_eq_true, isHostRange_iff, isRange_iff] at h
      obtain ⟨⟨host, rfl⟩, r, rfl⟩ := h
      rw [hsplit, List.intercalate_cons_cons, List.intercalate_singleton] at hs
      exact ⟨host, r, by rw [← hs]; simp⟩
    · cases h
  · rintro ⟨host, r, rfl⟩
    rw [isPair, List.splitOn_append_cons_self_of_not_mem (colon_notMem_rangeText host),
      List.splitOn_eq_singleton r.colon_notMem]
    exact Bool.and_eq_true_iff.mpr ⟨isHostRange_iff.mpr ⟨host, rfl⟩, isRange_iff.mpr ⟨r, rfl⟩⟩

theorem isBracketed_iff : isBracketed s = true ↔
    ∃ (inner : List Char) (host : Option Range) (r : Range), inner ≠ [] ∧
      (∀ c ∈ inner, c ∈ addressChars) ∧
        inner ++ ']' :: ':' :: (rangeText host ++ ':' :: r.text) = s := by
  constructor
  · intro h
    unfold isBracketed at h
    dsimp only at h
    split at h
    · rename_i bracket rest hdrop
      have hs := eq_of_dropWhile hdrop
      simp only [Bool.and_eq_true, Bool.not_eq_true', List.isEmpty_eq_false_iff, List.all_eq_true,
        isAddressChar_iff, isPair_iff] at h
      obtain ⟨⟨hne, hallowed⟩, host, r, rfl⟩ := h
      exact ⟨_, host, r, hne, hallowed, hs.symm⟩
    · cases h
  · rintro ⟨inner, host, r, hne, hallowed, rfl⟩
    have hbracket : ']' ∉ inner := fun hmem => absurd (hallowed _ hmem) (by decide)
    rw [isBracketed, takeWhile_cut hbracket, dropWhile_cut hbracket]
    simp only [Bool.and_eq_true, Bool.not_eq_true', List.isEmpty_eq_false_iff, List.all_eq_true,
      isAddressChar_iff, isPair_iff]
    exact ⟨⟨hne, hallowed⟩, host, r, rfl⟩

/-- A host part is a range or nothing and a colon, perhaps after an address and a colon. -/
theorem HostPart.text_cases (part : HostPart) :
    (∃ host : Option Range, part.text = rangeText host ++ [':']) ∨
      ∃ (a : Address) (host : Option Range),
        part.text = a.text ++ ':' :: (rangeText host ++ [':']) :=
  match part with
  | unsaid => Or.inl ⟨none, rfl⟩
  | range r => Or.inl ⟨some r, rfl⟩
  | address a => Or.inr ⟨a, none, rfl⟩
  | addressRange a r => Or.inr ⟨a, some r, rfl⟩

theorem exists_text_eq_range (host : Option Range) :
    ∃ part : HostPart, part.text = rangeText host ++ [':'] :=
  match host with
  | none => ⟨.unsaid, rfl⟩
  | some r => ⟨.range r, rfl⟩

theorem exists_text_eq_address (a : Address) (host : Option Range) :
    ∃ part : HostPart, part.text = a.text ++ ':' :: (rangeText host ++ [':']) :=
  match host with
  | none => ⟨.address a, rfl⟩
  | some r => ⟨.addressRange a r, rfl⟩

/-- What a mapping that does not start with a bracket consists of. -/
theorem isMapping_of_notMem (h : '[' ∉ s) : isMapping s =
    match s.splitOn ':' with
    | [range] => isRange range
    | [host, range] => isHostRange host && isRange range
    | [address, host, range] => isDotted address && isHostRange host && isRange range
    | _ => false := by
  unfold isMapping
  split
  · exact absurd List.mem_cons_self h
  · rfl

theorem exists_of_isMapping (h : isMapping s = true) :
    ∃ (host : Option HostPart) (r : Range), hostText host ++ r.text = s := by
  have hs : [':'].intercalate (s.splitOn ':') = s := List.intercalate_splitOn ':'
  unfold isMapping at h
  split at h
  · obtain ⟨inner, host, r, hne, hallowed, rfl⟩ := isBracketed_iff.mp h
    obtain ⟨part, hpart⟩ := exists_text_eq_address (.bracketed inner hne hallowed) host
    exact ⟨some part, r, by simp [hostText, hpart, Address.text]⟩
  · split at h
    · rename_i range hsplit
      obtain ⟨r, rfl⟩ := isRange_iff.mp h
      rw [hsplit, List.intercalate_singleton] at hs
      exact ⟨none, r, hs⟩
    · rename_i host range hsplit
      rw [Bool.and_eq_true, isHostRange_iff, isRange_iff] at h
      obtain ⟨⟨host, rfl⟩, r, rfl⟩ := h
      obtain ⟨part, hpart⟩ := exists_text_eq_range host
      rw [hsplit, List.intercalate_cons_cons, List.intercalate_singleton] at hs
      exact ⟨some part, r, by rw [hostText, hpart, hs]⟩
    · rename_i address host range hsplit
      rw [Bool.and_eq_true, Bool.and_eq_true, isDotted_iff, isHostRange_iff, isRange_iff] at h
      obtain ⟨⟨⟨first, second, third, fourth, rfl⟩, host, rfl⟩, r, rfl⟩ := h
      obtain ⟨part, hpart⟩ := exists_text_eq_address (.dotted first second third fourth) host
      rw [hsplit, List.intercalate_cons_cons, List.intercalate_cons_cons,
        List.intercalate_singleton] at hs
      exact ⟨some part, r, by rw [hostText, hpart, ← hs]; simp⟩
    · cases h

theorem isMapping_text (host : Option HostPart) (r : Range) :
    isMapping (hostText host ++ r.text) = true := by
  have hopen : '[' ∉ r.text := r.notMem (by decide) (by decide)
  have hopen' : ∀ host, '[' ∉ rangeText host := fun host =>
    rangeText_notMem host (by decide) (by decide)
  have hr : isRange r.text = true := isRange_iff.mpr ⟨r, rfl⟩
  cases host with
  | none =>
    rw [hostText, List.nil_append, isMapping_of_notMem hopen,
      List.splitOn_eq_singleton r.colon_notMem]
    exact hr
  | some part =>
    rcases part.text_cases with ⟨host, hpart⟩ | ⟨a, host, hpart⟩
    · have hfree : '[' ∉ rangeText host ++ ':' :: r.text := by simp [hopen, hopen' host]
      rw [hostText, hpart, List.append_assoc, List.singleton_append, isMapping_of_notMem hfree,
        List.splitOn_append_cons_self_of_not_mem (colon_notMem_rangeText host),
        List.splitOn_eq_singleton r.colon_notMem]
      exact Bool.and_eq_true_iff.mpr ⟨isHostRange_iff.mpr ⟨host, rfl⟩, hr⟩
    · have htext : hostText (some part) ++ r.text =
          a.text ++ ':' :: (rangeText host ++ ':' :: r.text) := by
        simp [hostText, hpart]
      rw [htext]
      cases a with
      | bracketed inner hne hallowed =>
        have hbracketed := isBracketed_iff.mpr ⟨inner, host, r, hne, hallowed, rfl⟩
        rw [Address.text, List.cons_append, List.append_assoc]
        exact hbracketed
      | dotted first second third fourth =>
        have hfree : '[' ∉ (Address.dotted first second third fourth).text ++
            ':' :: (rangeText host ++ ':' :: r.text) := by
          have ha : '[' ∉ (Address.dotted first second third fourth).text :=
            Address.dotted_notMem first second third fourth (by decide) (by decide)
          simp [ha, hopen, hopen' host]
        have hcolon : ':' ∉ (Address.dotted first second third fourth).text :=
          Address.dotted_notMem first second third fourth (by decide) (by decide)
        rw [isMapping_of_notMem hfree, List.splitOn_append_cons_self_of_not_mem hcolon,
          List.splitOn_append_cons_self_of_not_mem (colon_notMem_rangeText host),
          List.splitOn_eq_singleton r.colon_notMem]
        have haddress := isDotted_iff.mpr ⟨first, second, third, fourth, rfl⟩
        have hhost := isHostRange_iff.mpr ⟨host, rfl⟩
        exact Bool.and_eq_true_iff.mpr ⟨Bool.and_eq_true_iff.mpr ⟨haddress, hhost⟩, hr⟩

theorem slash_notMem_hostText (host : Option HostPart) : '/' ∉ hostText host := by
  have hrange : ∀ host, '/' ∉ rangeText host := fun host =>
    rangeText_notMem host (by decide) (by decide)
  cases host with
  | none => exact List.not_mem_nil
  | some part =>
    rcases part.text_cases with ⟨host, hpart⟩ | ⟨a, host, hpart⟩
    · simp [hostText, hpart, hrange host]
    · have ha : '/' ∉ a.text := a.notMem (by decide) (by decide)
      simp [hostText, hpart, hrange host, ha]

/-- **A published port** is accepted just if it has the shape of one. -/
theorem isPublished_iff : isPublished s = true ↔ ∃ p : Published, p.text = s := by
  rw [isPublished, Option.any_eq_true]
  simp only [withoutProtocol?_eq_some_iff]
  constructor
  · rintro ⟨ports, ⟨-, protocol, rfl⟩, hmapping⟩
    obtain ⟨host, range, rfl⟩ := exists_of_isMapping hmapping
    exact ⟨⟨host, range, protocol⟩, rfl⟩
  · rintro ⟨⟨host, range, protocol⟩, rfl⟩
    have hrange : '/' ∉ range.text := range.notMem (by decide) (by decide)
    refine ⟨_, ⟨?_, protocol, rfl⟩, isMapping_text host range⟩
    rw [List.mem_append, not_or]
    exact ⟨slash_notMem_hostText host, hrange⟩

theorem isPublished_of_isExposed (h : isExposed s = true) : isPublished s = true := by
  obtain ⟨e, he⟩ := isExposed_iff.mp h
  exact isPublished_iff.mpr ⟨e.toPublished, e.text_toPublished.trans he⟩

/-! ### Tests -/

theorem passes_publishedPorts_iff {r : Resolution} :
    ValueTest.passes r .publishedPorts = .ok true ↔
      ∀ v ∈ r.values, ∃ p : Published, p.text = v.text.toList := by
  simp only [ValueTest.passes, Except.ok.injEq, List.all_eq_true, isPublished_iff]

theorem passes_exposedPorts_iff {r : Resolution} : ValueTest.passes r .exposedPorts = .ok true ↔
    ∀ v ∈ r.values, ∃ e : Exposed, e.text = v.text.toList := by
  simp only [ValueTest.passes, Except.ok.injEq, List.all_eq_true, isExposed_iff]

/-- **The tests of ports accept their shapes** and nothing else. Neither of them fails. Values pass
the test of published ports just if each is a range of ports, with what is said about the host
before it or nothing, and a protocol after it or none; they pass the test of exposed ports just if
each is a range with a protocol or none. So what can be exposed can be published. -/
theorem tests_accept_shapes (r : Resolution) : ∃ published exposed : Bool,
    ValueTest.passes r .publishedPorts = .ok published ∧
    ValueTest.passes r .exposedPorts = .ok exposed ∧
    (published = true ↔ ∀ v ∈ r.values, ∃ p : Published, p.text = v.text.toList) ∧
    (exposed = true ↔ ∀ v ∈ r.values, ∃ e : Exposed, e.text = v.text.toList) ∧
    (∀ s, isExposed s = true → isPublished s = true) ∧ (exposed = true → published = true) := by
  refine ⟨_, _, rfl, rfl, ?_, ?_, fun s => isPublished_of_isExposed, fun h => ?_⟩
  · simp only [List.all_eq_true, isPublished_iff]
  · simp only [List.all_eq_true, isExposed_iff]
  · rw [List.all_eq_true] at h ⊢
    exact fun v hv => isPublished_of_isExposed (h v hv)

end UnitLint.Port
