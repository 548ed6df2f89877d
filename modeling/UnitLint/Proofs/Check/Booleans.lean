import UnitLint.Check.Rule
import UnitLint.Proofs.Lookup.Places
import UnitLint.Proofs.Text.Blank

/-! # Spellings of booleans

Twelve words are accepted as booleans, six for each truth value. Two of those for truth, the letters
`y` and `t`, are not among the words that are read as true (`isTrue_of_spells`). A spelling is looked
up as it was written: it has neither blanks nor quotes (`baseValue_of_spells`). -/

namespace UnitLint

open Text Spliced

/-! ### Words -/

/-- The words that spell a truth value. -/
def spellings : Bool → List String
  | true => ["1", "yes", "y", "true", "t", "on"]
  | false => ["0", "no", "n", "false", "f", "off"]

/-- The text spells the truth value, in upper or lower case. -/
def Spells (b : Bool) (text : String) : Prop :=
  ∃ word ∈ spellings b, sameIgnoringCase text word = true

instance (b : Bool) (text : String) : Decidable (Spells b text) := by
  unfold Spells; infer_instance

/-- Whether a text spells truth with one letter. -/
def isLetter (text : String) : Bool := ["y", "t"].any (sameIgnoringCase text)

/-- Which words a text is one of follows from any word that it is. -/
theorem any_sameIgnoringCase_congr {text word : String} (h : sameIgnoringCase text word = true)
    (ws : List String) : ws.any (sameIgnoringCase text) = ws.any (sameIgnoringCase word) := by
  have hlower : text.toList.map Char.toLower = word.toList.map Char.toLower := beq_iff_eq.mp h
  unfold sameIgnoringCase
  rw [hlower]

theorem isBoolean_iff {text : String} : isBoolean text = true ↔ ∃ b, Spells b text := by
  rw [isBoolean, List.any_eq_true, Bool.exists_bool]
  show (∃ word ∈ spellings true ++ spellings false, _) ↔ _
  simp only [List.mem_append, or_and_right, exists_or]
  exact or_comm

/-- **What a spelling is read as**: the truth value that it spells, but the letters are read as
false. -/
theorem isTrue_of_spells {b : Bool} {text : String} (h : Spells b text) :
    isTrue text = (b && !isLetter text) := by
  obtain ⟨word, hword, hsame⟩ := h
  have hwords : ∀ b, ∀ word ∈ spellings b, isTrue word = (b && !isLetter word) := by decide
  have hread := hwords b word hword
  unfold isTrue isLetter at hread ⊢
  rw [any_sameIgnoringCase_congr hsame, any_sameIgnoringCase_congr hsame, hread]

/-! ### Values -/

/-- Blanks and quotes have no case. -/
theorem toLower_eq_self {c : Char} (h : isBlank c = true ∨ c = '"') : c.toLower = c := by
  unfold Char.toLower
  split
  · rename_i hupper
    have hge : 65 ≤ c.toNat := hupper.1
    have hle : c.toNat ≤ 90 := hupper.2
    exfalso
    rcases h with h | rfl
    · simp only [isBlank, Bool.or_eq_true, Bool.and_eq_true, decide_eq_true_eq, beq_iff_eq] at h
      omega
    · exact absurd hge (by decide)
  · rfl

/-- A spelling has neither blanks nor quotes. -/
theorem bare_of_spells {b : Bool} {text : String} (h : Spells b text) :
    ∀ c ∈ text.toList, isBlank c = false ∧ c ≠ '"' := by
  obtain ⟨word, hword, hsame⟩ := h
  have hbare : ∀ b, ∀ word ∈ spellings b,
      (word.toList.map Char.toLower).all (fun c => !isBlank c && c != '"') = true := by decide
  intro c hc
  have hlower : c.toLower ∈ word.toList.map Char.toLower :=
    beq_iff_eq.mp hsame ▸ List.mem_map_of_mem hc
  have hword : isBlank c.toLower = false ∧ c.toLower ≠ '"' := by
    simpa using List.all_eq_true.mp (hbare b word hword) c.toLower hlower
  constructor
  · rw [← Bool.not_eq_true]
    intro hblank
    rw [toLower_eq_self (Or.inl hblank), hblank] at hword
    cases hword.1
  · intro hquote
    rw [toLower_eq_self (Or.inr hquote)] at hword
    exact hword.2 hquote

/-- A text of one line is spliced as it is. -/
theorem splice_of_notMem {s : List Char} (h : '\n' ∉ s) (offset line : Nat) :
    splice offset line s = (s, []) := by
  induction s generalizing offset with
  | nil => rfl
  | cons c s ih =>
    obtain ⟨hc, hs⟩ := not_or.mp (mt List.mem_cons.mpr h)
    have hkept : c = '\\' → s.head? ≠ some '\n' := fun _ hhead =>
      hs (List.mem_of_mem_head? hhead)
    rw [splice_of_kept (Ne.symm hc) hkept, ih hs]

/-- **A spelling is looked up** as it was written, at its place. -/
theorem baseValue_of_spells {b : Bool} {v : Value} (h : Spells b v.text) (key : String) :
    baseValue key v = ⟨key, v.text, v.location⟩ := by
  have hbare := bare_of_spells h
  have hline : '\n' ∉ v.text.toList := fun hmem => by cases (hbare '\n' hmem).1
  have htrim : trimEnd v.text.toList = v.text.toList := trimEnd_eq_self fun c hc =>
    (hbare c (List.mem_of_getLast? hc)).1
  have hquote : unquote v.text.toList = (v.text.toList, 0) := by
    unfold unquote
    split
    · rename_i inner hinner
      exact absurd rfl (hbare '"' (hinner ▸ List.mem_cons_self)).2
    · rfl
  have hspliced : Spliced.ofValue v = ⟨v.text.toList, v.location, []⟩ := by
    rw [Spliced.ofValue, splice_of_notMem hline]
  rw [baseValue, hspliced]
  dsimp only
  rw [htrim, hquote]
  dsimp only
  rw [Spliced.valueAt, String.ofList_toList]
  rfl

end UnitLint
