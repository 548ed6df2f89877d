import UnitLint.Proofs.Lookup.Marks
import UnitLint.Proofs.Lookup.Order

/-! # Where looked-up values come from

Whatever the mode, each value that a key is looked up to, and each issue, stands where some
occurrence of the key was written, or at an offset of that occurrence when it is spliced
(`comesFrom_resolve`). The offset is 0 or that of a character, also where blanks and quotes
around the value are left out. In a parsed file such a place lies within the lines that the entry
takes up, also where nothing is left of the value (`exists_covers`). -/

namespace UnitLint

open Text Statement Words

/-- The place is that of the value as written, or one of an offset in it when it is spliced. -/
def Value.IsPlace (o : Value) (p : Location) : Prop :=
  p = o.location ∨ ∃ offset, (offset = 0 ∨ offset < (Spliced.ofValue o).text.length) ∧
    p = (Spliced.ofValue o).locate offset

theorem Value.isPlace_location (o : Value) : o.IsPlace o.location := Or.inl rfl

theorem Value.isPlace_splicedValue (key : String) (o : Value) :
    o.IsPlace (splicedValue key o).location := Or.inr ⟨0, Or.inl rfl, rfl⟩

/-- Quotes are left out only where something stands between them. -/
theorem unquote_offset (s : List Char) : (unquote s).2 = 0 ∨ (unquote s).2 < s.length := by
  unfold unquote
  split
  · rename_i inner
    split
    · rename_i hlast
      have hne : inner ≠ [] := by
        rintro rfl
        exact absurd hlast (by decide)
      have := List.length_pos_iff.mpr hne
      exact Or.inr (by rw [List.length_cons]; dsimp only; omega)
    · exact Or.inl rfl
  · exact Or.inl rfl

theorem Value.isPlace_baseValue (key : String) (o : Value) :
    o.IsPlace (baseValue key o).location := by
  have htrim := trimEnd_prefix (Spliced.ofValue o).text
  refine Or.inr ⟨(unquote (trimEnd (Spliced.ofValue o).text)).2, ?_, rfl⟩
  exact (unquote_offset _).imp_right fun h => Nat.lt_of_lt_of_le h htrim.length_le

theorem Value.isPlace_of_mem_splitValue {flags : SplitFlags} (h : flags.separateEach = false)
    {form : WordForm} {key : String} {o : Value} {p : Location}
    (hp : p ∈ (splitValue flags form key o).locations) : o.IsPlace p := by
  obtain ⟨offset, hoffset, rfl⟩ :=
    List.mem_map.mp ((locations_splitValue_sublist flags form key o).subset hp)
  exact Or.inr ⟨offset, Or.inr ((offsets_ordered h whitespace _).2 offset hoffset), rfl⟩

namespace Resolution

/-- The places of the resolution are all places of one of the occurrences. -/
def ComesFrom (r : Resolution) (os : List Value) : Prop :=
  ∀ p ∈ r.locations, ∃ o ∈ os, o.IsPlace p

theorem ComesFrom.of_sublist {r : Resolution} {vs os : List Value} (h : r.ComesFrom vs)
    (hvs : vs.Sublist os) : r.ComesFrom os := by
  intro p hp
  obtain ⟨o, ho, hop⟩ := h p hp
  exact ⟨o, hvs.subset ho, hop⟩

/-- One value for some of the occurrences each. -/
theorem comesFrom_of_subset {f : Value → Value} (hf : ∀ o : Value, o.IsPlace (f o).location)
    {values os : List Value} (h : values ⊆ os.map f) : ComesFrom ⟨values, []⟩ os := by
  intro p hp
  rw [locations, List.map_nil, List.append_nil] at hp
  obtain ⟨v, hv, rfl⟩ := List.mem_map.mp hp
  obtain ⟨o, ho, rfl⟩ := List.mem_map.mp (h hv)
  exact ⟨o, ho, hf o⟩

theorem comesFrom_splitValues {flags : SplitFlags} (h : flags.separateEach = false)
    (form : WordForm) (key : String) (os : List Value) :
    (splitValues flags form key os).ComesFrom os := by
  intro p hp
  rw [splitValues_eq, locations, List.mem_append, List.map_flatMap, List.map_flatMap,
    List.mem_flatMap, List.mem_flatMap] at hp
  rcases hp with ⟨o, ho, hp⟩ | ⟨o, ho, hp⟩
  · exact ⟨o, ho, Value.isPlace_of_mem_splitValue h (List.mem_append_left _ hp)⟩
  · exact ⟨o, ho, Value.isPlace_of_mem_splitValue h (List.mem_append_right _ hp)⟩

end Resolution

/-- **Values and issues stand in occurrences**, in whichever mode. -/
theorem LookupMode.comesFrom_resolve (mode : LookupMode) (key : String) (os : List Value) :
    (mode.resolve key os).ComesFrom os := by
  have hfinal := getLast?_toList_sublist os
  have hlive := sinceReset_sublist os
  have hmap : ∀ f : Value → Value, (os.getLast?.map f).toList ⊆ os.getLast?.toList.map f := by
    intro f
    rw [Option.toList_map]
    exact List.Subset.refl _
  have hid : ∀ vs : List Value, vs ⊆ vs.map id := by
    intro vs
    rw [List.map_id]
    exact List.Subset.refl vs
  cases mode with
  | lastRaw =>
    exact (Resolution.comesFrom_of_subset Value.isPlace_location (hid _)).of_sublist hfinal
  | last =>
    exact (Resolution.comesFrom_of_subset (Value.isPlace_splicedValue key) (hmap _)).of_sublist
      hfinal
  | base | boolean =>
    exact (Resolution.comesFrom_of_subset (Value.isPlace_baseValue key) (hmap _)).of_sublist hfinal
  | int =>
    -- what is no number is left out
    refine (Resolution.comesFrom_of_subset (Value.isPlace_baseValue key) fun v hv =>
      hmap _ ?_).of_sublist hfinal
    rw [Option.mem_toList] at hv ⊢
    exact (Option.filter_eq_some_iff.mp hv).1
  | allRaw =>
    exact (Resolution.comesFrom_of_subset Value.isPlace_location (hid _)).of_sublist hlive
  | all =>
    exact (Resolution.comesFrom_of_subset (Value.isPlace_splicedValue key)
      (List.Subset.refl _)).of_sublist hlive
  | allStrv | allArgs | allKeyVal =>
    exact (Resolution.comesFrom_splitValues rfl _ key _).of_sublist hlive
  | lastArgs => exact (Resolution.comesFrom_splitValues rfl _ key _).of_sublist hfinal

/-! ### Places in the text -/

/-- The place is on a line that the statement takes up, no further than at its end. -/
def Statement.Located.Covers (ls : List (List Char)) (s : Located) (p : Location) : Prop :=
  s.line ≤ p.line ∧ p.line ≤ s.lastLine ∧ ∃ l, lineAt? ls p.line = some l ∧ p.column ≤ l.length

theorem column_le_of_charAt? {ls : List (List Char)} {p : Location} {c : Char}
    (h : charAt? ls p = some c) : ∃ l, lineAt? ls p.line = some l ∧ p.column ≤ l.length := by
  obtain ⟨l, hl, hc⟩ := Option.bind_eq_some_iff.mp h
  exact ⟨l, hl, Nat.le_of_lt (List.getElem?_eq_some_iff.mp hc).1⟩

theorem Spliced.column_of_mem_splice {offset line : Nat} {s : List Char} {b : Anchor}
    (h : b ∈ (splice offset line s).2) : b.location.column = 0 := by
  induction s using kept_cases generalizing offset line with
  | nil => cases h
  | pair s ih | newline s ih =>
    rcases List.mem_cons.mp h with rfl | h
    · rfl
    · exact ih h
  | kept c s hc hs ih =>
    rw [splice_of_kept hc hs] at h
    exact ih h

/-- A value that is spliced to nothing stands at the start of a line. -/
theorem Spliced.column_locate_zero {v : Value} (hv : v.text ≠ "") (h : (ofValue v).text = []) :
    ((ofValue v).locate 0).column = 0 := by
  obtain ⟨n, hn⟩ := splice_eq_nil_iff.mp h
  rcases n with _ | n
  · exact absurd (String.toList_eq_nil_iff.mp hn) hv
  · have hanchors : (ofValue v).anchors = ⟨0, ⟨v.location.line + 1, 0⟩⟩ ::
        (splice 0 (v.location.line + 1) (marks n)).2 := by
      show (splice 0 v.location.line v.text.toList).2 = _
      rw [hn, marks, splice_pair]
    show (locateAfter ⟨0, v.location⟩ (ofValue v).anchors 0).column = 0
    rw [hanchors, locateAfter_cons (Nat.le_refl 0)]
    obtain ⟨b, hb, hlocate⟩ := exists_locateAfter_eq ⟨0, ⟨v.location.line + 1, 0⟩⟩
      (splice 0 (v.location.line + 1) (marks n)).2 0
    rw [hlocate, Nat.zero_sub]
    rcases List.mem_cons.mp hb with rfl | hb
    · rfl
    · exact column_of_mem_splice hb

section StandsIn

variable {text : List Char} {before : List (List Char)} {l : List Char}
  {after : List (List Char)} {left right : List Char} {e : Entry}
  (h : e.StandsIn text before l after left right)
include h

theorem Entry.StandsIn.keyColumn_le : e.keyColumn ≤ l.length := by
  rw [h.keyColumn_eq, ← indent_add_length_trimStart l]
  exact Nat.le_add_right _ _

theorem Entry.StandsIn.valueColumn_le : e.value.location.column ≤ l.length := by
  have hlength := h.value_prefix_drop.length_le
  have hpos := List.length_pos_iff.mpr h.value_ne_nil
  rw [List.length_drop] at hlength
  omega

end StandsIn

section Parsed

variable {path : Path} {text : String} {u : UnitFile} (h : parse path text = .ok u) {g : Group}
  (hg : g ∈ u.groups) {e : Entry} (he : e ∈ g.entries)
include h hg he

/-- The characters of a spliced value are within their lines, and so is the start of one without
characters. -/
theorem column_locate_le {offset : Nat}
    (hoffset : offset = 0 ∨ offset < (Spliced.ofValue e.value).text.length) {l : List Char}
    (hl : lineAt? (lines text.toList) ((Spliced.ofValue e.value).locate offset).line = some l) :
    ((Spliced.ofValue e.value).locate offset).column ≤ l.length := by
  cases hc : (Spliced.ofValue e.value).text[offset]? with
  | some c =>
    obtain ⟨l', hl', hcolumn⟩ := column_le_of_charAt? (charAt?_locate h hg he hc)
    rwa [Option.some.inj (hl.symm.trans hl')]
  | none =>
    have hnone := List.getElem?_eq_none_iff.mp hc
    obtain rfl : offset = 0 := hoffset.resolve_right (by omega)
    have hempty : (Spliced.ofValue e.value).text = [] :=
      List.eq_nil_of_length_eq_zero (Nat.le_zero.mp hnone)
    have hne := (((wellFormed_of_parse h).groups g hg).entries e he).text_ne
    rw [Spliced.column_locate_zero hne hempty]
    exact Nat.zero_le _

/-- **An entry stands within its lines**, with its key and all places of its value. -/
theorem exists_covers :
    ∃ s ∈ ofText text.toList, .append e ∈ s.actions ∧ s.Covers (lines text.toList) e.location ∧
      ∀ p, e.value.IsPlace p → s.Covers (lines text.toList) p := by
  obtain ⟨s, hs, happend⟩ := exists_append_of_mem h hg he
  obtain ⟨before, l, after, left, right, hstands, hline, hlast⟩ := exists_standsIn hs happend
  have hl : lineAt? (lines text.toList) e.value.location.line = some l := by
    rw [hstands.lines_eq, hstands.location_eq]
    exact lineAt?_append_cons before l after
  have hge : s.line ≤ e.value.location.line := Nat.le_of_eq hline.symm
  have hle : e.value.location.line ≤ s.lastLine := hline ▸ s.line_le_lastLine
  refine ⟨s, hs, happend, ⟨hge, hle, l, hl, hstands.keyColumn_le⟩, ?_⟩
  rintro p (rfl | ⟨offset, hoffset, rfl⟩)
  · exact ⟨hge, hle, l, hl, hstands.valueColumn_le⟩
  · obtain ⟨hge', hle'⟩ := Spliced.line_locate e.value offset
    rw [hline] at hge'
    rw [hlast] at hle'
    have hpos := line_pos_of_mem_ofText hs
    have hlines := lastLine_le_of_mem_ofText hs
    obtain ⟨l', hl'⟩ := exists_lineAt? (Nat.lt_of_lt_of_le hpos hge') (Nat.le_trans hle' hlines)
    exact ⟨hge', hle', l', hl', column_locate_le h hg he hoffset hl'⟩

end Parsed

end UnitLint
