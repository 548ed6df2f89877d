import UnitLint.Lookup.AnchorTable
import UnitLint.Proofs.Lookup.Kept
import UnitLint.Proofs.Lookup.Origin

/-! # Tables of anchors

The one pass over a value gives the spliced text and its anchors (`AnchorTable.ofValue_eq`). It keeps
the offset at the end of the text, so no anchor is beyond that (`Splicer.InStep.run`), and the table
is well formed (`AnchorTable.wellFormed_ofValue`). In a table that is well formed, halving finds the
last anchor at or before an offset, also if several share one, so every offset has a place
(`AnchorTable.WellFormed.locate?_eq`). What that means for a value is told in
`AnchorTable.ofValue_keeps_places`. -/

namespace UnitLint

/-! ### Halving -/

section Halving

variable {α : Type} {p : α → Bool} {as : List α}

/-- **Halving finds how many elements pass**, and looks at no position beyond the last. -/
theorem bisect_eq {n : Nat} (h : ∀ i a, as[i]? = some a → (p a = true ↔ i < n)) {base size : Nat}
    (hsize : 0 < size) (hlength : base + size ≤ as.length) (hbase : base ≤ n)
    (hn : n ≤ base + size) : bisect p as base size = some n := by
  induction size using Nat.strongRecOn generalizing base with
  | ind size ih =>
    rw [bisect]
    by_cases hone : size ≤ 1
    · have hget := List.getElem?_eq_getElem (l := as) (i := base) (by omega)
      have hpass := h _ _ hget
      rw [if_pos hone, hget, Option.map_some, Option.some_inj]
      split_ifs with hp
      · rw [hpass] at hp
        omega
      · rw [hpass] at hp
        omega
    · have hget := List.getElem?_eq_getElem (l := as) (i := base + size / 2) (by omega)
      have hpass := h _ _ hget
      rw [if_neg hone, hget, Option.bind_some]
      -- the number stays within the bounds that the half that is left sets
      split_ifs with hp
      · rw [hpass] at hp
        exact ih _ (by omega) (by omega) (by omega) (by omega) (by omega)
      · rw [hpass] at hp
        exact ih _ (by omega) (by omega) (by omega) (by omega) (by omega)

variable (h : as.Pairwise fun a b => p b = true → p a = true)
include h

/-- Where no element passes after one that fails, those that pass are the first ones. -/
theorem pass_iff_lt {i : Nat} {a : α} (ha : as[i]? = some a) :
    p a = true ↔ i < (as.takeWhile p).length := by
  induction as generalizing i with
  | nil => cases ha
  | cons b as ih =>
    obtain ⟨hfirst, hrest⟩ := List.pairwise_cons.mp h
    cases hb : p b with
    | true =>
      rw [List.takeWhile_cons_of_pos hb, List.length_cons]
      cases i with
      | zero =>
        obtain rfl := Option.some.inj ha
        exact iff_of_true hb (Nat.succ_pos _)
      | succ i => rw [ih hrest ha, Nat.succ_lt_succ_iff]
    | false =>
      have hb' : ¬ p b = true := Bool.eq_false_iff.mp hb
      have hnone : ¬ p a = true := by
        rcases List.mem_cons.mp (List.mem_of_getElem? ha) with rfl | hmem
        · exact hb'
        · exact mt (hfirst a hmem) hb'
      rw [List.takeWhile_cons_of_neg hb']
      exact iff_of_false hnone (Nat.not_lt_zero i)

theorem partitionPoint_eq : partitionPoint p as = some (as.takeWhile p).length := by
  unfold partitionPoint
  cases as with
  | nil => rfl
  | cons a as =>
    have hle := (List.takeWhile_prefix (l := a :: as) p).length_le
    exact bisect_eq (fun i b hb => pass_iff_lt h hb) (Nat.succ_pos _) (by omega) (Nat.zero_le _)
      (by omega)

/-- **The last element that passes** is right before the position that halving finds. -/
theorem exists_partitionPoint (hne : as.takeWhile p ≠ []) :
    ∃ n, partitionPoint p as = some n ∧ as[n - 1]? = (as.takeWhile p).getLast? := by
  refine ⟨_, partitionPoint_eq h, ?_⟩
  have hpos := List.length_pos_iff.mpr hne
  have hlt : (as.takeWhile p).length - 1 < (as.takeWhile p).length := by omega
  rw [List.getLast?_eq_getElem?, List.getElem?_eq_getElem hlt]
  exact List.prefix_iff_getElem?.mp (List.takeWhile_prefix p) _ hlt

end Halving

/-! ### The pass -/

namespace Splicer

theorem run_pair (s : Splicer) (cs : List Char) :
    s.run ('\\' :: '\n' :: cs) = s.nextLine.run cs := rfl

theorem run_newline (s : Splicer) (cs : List Char) :
    s.run ('\n' :: cs) = (s.keep '\n').nextLine.run cs := rfl

theorem run_of_kept {c : Char} {cs : List Char} (h : c ≠ '\n')
    (h' : c = '\\' → cs.head? ≠ some '\n') (s : Splicer) : s.run (c :: cs) = (s.keep c).run cs := by
  rw [run.eq_4]
  · rintro t hc rfl
    exact h' hc rfl
  · exact h

/-- **The pass appends what is spliced from where it is.** -/
theorem toAnchorTable_run (s : Splicer) (cs : List Char) : (s.run cs).toAnchorTable =
    ⟨s.text ++ (Spliced.splice s.offset s.line cs).1,
      s.anchors ++ (Spliced.splice s.offset s.line cs).2⟩ := by
  induction cs using Spliced.kept_cases generalizing s with
  | nil => simp [run, Spliced.splice]
  | pair cs ih =>
    rw [run_pair, ih, Spliced.splice_pair]
    simp [nextLine]
  | newline cs ih =>
    rw [run_newline, ih, Spliced.splice_newline]
    simp [nextLine, keep]
  | kept c cs hc hcs ih =>
    rw [run_of_kept hc hcs, ih, Spliced.splice_of_kept hc hcs]
    simp [keep]

/-- The offset is that of the end of the text, and no anchor is beyond it. -/
structure InStep (s : Splicer) : Prop where
  offset_eq : s.offset = s.text.length
  within : ∀ a ∈ s.anchors, a.offset ≤ s.offset

theorem inStep_start (l : Location) : (start l).InStep where
  offset_eq := rfl
  within a ha := by
    obtain rfl := List.mem_singleton.mp ha
    exact Nat.le_refl 0

namespace InStep

variable {s : Splicer} (h : s.InStep)
include h

theorem keep (c : Char) : (s.keep c).InStep where
  offset_eq := by simp [Splicer.keep, h.offset_eq]
  within a ha := Nat.le_succ_of_le (h.within a ha)

theorem nextLine : s.nextLine.InStep where
  offset_eq := h.offset_eq
  within a ha := by
    rcases List.mem_append.mp ha with ha | ha
    · exact h.within a ha
    · obtain rfl := List.mem_singleton.mp ha
      exact Nat.le_refl s.offset

/-- **Offset, text and anchors stay in step**, whatever is read. -/
theorem run (cs : List Char) : (s.run cs).InStep := by
  induction cs using Spliced.kept_cases generalizing s with
  | nil => exact h
  | pair cs ih => exact ih h.nextLine
  | newline cs ih => exact ih (h.keep '\n').nextLine
  | kept c cs hc hcs ih =>
    rw [run_of_kept hc hcs]
    exact ih (h.keep c)

end InStep

end Splicer

namespace AnchorTable

open Spliced

/-! ### Tables that are well formed -/

/-- The anchors come one after another, from the start of the value at offset 0 on, and none is
beyond the text. -/
structure WellFormed (t : AnchorTable) (start : Location) : Prop where
  first_eq : t.anchors.head? = some ⟨0, start⟩
  ordered : t.anchors.Pairwise AnchorBefore
  within : ∀ a ∈ t.anchors, a.offset ≤ t.text.length

/-- **Every offset has a place**: no access fails, and nothing goes below zero. -/
theorem WellFormed.locate?_eq {t : AnchorTable} {start : Location} (h : t.WellFormed start)
    (offset : Nat) : t.locate? offset = some (locate ⟨t.text, start, t.anchors.tail⟩ offset) := by
  obtain ⟨text, anchors⟩ := t
  obtain ⟨anchors, rfl⟩ := List.head?_eq_some_iff.mp h.first_eq
  set p : Anchor → Bool := (·.offset ≤ offset)
  have hfront : (⟨0, start⟩ :: anchors).takeWhile p = ⟨0, start⟩ :: anchors.takeWhile p :=
    List.takeWhile_cons_of_pos (decide_eq_true (Nat.zero_le offset))
  have hlast : ((⟨0, start⟩ :: anchors).takeWhile p).getLast? =
      some (anchorAt ⟨text, start, anchors⟩ offset) := by
    rw [hfront, List.getLast?_cons]
    rfl
  have hpass : p (anchorAt ⟨text, start, anchors⟩ offset) = true :=
    List.mem_takeWhile_imp (List.mem_of_getLast? hlast)
  have hpairwise : (⟨0, start⟩ :: anchors).Pairwise fun a b => p b = true → p a = true :=
    h.ordered.imp fun hab hb => decide_eq_true (Nat.le_trans hab.1 (of_decide_eq_true hb))
  obtain ⟨n, hn, hanchor⟩ := exists_partitionPoint hpairwise (hfront ▸ List.cons_ne_nil _ _)
  show (partitionPoint p _).bind _ = _
  rw [hn, Option.bind_some]
  show Option.bind _ _ = _
  rw [hanchor, hlast, Option.bind_some]
  exact if_pos (of_decide_eq_true hpass)

/-! ### The table of a value -/

/-- The table of a value holds its spliced text, and its anchors after the start. -/
theorem ofValue_eq (v : Value) :
    ofValue v = ⟨(Spliced.ofValue v).text, ⟨0, v.location⟩ :: (Spliced.ofValue v).anchors⟩ :=
  Splicer.toAnchorTable_run (Splicer.start v.location) v.text.toList

theorem wellFormed_ofValue (v : Value) : (ofValue v).WellFormed v.location where
  first_eq := by rw [ofValue_eq]; rfl
  ordered := by
    rw [ofValue_eq]
    exact anchors_ordered v
  within a ha := by
    have hstep := (Splicer.inStep_start v.location).run v.text.toList
    exact hstep.offset_eq ▸ hstep.within a ha

/-- There is one anchor on each line that the value takes up. -/
theorem lines_ofValue (v : Value) : (ofValue v).anchors.map (·.location.line) =
    List.range' v.location.line (v.text.toList.count '\n' + 1) := by
  rw [ofValue_eq, List.map_cons, List.range'_succ]
  exact congrArg _ (lines_splice 0 v.location.line v.text.toList)

/-- The column of an offset is no further from that of the start than the offset. -/
theorem column_locate_le_add (v : Value) (offset : Nat) :
    ((Spliced.ofValue v).locate offset).column ≤ v.location.column + offset := by
  obtain ⟨a, ha, hlocate⟩ :=
    exists_locateAfter_eq ⟨0, v.location⟩ (Spliced.ofValue v).anchors offset
  have hcolumn : ((Spliced.ofValue v).locate offset).column =
      a.location.column + (offset - a.offset) := congrArg Location.column hlocate
  rw [hcolumn]
  rcases List.mem_cons.mp ha with rfl | ha
  · exact Nat.le_refl _
  · rw [column_of_mem_splice ha]
    omega

/-- **Splicing keeps the places of characters.** The table of any value is that of its spliced form.
The text is the raw one without its pairs of a backslash and a line feed, the table is well formed,
and there is one anchor on each line that the value takes up. No access fails for any offset, and no
number gets larger than the last line of the value or the column of its start and the offset
together. A character of the text has the place that reading the raw text up to it leads to, and
later offsets have later places. -/
theorem ofValue_keeps_places (v : Value) :
    let raw := v.text.toList
    let t := ofValue v
    let s := Spliced.ofValue v
    s = ⟨t.text, v.location, t.anchors.tail⟩ ∧
    t.text.map some = (sources raw).map (raw[·]?) ∧
    t.WellFormed v.location ∧
    t.anchors.map (·.location.line) = List.range' v.location.line (raw.count '\n' + 1) ∧
    (∀ offset, t.locate? offset = some (s.locate offset) ∧
      (s.locate offset).line ≤ v.location.line + raw.count '\n' ∧
      (s.locate offset).column ≤ v.location.column + offset) ∧
    (∀ offset < t.text.length, ∃ i, (sources raw)[offset]? = some i ∧ t.text[offset]? = raw[i]? ∧
      s.locate offset = v.location.advance (raw.take i) ∧
      (s.locate offset).line = v.location.line + (raw.take i).count '\n') ∧
    ∀ i j, i < j → (s.locate i).Precedes (s.locate j) := by
  intro raw t s
  have ht : t = ⟨s.text, ⟨0, v.location⟩ :: s.anchors⟩ := ofValue_eq v
  have hs : s = ⟨t.text, v.location, t.anchors.tail⟩ := by
    rw [ht]
    rfl
  have htext : t.text = s.text := by rw [ht]
  refine ⟨hs, ?text, wellFormed_ofValue v, lines_ofValue v,
    fun offset => ⟨?locate, (line_locate v offset).2, column_locate_le_add v offset⟩,
    fun offset hoffset => ?source, fun i j hij => locate_precedes v hij⟩
  case text =>
    rw [htext]
    exact map_text_ofValue v
  case locate =>
    rw [hs]
    exact (wellFormed_ofValue v).locate?_eq offset
  case source =>
    rw [htext] at hoffset ⊢
    obtain ⟨i, hi, hchar, hlocate⟩ := exists_source v hoffset
    exact ⟨i, hi, hchar, hlocate, hlocate ▸ Location.line_advance _ _⟩

/-- A backslash before a pair, two pairs next to each other, a bare line feed and a pair at the end:
of the two anchors at one offset the later counts. -/
example : ofValue ⟨"k", "a\\\\\n\\\n\nb\\\n", ⟨1, 2⟩⟩ =
    ⟨['a', '\\', '\n', 'b'],
      [⟨0, ⟨1, 2⟩⟩, ⟨2, ⟨2, 0⟩⟩, ⟨2, ⟨3, 0⟩⟩, ⟨3, ⟨4, 0⟩⟩, ⟨4, ⟨5, 0⟩⟩]⟩ ∧
    (ofValue ⟨"k", "a\\\\\n\\\n\nb\\\n", ⟨1, 2⟩⟩).locate? 2 = some ⟨3, 0⟩ := by
  decide +kernel

end AnchorTable

end UnitLint
