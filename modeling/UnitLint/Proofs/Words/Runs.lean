import UnitLint.Proofs.Words.Slices
import Mathlib.Data.List.Pairwise

/-! # Runs without separators

A run is a slice of the text that has no separators in it and cannot be made longer. Runs that meet
are the same (`IsRun.eq_of_covers`). So words that keep all of a text but separators, none of which
has a separator in it or is empty, are just the runs of the text (`Lossless.areRuns`). -/

namespace UnitLint.Words

variable {flags : SplitFlags} {separators : List Char}

/-! ### Runs -/

/-- The word is a maximal run of characters that are no separators. -/
structure IsRun (separators input : List Char) (w : Word) : Prop where
  slice : w.IsSlice input
  nonempty : w.text ≠ ""
  free : ∀ c ∈ w.text.toList, separators.contains c = false
  left : ∀ (i : Nat) (c : Char), i + 1 = w.offset → input[i]? = some c →
    separators.contains c = true
  right : ∀ c : Char, input[w.stop]? = some c → separators.contains c = true

/-- The words are the maximal runs, in order. -/
structure AreRuns (separators input : List Char) (found : List Word) : Prop where
  ordered : found.Pairwise fun w w' => w.offset < w'.offset
  mem_iff : ∀ w, w ∈ found ↔ IsRun separators input w

theorem Word.IsSlice.getElem? {input : List Char} {w : Word} (h : w.IsSlice input) {i : Nat}
    (hi : w.Covers i) : ∃ c ∈ w.text.toList, input[i]? = some c := by
  obtain ⟨before, after, rfl, hoffset⟩ := h
  obtain ⟨hle, hlt⟩ := hi
  have hlength : i - before.length < w.text.toList.length := by
    rw [Word.stop] at hlt
    rw [String.length_toList]
    omega
  refine ⟨w.text.toList[i - before.length], List.getElem_mem hlength, ?_⟩
  rw [List.getElem?_append_right (by omega), List.getElem?_append_left hlength,
    List.getElem?_eq_getElem hlength]

theorem Word.IsSlice.stop_le {input : List Char} {w : Word} (h : w.IsSlice input) :
    w.stop ≤ input.length := by
  obtain ⟨before, after, rfl, hoffset⟩ := h
  simp only [Word.stop, hoffset, List.length_append, String.length_toList]
  omega

/-- A slice is given by where it starts and stops. -/
theorem Word.IsSlice.eq {input : List Char} {w v : Word} (hw : w.IsSlice input)
    (hv : v.IsSlice input) (hoffset : w.offset = v.offset) (hstop : w.stop = v.stop) : w = v := by
  obtain ⟨before, after, rfl, hw⟩ := hw
  obtain ⟨before', after', hinput, hv⟩ := hv
  have hlength : w.text.toList.length = v.text.toList.length := by
    rw [Word.stop, Word.stop] at hstop
    rw [String.length_toList, String.length_toList]
    omega
  obtain ⟨-, hrest⟩ := List.append_inj hinput (by omega)
  obtain ⟨htext, -⟩ := List.append_inj hrest hlength
  obtain ⟨text, offset⟩ := w
  obtain ⟨text', offset'⟩ := v
  obtain rfl := String.toList_injective htext
  obtain rfl : offset = offset' := hoffset
  rfl

namespace IsRun

variable {input : List Char} {w v : Word}

/-- A run that meets another does not start after it. -/
theorem offset_le (hw : IsRun separators input w) (hv : IsRun separators input v) {i : Nat}
    (hi : w.Covers i) (hi' : v.Covers i) : w.offset ≤ v.offset := by
  by_contra hlt
  obtain ⟨hle, -⟩ := hi
  obtain ⟨-, hlt'⟩ := hi'
  have hcovers : v.Covers (w.offset - 1) := ⟨by omega, by omega⟩
  obtain ⟨c, hc, hget⟩ := hv.slice.getElem? hcovers
  have hsep := hw.left (w.offset - 1) c (by omega) hget
  rw [hv.free c hc] at hsep
  cases hsep

/-- A run that meets another does not stop before it. -/
theorem stop_le (hw : IsRun separators input w) (hv : IsRun separators input v) {i : Nat}
    (hi : w.Covers i) (hi' : v.Covers i) : v.stop ≤ w.stop := by
  by_contra hlt
  obtain ⟨-, hlt'⟩ := hi
  obtain ⟨hle, -⟩ := hi'
  have hcovers : v.Covers w.stop := ⟨by omega, by omega⟩
  obtain ⟨c, hc, hget⟩ := hv.slice.getElem? hcovers
  have hsep := hw.right c hget
  rw [hv.free c hc] at hsep
  cases hsep

/-- **Runs that meet are the same.** -/
theorem eq_of_covers (hw : IsRun separators input w) (hv : IsRun separators input v) {i : Nat}
    (hi : w.Covers i) (hi' : v.Covers i) : w = v :=
  hw.slice.eq hv.slice (Nat.le_antisymm (hw.offset_le hv hi hi') (hv.offset_le hw hi' hi))
    (Nat.le_antisymm (hv.stop_le hw hi' hi) (hw.stop_le hv hi hi'))

theorem covers_offset (hw : IsRun separators input w) : w.Covers w.offset := by
  refine ⟨Nat.le_refl _, Nat.lt_add_of_pos_right ?_⟩
  rw [← String.length_toList]
  exact List.length_pos_iff.mpr (mt String.toList_eq_nil_iff.mp hw.nonempty)

end IsRun

namespace Lossless

variable {input : List Char} {found : List Word}

theorem apart (h : Lossless flags separators input found) {w v : Word} (hw : w ∈ found)
    (hv : v ∈ found) (hne : w ≠ v) : w.stop < v.offset ∨ v.stop < w.offset := by
  let Apart : Word → Word → Prop := fun w v => w.stop < v.offset ∨ v.stop < w.offset
  have hsymm : Std.Symm Apart := ⟨fun _ _ => Or.symm⟩
  have hpairwise : found.Pairwise Apart := h.ordered.imp Or.inl
  exact hpairwise.forall hw hv hne

/-- Right before a word and right after it, no word covers the text. -/
theorem not_covers (h : Lossless flags separators input found) {w : Word} (hw : w ∈ found)
    {i : Nat} (hi : i + 1 = w.offset ∨ i = w.stop) : ∀ v ∈ found, ¬ v.Covers i := by
  rintro v hv ⟨hle, hlt⟩
  have hstop : w.offset ≤ w.stop := Nat.le_add_right _ _
  by_cases heq : w = v
  · subst heq
    omega
  · have hapart := h.apart hw hv heq
    omega

/-- Words that keep all but separators are runs, if they have no separators in them. -/
theorem areRuns (h : Lossless flags separators input found) (hne : ∀ w ∈ found, w.text ≠ "")
    (hfree : ∀ w ∈ found, ∀ c ∈ w.text.toList, separators.contains c = false) :
    AreRuns separators input found := by
  have hrun : ∀ w ∈ found, IsRun separators input w := by
    intro w hw
    refine ⟨h.slice w hw, hne w hw, hfree w hw, fun i c hi hget => ?_, fun c hget => ?_⟩
    · exact h.outside i c hget (h.not_covers hw (Or.inl hi))
    · exact h.outside w.stop c hget (h.not_covers hw (Or.inr rfl))
  have hordered : found.Pairwise fun w w' => w.offset < w'.offset :=
    h.ordered.imp fun hlt => Nat.lt_of_le_of_lt (Nat.le_add_right _ _) hlt
  refine ⟨hordered, fun w => ⟨hrun w, fun hw => ?_⟩⟩
  -- The first character of a run is in some word, and that is the run.
  obtain ⟨c, hc, hget⟩ := hw.slice.getElem? hw.covers_offset
  have hmeets : ∃ v ∈ found, v.Covers w.offset := by
    by_contra hnone
    have hsep := h.outside w.offset c hget fun v hv hcovers => hnone ⟨v, hv, hcovers⟩
    rw [hw.free c hc] at hsep
    cases hsep
  obtain ⟨v, hv, hcovers⟩ := hmeets
  rwa [hw.eq_of_covers (hrun v hv) hw.covers_offset hcovers]

end Lossless

end UnitLint.Words
