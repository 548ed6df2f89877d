import Mathlib.Data.List.Induction
import Mathlib.Data.List.Nodup

/-! # Lists without repetitions

Of the equal elements of a list the first is kept. That can be done element by element
(`eraseDups_concat`), after others are dropped (`eraseDups_filter`), and before the elements are
mapped (`eraseDups_map_eraseDups`). A list that is put in order by a key, one key after another, has
the elements that it had (`perm_flatMap_filter`), and the keys are still in their order
(`eraseDups_map_flatMap`). A list that an index has the positions of has no repetitions
(`nodup_of_positions`). -/

namespace UnitLint

section Distinct

variable {α β : Type} [BEq α] [LawfulBEq α] [BEq β] [LawfulBEq β]

theorem eraseDups_concat (l : List α) (a : α) :
    (l ++ [a]).eraseDups = if a ∈ l then l.eraseDups else l.eraseDups ++ [a] := by
  rw [List.eraseDups_append, List.removeAll]
  by_cases h : a ∈ l
  · rw [if_pos h, List.filter_cons_of_neg (by simpa using h)]
    simp
  · rw [if_neg h, List.filter_cons_of_pos (by simpa using h)]
    rfl

theorem nodup_eraseDups (l : List α) : l.eraseDups.Nodup := by
  induction l using List.reverseRecOn with
  | nil => exact List.nodup_nil
  | append_singleton l a ih =>
    rw [eraseDups_concat]
    split_ifs with h
    · exact ih
    · refine List.nodup_append.mpr ⟨ih, List.pairwise_singleton _ a, fun b hb c hc => ?_⟩
      rintro rfl
      obtain rfl := List.mem_singleton.mp hc
      exact h (List.mem_eraseDups.mp hb)

theorem eraseDups_filter (p : α → Bool) (l : List α) :
    (l.filter p).eraseDups = l.eraseDups.filter p := by
  induction l using List.reverseRecOn with
  | nil => rfl
  | append_singleton l a ih =>
    by_cases hp : p a = true
    · rw [List.filter_append, List.filter_cons_of_pos hp, List.filter_nil, eraseDups_concat,
        eraseDups_concat, ih]
      by_cases h : a ∈ l
      · rw [if_pos h, if_pos (List.mem_filter.mpr ⟨h, hp⟩)]
      · rw [if_neg h, if_neg fun h' => h (List.mem_filter.mp h').1, List.filter_append,
          List.filter_cons_of_pos hp, List.filter_nil]
    · rw [List.filter_append, List.filter_cons_of_neg hp, List.filter_nil, List.append_nil, ih,
        eraseDups_concat]
      split_ifs with h
      · rfl
      · rw [List.filter_append, List.filter_cons_of_neg hp, List.filter_nil, List.append_nil]

/-- Repetitions that are mapped to repetitions may go before or after. -/
theorem eraseDups_map_eraseDups (f : α → β) (l : List α) :
    (l.eraseDups.map f).eraseDups = (l.map f).eraseDups := by
  induction l using List.reverseRecOn with
  | nil => rfl
  | append_singleton l a ih =>
    rw [eraseDups_concat, List.map_append, List.map_singleton, eraseDups_concat]
    split_ifs with ha hfa hfa
    · exact ih
    · exact absurd (List.mem_map_of_mem ha) hfa
    · obtain ⟨b, hb, hab⟩ := List.mem_map.mp hfa
      rw [List.map_append, List.map_singleton, eraseDups_concat, if_pos, ih]
      exact List.mem_map.mpr ⟨b, List.mem_eraseDups.mpr hb, hab⟩
    · rw [List.map_append, List.map_singleton, eraseDups_concat, if_neg, ih]
      intro hmem
      obtain ⟨b, hb, hab⟩ := List.mem_map.mp hmem
      exact hfa (List.mem_map.mpr ⟨b, List.mem_eraseDups.mp hb, hab⟩)

theorem eraseDups_map {f : α → β} (hf : Function.Injective f) (l : List α) :
    (l.map f).eraseDups = l.eraseDups.map f := by
  induction l using List.reverseRecOn with
  | nil => rfl
  | append_singleton l a ih =>
    have hmem : f a ∈ l.map f ↔ a ∈ l := List.mem_map_of_injective hf
    rw [List.map_append, List.map_singleton, eraseDups_concat, eraseDups_concat, ih]
    split_ifs with hfa ha ha
    · rfl
    · exact absurd (hmem.mp hfa) ha
    · exact absurd (hmem.mpr ha) hfa
    · rw [List.map_append, List.map_singleton]

end Distinct

/-! ### Positions -/

/-- What stands at a position after one more element. -/
theorem getElem?_concat_eq_some_iff {α : Type} {l : List α} {a b : α} {i : Nat} :
    (l ++ [a])[i]? = some b ↔ l[i]? = some b ∨ i = l.length ∧ a = b := by
  rcases Nat.lt_trichotomy i l.length with h | rfl | h
  · rw [List.getElem?_append_left h]
    simp [Nat.ne_of_lt h]
  · simp
  · have hnone : (l ++ [a])[i]? = none := List.getElem?_eq_none_iff.mpr <| by
      rw [List.length_append]
      exact h
    rw [hnone, List.getElem?_eq_none_iff.mpr (Nat.le_of_lt h)]
    simp [Nat.ne_of_gt h]

/-- Where each element has one position, none is repeated. -/
theorem nodup_of_positions {α : Type} {l : List α} (position? : α → Option Nat)
    (h : ∀ a i, position? a = some i ↔ l[i]? = some a) : l.Nodup := by
  rw [List.nodup_iff_injective_getElem]
  rintro ⟨i, hi⟩ ⟨j, hj⟩ hij
  have hfirst := (h _ _).mpr (List.getElem?_eq_getElem hi)
  have hsecond := (h _ _).mpr (List.getElem?_eq_getElem hj)
  rw [show l[i] = l[j] from hij] at hfirst
  exact Fin.ext (Option.some.inj (hfirst.symm.trans hsecond))

/-! ### Elements put in order by a key -/

/-- No other element has the key of an element. -/
theorem filter_eq_singleton {α κ : Type} [BEq κ] [LawfulBEq κ] {key : α → κ} {as : List α}
    (h : (as.map key).Nodup) {a : α} (ha : a ∈ as) : as.filter (key · == key a) = [a] := by
  induction as with
  | nil => cases ha
  | cons b bs ih =>
    obtain ⟨hb, hbs⟩ := List.nodup_cons.mp h
    rw [List.filter_cons]
    rcases List.mem_cons.mp ha with rfl | ha
    · have hrest : bs.filter (key · == key a) = [] := List.filter_eq_nil_iff.mpr fun b hb' hkey =>
        hb (List.mem_map.mpr ⟨b, hb', beq_iff_eq.mp hkey⟩)
      rw [if_pos (beq_self_eq_true _), hrest]
    · have hne : (key b == key a) = false :=
        beq_eq_false_iff_ne.mpr fun hkey => hb (List.mem_map.mpr ⟨a, ha, hkey.symm⟩)
      rw [hne, if_neg Bool.false_ne_true]
      exact ih hbs ha

section Keys

variable {α κ : Type} [BEq κ] [LawfulBEq κ] {key : α → κ} {keys : List κ} (hkeys : keys.Nodup)
include hkeys

/-- Elements put under different keys, among which theirs are, are all there. -/
theorem perm_flatMap_filter {as : List α} (h : ∀ a ∈ as, key a ∈ keys) :
    (keys.flatMap fun k => as.filter (key · == k)).Perm as := by
  induction keys generalizing as with
  | nil =>
    have hnil : as = [] := List.eq_nil_iff_forall_not_mem.mpr fun a ha => nomatch h a ha
    rw [hnil]
    exact .nil
  | cons k ks ih =>
    obtain ⟨hk, hks⟩ := List.nodup_cons.mp hkeys
    have hothers : ∀ a ∈ as.filter fun a => !(key a == k), key a ∈ ks := by
      intro a ha
      obtain ⟨ha, hne⟩ := List.mem_filter.mp ha
      exact (List.mem_cons.mp (h a ha)).resolve_left (by simpa using hne)
    have hrest : (ks.flatMap fun other => as.filter (key · == other)) =
        ks.flatMap fun other => (as.filter fun a => !(key a == k)).filter (key · == other) := by
      refine List.flatMap_congr fun other hother => ?_
      rw [List.filter_filter]
      refine List.filter_congr fun a _ => ?_
      by_cases ha : key a = other
      · have hne : key a ≠ k := fun heq => hk (heq ▸ ha ▸ hother)
        simp [ha, ha ▸ hne]
      · simp [ha]
    rw [List.flatMap_cons, hrest]
    exact ((ih hks hothers).append_left _).trans (List.filter_append_perm _ as)

variable {list : κ → List α} (hlist : ∀ k ∈ keys, ∀ a ∈ list k, key a = k)
include hlist

/-- The elements of one key are those that were put under it. -/
theorem filter_flatMap_of_mem {k : κ} (hk : k ∈ keys) :
    (keys.flatMap list).filter (key · == k) = list k := by
  induction keys with
  | nil => cases hk
  | cons k' ks ih =>
    obtain ⟨hk', hks⟩ := List.nodup_cons.mp hkeys
    have hself : ∀ a ∈ list k', key a = k' := hlist k' List.mem_cons_self
    have hothers : ∀ other ∈ ks, ∀ a ∈ list other, key a = other := fun other hother =>
      hlist other (List.mem_cons_of_mem k' hother)
    rw [List.flatMap_cons, List.filter_append]
    by_cases heq : k' = k
    · subst heq
      have hfirst : (list k').filter (key · == k') = list k' :=
        List.filter_eq_self.mpr fun a ha => beq_iff_eq.mpr (hself a ha)
      have hrest : (ks.flatMap list).filter (key · == k') = [] := by
        refine List.filter_eq_nil_iff.mpr fun a ha hkey => ?_
        obtain ⟨other, hother, ha⟩ := List.mem_flatMap.mp ha
        have heq := (hothers other hother a ha).symm.trans (beq_iff_eq.mp hkey)
        exact hk' (heq ▸ hother)
      rw [hfirst, hrest, List.append_nil]
    · have hfirst : (list k').filter (key · == k) = [] :=
        List.filter_eq_nil_iff.mpr fun a ha hkey =>
          heq ((hself a ha).symm.trans (beq_iff_eq.mp hkey))
      rw [hfirst, List.nil_append]
      exact ih hks hothers ((List.mem_cons.mp hk).resolve_left (Ne.symm heq))

/-- Where no list is empty, the keys are in their order. -/
theorem eraseDups_map_flatMap (hne : ∀ k ∈ keys, list k ≠ []) :
    ((keys.flatMap list).map key).eraseDups = keys := by
  induction keys with
  | nil => rfl
  | cons k ks ih =>
    obtain ⟨hk, hks⟩ := List.nodup_cons.mp hkeys
    have hself : ∀ a ∈ list k, key a = k := hlist k List.mem_cons_self
    have hothers : ∀ other ∈ ks, ∀ a ∈ list other, key a = other := fun other hother =>
      hlist other (List.mem_cons_of_mem k hother)
    obtain ⟨a, as, hfirst⟩ := List.exists_cons_of_ne_nil (hne k List.mem_cons_self)
    have hdups : ((list k).map key).eraseDups = [k] := by
      have hrest : (as.map key).filter (fun b => !b == key a) = [] := by
        refine List.filter_eq_nil_iff.mpr fun b hb => ?_
        obtain ⟨a', ha', rfl⟩ := List.mem_map.mp hb
        rw [hself a (hfirst ▸ List.mem_cons_self),
          hself a' (hfirst ▸ List.mem_cons_of_mem a ha')]
        simp
      rw [hfirst, List.map_cons, List.eraseDups_cons, hrest,
        hself a (hfirst ▸ List.mem_cons_self)]
      rfl
    have hkept : ((ks.flatMap list).map key).removeAll ((list k).map key) =
        (ks.flatMap list).map key := by
      refine List.filter_eq_self.mpr fun b hb => ?_
      obtain ⟨a', ha', rfl⟩ := List.mem_map.mp hb
      obtain ⟨other, hother, ha'⟩ := List.mem_flatMap.mp ha'
      have hnot : key a' ∉ (list k).map key := by
        intro hmem
        obtain ⟨b, hb, hkey⟩ := List.mem_map.mp hmem
        rw [hself b hb, hothers other hother a' ha'] at hkey
        exact hk (hkey ▸ hother)
      simpa using hnot
    rw [List.flatMap_cons, List.map_append, List.eraseDups_append, hdups, hkept,
      ih hks hothers fun other hother => hne other (List.mem_cons_of_mem k hother)]
    rfl

end Keys

end UnitLint
