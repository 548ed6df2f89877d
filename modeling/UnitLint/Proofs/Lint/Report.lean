import Mathlib.Data.List.Induction
import Mathlib.Data.List.Lex
import Mathlib.Data.List.Nodup
import UnitLint.Lint.Linter

/-! # Reports

A report is put together from outcomes one after another. Its files ascend by their paths
(`ascending_ofOutcomes`), each path is one that some outcome was given for
(`exists_mem_of_mem_ofOutcomes`), and the outcome for a path is the last that was given for an equal
one (`file?_ofOutcomes`). -/

namespace UnitLint.Report

variable {path : Path} {outcome : FileReport} {files : List (Path × FileReport)}

/-! ### One more outcome -/

/-- The files are in the order of their paths, and no two of these are equal. -/
def Ascending (files : List (Path × FileReport)) : Prop :=
  files.Pairwise fun f g => f.1.key < g.1.key

theorem find?_put_self (path : Path) (outcome : FileReport) (files : List (Path × FileReport)) :
    ((put path outcome files).find? (·.1.key == path.key)).map (·.2) = some outcome := by
  induction files with
  | nil => simp [put]
  | cons f files ih =>
    rw [put]
    split_ifs with heq hlt
    · rw [beq_iff_eq] at heq
      simp [heq]
    · simp
    · rw [List.find?_cons_of_neg (by rwa [beq_iff_eq, eq_comm, ← beq_iff_eq])]
      exact ih

theorem find?_put_of_ne {key : List (List Nat)} (h : path.key ≠ key) (outcome : FileReport)
    (files : List (Path × FileReport)) :
    ((put path outcome files).find? (·.1.key == key)).map (·.2) =
      (files.find? (·.1.key == key)).map (·.2) := by
  induction files with
  | nil => simp [put, h]
  | cons f files ih =>
    rw [put]
    split_ifs with heq hlt
    · rw [beq_iff_eq] at heq
      have hf : (f.1.key == key) = false := by rwa [beq_eq_false_iff_ne, ← heq]
      rw [List.find?_cons, List.find?_cons, hf]
    · rw [List.find?_cons_of_neg (by simpa using h)]
    · rw [List.find?_cons, List.find?_cons]
      cases f.1.key == key with
      | true => rfl
      | false => exact ih

/-- The path of a file is the one that is put, or was there before. -/
theorem path_of_mem_put {f : Path × FileReport} (h : f ∈ put path outcome files) :
    f.1 = path ∨ ∃ g ∈ files, g.1 = f.1 := by
  induction files with
  | nil =>
    obtain rfl := List.mem_singleton.mp h
    exact Or.inl rfl
  | cons g files ih =>
    rw [put] at h
    split_ifs at h with heq hlt
    · rcases List.mem_cons.mp h with rfl | h
      · exact Or.inr ⟨g, List.mem_cons_self, rfl⟩
      · exact Or.inr ⟨f, List.mem_cons_of_mem g h, rfl⟩
    · rcases List.mem_cons.mp h with rfl | h
      · exact Or.inl rfl
      · exact Or.inr ⟨f, h, rfl⟩
    · rcases List.mem_cons.mp h with rfl | h
      · exact Or.inr ⟨f, List.mem_cons_self, rfl⟩
      · rcases ih h with h | ⟨g', hg', h⟩
        · exact Or.inl h
        · exact Or.inr ⟨g', List.mem_cons_of_mem g hg', h⟩

theorem ascending_put (path : Path) (outcome : FileReport) (h : Ascending files) :
    Ascending (put path outcome files) := by
  induction files with
  | nil => exact List.pairwise_singleton _ _
  | cons f files ih =>
    obtain ⟨hf, hfiles⟩ := List.pairwise_cons.mp h
    rw [put]
    split_ifs with heq hlt
    · exact List.pairwise_cons.mpr ⟨hf, hfiles⟩
    · refine List.pairwise_cons.mpr ⟨fun g hg => ?_, h⟩
      rcases List.mem_cons.mp hg with rfl | hg
      · exact hlt
      · exact lt_trans hlt (hf g hg)
    · have hgt : f.1.key < path.key := by
        rw [beq_iff_eq] at heq
        exact lt_of_le_of_ne (not_lt.mp hlt) (Ne.symm heq)
      refine List.pairwise_cons.mpr ⟨fun g hg => ?_, ih hfiles⟩
      rcases path_of_mem_put hg with hpath | ⟨g', hg', hpath⟩
      · rwa [hpath]
      · rw [← hpath]
        exact hf g' hg'

/-! ### All outcomes -/

theorem ofOutcomes_concat (outcomes : List (Path × FileReport)) (o : Path × FileReport) :
    ofOutcomes (outcomes ++ [o]) = ⟨put o.1 o.2 (ofOutcomes outcomes).files⟩ := by
  unfold ofOutcomes
  rw [List.foldl_concat]

theorem ascending_ofOutcomes (outcomes : List (Path × FileReport)) :
    Ascending (ofOutcomes outcomes).files := by
  induction outcomes using List.reverseRecOn with
  | nil => exact List.Pairwise.nil
  | append_singleton outcomes o ih =>
    rw [ofOutcomes_concat]
    exact ascending_put o.1 o.2 ih

/-- **A path has the last outcome** that was given for an equal one. -/
theorem file?_ofOutcomes (outcomes : List (Path × FileReport)) (path : Path) :
    (ofOutcomes outcomes).file? path =
      ((outcomes.filter (·.1.key == path.key)).getLast?).map (·.2) := by
  induction outcomes using List.reverseRecOn with
  | nil => rfl
  | append_singleton outcomes o ih =>
    rw [ofOutcomes_concat, List.filter_append, List.getLast?_append]
    unfold file? at ih ⊢
    by_cases h : o.1.key = path.key
    · rw [← h, find?_put_self]
      simp
    · rw [find?_put_of_ne h, ih, List.filter_cons_of_neg (by simpa using h)]
      rfl

theorem exists_mem_of_mem_ofOutcomes {outcomes : List (Path × FileReport)}
    {f : Path × FileReport} (h : f ∈ (ofOutcomes outcomes).files) : ∃ o ∈ outcomes, o.1 = f.1 := by
  induction outcomes using List.reverseRecOn generalizing f with
  | nil => cases h
  | append_singleton outcomes o ih =>
    rw [ofOutcomes_concat] at h
    rcases path_of_mem_put h with hpath | ⟨g, hg, hpath⟩
    · exact ⟨o, by simp, hpath.symm⟩
    · obtain ⟨o', ho', hpath'⟩ := ih hg
      exact ⟨o', List.mem_append_left [o] ho', hpath'.trans hpath⟩

/-! ### Files and paths -/

theorem Ascending.nodup (h : Ascending files) : (files.map (·.1.key)).Nodup :=
  List.pairwise_map.mpr (h.imp fun hlt => ne_of_lt hlt)

/-- Files that ascend are known from which files there are. -/
theorem Ascending.eq_of_mem_iff {files' : List (Path × FileReport)} (h : Ascending files)
    (h' : Ascending files') (hmem : ∀ f, f ∈ files ↔ f ∈ files') : files = files' := by
  have hperm : files.Perm files' :=
    (List.perm_ext_iff_of_nodup h.nodup.of_map h'.nodup.of_map).mpr hmem
  exact hperm.eq_of_pairwise (fun f g _ _ hfg hgf => absurd hfg (lt_asymm hgf)) h h'

theorem file?_eq_some_iff {r : Report} (h : Ascending r.files) {path : Path}
    {outcome : FileReport} :
    r.file? path = some outcome ↔ ∃ f ∈ r.files, f.1.key = path.key ∧ f.2 = outcome := by
  unfold file?
  rw [Option.map_eq_some_iff]
  constructor
  · rintro ⟨f, hf, rfl⟩
    exact ⟨f, List.mem_of_find?_eq_some hf, by simpa using List.find?_some hf, rfl⟩
  · rintro ⟨f, hf, hkey, rfl⟩
    have hsome : (r.files.find? (·.1.key == path.key)).isSome = true := by
      rw [List.find?_isSome]
      exact ⟨f, hf, by rwa [beq_iff_eq]⟩
    obtain ⟨g, hg⟩ := Option.isSome_iff_exists.mp hsome
    have hgkey : g.1.key = path.key := by simpa using List.find?_some hg
    have hmem := List.mem_of_find?_eq_some hg
    obtain rfl := List.inj_on_of_nodup_map h.nodup hmem hf (hgkey.trans hkey.symm)
    exact ⟨g, hg, rfl⟩

end UnitLint.Report
