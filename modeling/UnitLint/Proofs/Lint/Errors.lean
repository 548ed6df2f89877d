import Mathlib.Algebra.GroupWithZero.Nat
import UnitLint.Proofs.Lint.Outcome
import UnitLint.Proofs.Path

/-! # Files with errors

A file has errors if it has syntax errors or findings that are more than warnings, and its category
alone says what a finding is. The counts of a report are those of its files (`Report.summary_eq`),
so a report has blocking errors just if one of its files has errors
(`Report.hasBlockingErrors_iff`). The files of a report are those of its sources
(`Linter.exists_file_iff`); where sources with equal paths have the same text, each source comes to
what it comes to on its own (`Linter.settles_alike_iff`). -/

namespace UnitLint

/-! ### Counts -/

namespace FileReport

/-- Whether something about the file is more than a warning. -/
def HasErrors (r : FileReport) : Prop :=
  r.parseErrors ≠ [] ∨ ∃ f ∈ r.findings, f.category ≠ .ambiguousImageName

/-- How many syntax errors and error findings the file has. -/
def errorCount (r : FileReport) : Nat :=
  r.parseErrors.length + r.findings.countP (·.category ≠ .ambiguousImageName)

/-- How many warnings the file has. -/
def warningCount (r : FileReport) : Nat := r.findings.countP (·.category = .ambiguousImageName)

theorem errorCount_pos_iff {r : FileReport} : 0 < r.errorCount ↔ r.HasErrors := by
  unfold errorCount HasErrors
  rw [Nat.add_pos_iff_pos_or_pos, List.length_pos_iff, List.countP_pos_iff]
  simp only [decide_eq_true_eq]

end FileReport

/-- Only an ambiguous image name is a warning. -/
theorem Finding.severity_eq_error_iff {f : Finding} :
    f.severity = .error ↔ f.category ≠ .ambiguousImageName := by
  unfold severity
  cases f.category <;> simp [Category.severity]

theorem Finding.severity_eq_warning_iff {f : Finding} :
    f.severity = .warning ↔ f.category = .ambiguousImageName := by
  unfold severity
  cases f.category <;> simp [Category.severity]

namespace Report

/-- **The counts of a report** are the sums of those of its files. -/
theorem summary_eq (r : Report) : r.summary.errors = (r.files.map (·.2.errorCount)).sum ∧
    r.summary.warnings = (r.files.map (·.2.warningCount)).sum := by
  have herror : (fun f : Finding => f.severity == .error) =
      fun f => decide (f.category ≠ .ambiguousImageName) := by
    funext f
    rw [Bool.eq_iff_iff, beq_iff_eq, decide_eq_true_eq, Finding.severity_eq_error_iff]
  have hwarning : (fun f : Finding => f.severity == .warning) =
      fun f => decide (f.category = .ambiguousImageName) := by
    funext f
    rw [Bool.eq_iff_iff, beq_iff_eq, decide_eq_true_eq, Finding.severity_eq_warning_iff]
  obtain ⟨files⟩ := r
  unfold summary count
  rw [herror, hwarning]
  dsimp only
  induction files with
  | nil => exact ⟨rfl, rfl⟩
  | cons f files ih =>
    obtain ⟨herrors, hwarnings⟩ := ih
    simp only [List.flatMap_cons, List.length_append, List.countP_append, List.map_cons,
      List.sum_cons]
    constructor
    · rw [← herrors, FileReport.errorCount]
      omega
    · rw [← hwarnings, FileReport.warningCount]

/-- **A report has blocking errors** just if one of its files has errors. -/
theorem hasBlockingErrors_iff {r : Report} :
    r.summary.hasBlockingErrors = true ↔ ∃ f ∈ r.files, f.2.HasErrors := by
  rw [Summary.hasBlockingErrors, decide_eq_true_eq, r.summary_eq.1, List.sum_pos_iff_exists_pos_nat]
  simp only [List.mem_map, ← FileReport.errorCount_pos_iff]
  constructor
  · rintro ⟨_, ⟨f, hf, rfl⟩, hpos⟩
    exact ⟨f, hf, hpos⟩
  · rintro ⟨f, hf, hpos⟩
    exact ⟨_, ⟨f, hf, rfl⟩, hpos⟩

end Report

/-! ### Files and sources -/

namespace Linter

variable {linter : Linter} {context : Context} {checkReferences : Bool} {sources : List Source}
  {report : Report}

theorem Settles.unique {ss : List Source} {r r' : FileReport} (h : Settles linter context ss r)
    (h' : Settles linter context ss r') : r = r' := by
  obtain ⟨errors, findings⟩ := r
  obtain ⟨errors', findings'⟩ := r'
  unfold Settles at h h'
  split at h
  · rename_i u hu
    rw [hu] at h'
    obtain ⟨rfl, h⟩ := h
    obtain ⟨rfl, h'⟩ := h'
    rw [h] at h'
    obtain rfl := Except.ok.inj h'
    rfl
  · rename_i hnone
    rw [hnone] at h'
    obtain ⟨rfl, s, hs, h⟩ := h
    obtain ⟨rfl, s', hs', h'⟩ := h'
    obtain rfl := Option.some.inj (hs.symm.trans hs')
    rw [h] at h'
    obtain rfl := Except.error.inj h'
    rfl

/-- **A report has the files of its sources**: what holds of one of them holds of what the sources
alike come to. -/
theorem exists_file_iff (h : linter.lint checkReferences sources = .ok report)
    (p : FileReport → Prop) : (∃ f ∈ report.files, p f.2) ↔ ∃ s ∈ sources, ∃ r,
      Settles linter ⟨checkReferences, units sources⟩ (alike s.path sources) r ∧ p r := by
  constructor
  · rintro ⟨f, hf, hp⟩
    obtain ⟨s, hs, hpath⟩ := exists_source_of_mem h hf
    have hsettles := settles_of_mem h hf
    rw [← hpath] at hsettles
    exact ⟨s, hs, f.2, hsettles, hp⟩
  · rintro ⟨s, hs, r, hsettles, hp⟩
    have hmem : s ∈ alike s.path sources := mem_alike.mpr ⟨hs, rfl⟩
    obtain ⟨r', hr', hsettles'⟩ := settles_file? h (List.ne_nil_of_mem hmem)
    obtain rfl := hsettles.unique hsettles'
    obtain ⟨f, hf, -, rfl⟩ := (Report.file?_eq_some_iff (ascending_of_lint h)).mp hr'
    exact ⟨f, hf, hp⟩

/-! ### Sources with equal texts -/

/-- Sources with equal paths have the same text. -/
def Coherent (sources : List Source) : Prop :=
  ∀ s ∈ sources, ∀ t ∈ sources, s.path.key = t.path.key → s.text = t.text

/-- A text parses at every path or at none. -/
theorem parse_congr {path path' : Path} {text : String} :
    (∀ u, parse path text = .ok u → parse path' text = .ok ⟨path', u.groups⟩) ∧
      ∀ errors, parse path text = .error errors → parse path' text = .error errors := by
  refine ⟨fun u h => ?_, fun errors h => ?_⟩
  · obtain ⟨hnone, rfl⟩ := parse_eq_ok_iff.mp h
    rw [syntaxErrors_congr path path'] at hnone
    exact parse_eq_ok_iff.mpr ⟨hnone, rfl⟩
  · rw [parse_eq_error_iff, syntaxErrors_congr path path'] at h
    exact parse_eq_error_iff.mpr h

/-- **Each source comes to what it comes to on its own**, where equal paths have equal texts. -/
theorem settles_alike_iff {catalog : Catalog} (hlinter : ofCatalog catalog = .ok linter)
    (hcoherent : Coherent sources) {s : Source} (hs : s ∈ sources) {r : FileReport} :
    Settles linter context (alike s.path sources) r ↔ linter.settle context s = .ok r := by
  have hmem : s ∈ alike s.path sources := mem_alike.mpr ⟨hs, rfl⟩
  have hsame : ∀ t ∈ alike s.path sources, t.path.key = s.path.key ∧ t.text = s.text := by
    intro t ht
    obtain ⟨ht, hkey⟩ := mem_alike.mp ht
    exact ⟨hkey, hcoherent t ht s hs hkey⟩
  rw [← settles_singleton_iff]
  unfold Settles
  cases hparse : parse s.path s.text with
  | ok u =>
    -- The last unit has the groups of the source, at an equal path.
    have hunit : u ∈ units (alike s.path sources) :=
      List.mem_filterMap.mpr ⟨s, hmem, by rw [hparse]; rfl⟩
    have hlast := List.getLast?_eq_getLast_of_ne_nil (List.ne_nil_of_mem hunit)
    obtain ⟨t, ht, hu⟩ := List.mem_filterMap.mp (List.getLast_mem (List.ne_nil_of_mem hunit))
    obtain ⟨hkey, htext⟩ := hsame t ht
    rw [htext, parse_congr.1 u hparse] at hu
    have hu := Option.some.inj hu
    have htype : UnitType.ofPath? t.path = UnitType.ofPath? u.path := by
      rw [path_of_parse hparse]
      exact UnitType.ofPath?_congr (Path.fileName?_eq_of_key_eq hkey)
    have hvalidate : linter.validate context ⟨t.path, u.groups⟩ = linter.validate context u :=
      validate_congr hlinter htype (fun _ _ => rfl) (.refl context)
    have hsingle : (units [s]).getLast? = some u := by
      simp [units, hparse, Except.toOption]
    rw [hlast, ← hu, hsingle]
    dsimp only
    rw [hvalidate]
  | error errors =>
    have hfails : ∀ t ∈ alike s.path sources, parse t.path t.text = .error errors := by
      intro t ht
      rw [(hsame t ht).2]
      exact parse_congr.2 errors hparse
    have hnone : ∀ ss : List Source, (∀ t ∈ ss, parse t.path t.text = .error errors) →
        (units ss).getLast? = none := by
      intro ss hss
      rw [List.getLast?_eq_none_iff]
      exact List.filterMap_eq_nil_iff.mpr fun t ht => by rw [hss t ht]; rfl
    have hsingle : ∀ t ∈ [s], parse t.path t.text = .error errors := by
      intro t ht
      rwa [List.mem_singleton.mp ht]
    have hlast := List.getLast?_eq_getLast_of_ne_nil (List.ne_nil_of_mem hmem)
    have hparse' := hfails _ (List.getLast_mem (List.ne_nil_of_mem hmem))
    rw [hnone _ hfails, hnone _ hsingle, hlast]
    simp only [Option.mem_def, Option.some.injEq, exists_eq_left', List.getLast?_singleton, hparse,
      hparse']

end Linter

end UnitLint
