import UnitLint.Proofs.Check.References
import UnitLint.Proofs.Lint.Outcome

/-! # References in a run

A run reports a reference to a unit exactly if no unit of the run has the name, once and at its
place. More sources with other paths take findings on references away, those that name a unit among
them, and change nothing else (`Linter.reference_findings`). -/

namespace UnitLint

/-! ### Tables -/

namespace RuleTable

variable {catalog : Catalog} {t : RuleTable} {v : Validator}

theorem separate_of_bind (ht : ∀ entry ∈ t.entries, ∀ r ∈ entry.2, r.Separate)
    (h : t.bind catalog = .ok v) : v.Separate := by
  intro f hf r hr
  rcases (builds_of_bind h).rules f hf r hr with ⟨entry, hentry, -, r', hr', hbind⟩ | htype
  · obtain ⟨hcategory, htypes⟩ := Rule.category_of_bindFields hbind
    unfold Rule.Separate
    rw [hcategory, htypes]
    exact ht entry hentry r' hr'
  · rcases eq_of_typeRule? htype with rfl | rfl <;> exact nofun

theorem separate_of_mem_builtin :
    ∀ t ∈ builtin, ∀ entry ∈ t.entries, ∀ r ∈ entry.2, r.Separate := by decide

end RuleTable

/-! ### Contexts -/

/-- What a context with more units leaves. -/
theorem Context.leaves_iff {checkReferences : Bool} {us us' more : List UnitFile}
    (hunits : ∀ u, u ∈ us' ↔ u ∈ us ∨ u ∈ more) {f : Finding} :
    Leaves ⟨checkReferences, us'⟩ f ↔
      (∀ u ∈ more, ¬ f.Misses u.fileName) ∧ Leaves ⟨checkReferences, us⟩ f := by
  constructor
  · intro h
    refine ⟨fun u hu hmisses => ?_, fun hcategory => ?_⟩
    · exact (h hmisses.1).2 u ((hunits u).mpr (Or.inr hu)) hmisses
    · obtain ⟨hrefs, hnone⟩ := h hcategory
      exact ⟨hrefs, fun u hu => hnone u ((hunits u).mpr (Or.inl hu))⟩
  · rintro ⟨hmore, h⟩ hcategory
    obtain ⟨hrefs, hnone⟩ := h hcategory
    exact ⟨hrefs, fun u hu => ((hunits u).mp hu).elim (hnone u) (hmore u)⟩

namespace Linter

variable {catalog : Catalog} {linter : Linter} {c : Context} {u : UnitFile}

/-! ### Units -/

theorem separate_of_validatorFor? (h : ofCatalog catalog = .ok linter) {v : Validator}
    (hv : linter.validatorFor? u = some v) : v.Separate := by
  obtain ⟨t, ht, hbind⟩ := exists_table h hv
  exact RuleTable.separate_of_bind (RuleTable.separate_of_mem_builtin t ht) hbind

/-- The references in a unit: the values of the fields under rules on references. -/
def references (linter : Linter) (u : UnitFile) : List Reference :=
  ((linter.validatorFor? u).map (·.references u)).getD []

theorem filter_validate (h : ofCatalog catalog = .ok linter) {found : List Finding}
    (hfound : linter.validate c u = .ok found) :
    found.filter (·.category == .invalidReference) =
      (((linter.references u).filter (·.Dangling c)).map Reference.finding).mergeSort fun a b =>
        a.location.before b.location := by
  unfold references
  cases hv : linter.validatorFor? u with
  | none =>
    rw [validate_of_none hv] at hfound
    cases hfound
    simp
  | some v =>
    rw [validate_of_some hv] at hfound
    exact v.filter_validate (separate_of_validatorFor? h hv) hfound

/-- **More units** take findings away that name one of them. -/
theorem validate_more (h : ofCatalog catalog = .ok linter) {checkReferences : Bool}
    {us us' more : List UnitFile} (hunits : ∀ u, u ∈ us' ↔ u ∈ us ∨ u ∈ more) (u : UnitFile) :
    linter.validate ⟨checkReferences, us'⟩ u = (linter.validate ⟨checkReferences, us⟩ u).map
      (·.filter fun f => ∀ u ∈ more, ¬ f.Misses u.fileName) := by
  cases hv : linter.validatorFor? u with
  | none =>
    rw [validate_of_none hv, validate_of_none hv]
    rfl
  | some v =>
    have hseparate := separate_of_validatorFor? h hv
    rw [validate_of_some hv, validate_of_some hv, v.validate_eq_filter hseparate,
      v.validate_eq_filter hseparate (c := ⟨checkReferences, us⟩)]
    cases v.validate .bare u with
    | error e => rfl
    | ok found =>
      refine congrArg Except.ok ?_
      dsimp only
      rw [List.filter_filter]
      refine List.filter_congr fun f _ => ?_
      rw [← Bool.decide_and]
      exact decide_eq_decide.mpr (Context.leaves_iff hunits)

/-! ### Runs -/

theorem settle_more (h : ofCatalog catalog = .ok linter) {checkReferences : Bool}
    {us us' more : List UnitFile} (hunits : ∀ u, u ∈ us' ↔ u ∈ us ∨ u ∈ more) (s : Source) :
    linter.settle ⟨checkReferences, us'⟩ s = (linter.settle ⟨checkReferences, us⟩ s).map fun r =>
      ⟨r.parseErrors, r.findings.filter fun f => ∀ u ∈ more, ¬ f.Misses u.fileName⟩ := by
  unfold settle
  cases parse s.path s.text with
  | error errors => rfl
  | ok u =>
    dsimp only
    rw [validate_more h hunits]
    cases linter.validate ⟨checkReferences, us⟩ u <;> rfl

theorem file?_of_alike {checkReferences : Bool} {sources : List Source} {report : Report}
    (h : linter.lint checkReferences sources = .ok report) {s : Source}
    (hs : alike s.path sources = [s]) : ∃ r, report.file? s.path = some r ∧
      linter.settle ⟨checkReferences, units sources⟩ s = .ok r := by
  obtain ⟨r, hr, hsettles⟩ := settles_file? h (by rw [hs]; exact List.cons_ne_nil s [])
  rw [hs, settles_singleton_iff] at hsettles
  exact ⟨r, hr, hsettles⟩

section More

variable {sources more all : List Source} (hall : all.Perm (sources ++ more))
include hall

theorem mem_units_of_perm (u : UnitFile) : u ∈ units all ↔ u ∈ units sources ∨ u ∈ units more := by
  have hunits : (units all).Perm (units (sources ++ more)) := hall.filterMap _
  rw [hunits.mem_iff, units, List.filterMap_append, List.mem_append]
  rfl

theorem alike_of_perm (hne : (sources.map (·.path.key)).Nodup)
    (hmore : ∀ s ∈ sources, ∀ t ∈ more, t.path.key ≠ s.path.key) {s : Source} (hs : s ∈ sources) :
    alike s.path all = [s] := by
  have hperm : (alike s.path all).Perm (alike s.path (sources ++ more)) := hall.filter _
  have hnone : alike s.path more = [] :=
    List.filter_eq_nil_iff.mpr fun t ht => by simpa using hmore s hs t ht
  have happend : alike s.path (sources ++ more) = alike s.path sources ++ alike s.path more :=
    List.filter_append ..
  rw [happend, alike_eq_singleton hne hs, hnone] at hperm
  exact List.perm_singleton.mp hperm

/-- A run on more sources gives a report only if the one on fewer does. -/
theorem exists_lint_of_more (h : ofCatalog catalog = .ok linter) {checkReferences : Bool}
    (hreport : ∃ report, linter.lint checkReferences all = .ok report) :
    ∃ report, linter.lint checkReferences sources = .ok report := by
  rw [exists_lint_iff] at hreport ⊢
  intro u hu
  obtain ⟨found, hfound⟩ := hreport u ((mem_units_of_perm hall u).mpr (Or.inl hu))
  rw [validate_more h (mem_units_of_perm hall)] at hfound
  cases hless : linter.validate ⟨checkReferences, units sources⟩ u with
  | error e =>
    rw [hless] at hfound
    cases hfound
  | ok found => exact ⟨found, rfl⟩

end More

/-- **References.** Over a catalog that has every field that the rules need, what is found about
references in a unit is about those that name a unit that the context does not have, once for each,
in the order of their places; it misses what the reference names. A run on more sources, with other
paths than the pairwise unequal ones of the first, gives each of these the outcome that it had,
without the findings that miss a unit among the further sources. -/
theorem reference_findings (h : ofCatalog catalog = .ok linter) :
    (∀ (c : Context) (u : UnitFile) (found : List Finding), linter.validate c u = .ok found →
      found.filter (·.category == .invalidReference) =
        (((linter.references u).filter (·.Dangling c)).map Reference.finding).mergeSort fun a b =>
          a.location.before b.location) ∧
    (∀ (c : Context) (r : Reference), r.Dangling c →
      ∀ name, r.finding.Misses name ↔ name = r.target) ∧
    ∀ (checkReferences : Bool) (sources more all : List Source),
      (sources.map (·.path.key)).Nodup →
      (∀ s ∈ sources, ∀ t ∈ more, t.path.key ≠ s.path.key) → all.Perm (sources ++ more) →
      ∀ report', linter.lint checkReferences all = .ok report' →
        ∃ report, linter.lint checkReferences sources = .ok report ∧
          ∀ s ∈ sources, ∃ r, report.file? s.path = some r ∧
            report'.file? s.path = some ⟨r.parseErrors,
              r.findings.filter fun f => ∀ u ∈ units more, ¬ f.Misses u.fileName⟩ := by
  refine ⟨fun c u found => filter_validate h, fun c r hr name => ?target, ?more⟩
  case target =>
    exact Reference.misses_finding_iff hr.2.1
  case more =>
    intro checkReferences sources more all hne hmore hall report' hreport'
    obtain ⟨report, hreport⟩ := exists_lint_of_more hall h ⟨report', hreport'⟩
    refine ⟨report, hreport, fun s hs => ?_⟩
    obtain ⟨r, hr, hsettle⟩ := file?_of_alike hreport (alike_eq_singleton hne hs)
    obtain ⟨r', hr', hsettle'⟩ := file?_of_alike hreport' (alike_of_perm hall hne hmore hs)
    rw [settle_more h (mem_units_of_perm hall), hsettle] at hsettle'
    cases hsettle'
    exact ⟨r, hr, hr'⟩

/-- Two units with a reference each, and then also a volume for the one, and a file for the other
that does not parse. -/
theorem reference_findings_volume :
    let pod : Source := ⟨⟨"x/a.pod"⟩, "[Pod]
Volume=b.volume:/data
"⟩
    let kube : Source := ⟨⟨"d.kube"⟩, "[Kube]
Yaml=d.yaml
Network=c.network
"⟩
    let volume : Source := ⟨⟨"y/b.volume"⟩, "[Volume]
"⟩
    let network : Source := ⟨⟨"c.network"⟩, "[Network
"⟩
    let noVolume : Finding :=
      ⟨"pod", .invalidReference, ⟨2, 7⟩, "requested volume unit b.volume was not found"⟩
    let noNetwork : Finding :=
      ⟨"kube", .invalidReference, ⟨3, 8⟩, "requested network unit c.network was not found"⟩
    builtin.lint true [pod, kube] =
        .ok ⟨[(kube.path, ⟨[], [noNetwork]⟩), (pod.path, ⟨[], [noVolume]⟩)]⟩ ∧
      ∃ report, builtin.lint true [volume, pod, kube, network] = .ok report ∧
        report.file? pod.path = some ⟨[], []⟩ ∧ report.file? kube.path = some ⟨[], [noNetwork]⟩ := by
  intro pod kube volume network noVolume noNetwork
  have hfew : builtin.lint true [pod, kube] =
      .ok ⟨[(kube.path, ⟨[], [noNetwork]⟩), (pod.path, ⟨[], [noVolume]⟩)]⟩ := by
    rw [builtin_eq]
    decide +kernel
  have hsome : (builtin.lint true [volume, pod, kube, network]).toOption.isSome = true := by
    rw [builtin_eq]
    decide +kernel
  obtain ⟨report', hall⟩ := exists_of_isSome hsome
  obtain ⟨report, hreport, hfiles⟩ := (reference_findings ofCatalog_builtin).2.2 true [pod, kube]
    [volume, network] _ (by decide) (by decide) (by decide) _ hall
  obtain rfl := Except.ok.inj (hfew.symm.trans hreport)
  obtain ⟨r, hr, hpod⟩ := hfiles pod (by decide)
  obtain ⟨r', hr', hkube⟩ := hfiles kube (by decide)
  obtain rfl : ⟨[], [noVolume]⟩ = r := Option.some.inj (Eq.trans (by decide) hr)
  obtain rfl : ⟨[], [noNetwork]⟩ = r' := Option.some.inj (Eq.trans (by decide) hr')
  have hunits : units [volume, network] = [⟨volume.path, [⟨"Volume", 1, []⟩]⟩] := by
    decide +kernel
  rw [hunits] at hpod hkube
  exact ⟨hfew, report', hall, hpod.trans (by decide), hkube.trans (by decide)⟩

end Linter

end UnitLint
