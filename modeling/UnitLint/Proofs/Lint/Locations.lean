import UnitLint.Proofs.Check.Origin
import UnitLint.Proofs.Lint.Validators
import UnitLint.Proofs.Rules.Binding

/-! # Where findings point

Whatever catalog a linter is over, the findings about a parsed file point into the file: to the
first header of the unit's own group, or into the lines of one of the entries of that group; only
where the group is missing do they stand for the file as a whole
(`Linter.findings_point_into_file`). -/

namespace UnitLint

open Text Statement

namespace Linter

variable {catalog : Catalog} {linter : Linter}

/-- A unit with findings has a type, and the findings stand in the group named after it. -/
theorem isPlace_of_mem_validate (h : ofCatalog catalog = .ok linter) {c : Context} {u : UnitFile}
    {found : List Finding} (hfound : linter.validate c u = .ok found) {x : Finding}
    (hx : x ∈ found) : ∃ t, u.unitType? = some t ∧ u.IsPlace t.group x.location := by
  cases hv : linter.validatorFor? u with
  | none =>
    rw [validate_of_none hv] at hfound
    cases hfound
    cases hx
  | some v =>
    obtain ⟨t, ht, hbind⟩ := exists_table h hv
    have hwithin := (RuleTable.within_of_bind (RuleTable.within_of_mem_builtin ht) hbind).2
    rw [validate_of_some hv] at hfound
    exact ⟨v.unitType, unitType_of_validatorFor? hv,
      Validator.isPlace_of_mem_validate hwithin hfound hx⟩

/-- **Every finding points into the file.** Over any catalog that has the fields that the rules
need, a finding about a parsed file is about its own group, that of its type. If the file lacks this
group, the finding has the place of the whole file. Else its place is the start of the line of the
first header of the group, or it is on a line that the statement of an entry of the group takes up,
no further than at the end of the line. -/
theorem findings_point_into_file (h : ofCatalog catalog = .ok linter) {path : Path} {text : String}
    {u : UnitFile} (hparse : parse path text = .ok u) {c : Context} {found : List Finding}
    (hfound : linter.validate c u = .ok found) {x : Finding} (hx : x ∈ found) :
    ∃ t, u.unitType? = some t ∧ (u.group? t.group = none → x.location = ⟨0, 0⟩) ∧
      ∀ g, u.group? t.group = some g →
        (∃ s, (ofText text.toList).find? (·.statement == .header t.group.toList) = some s ∧
          x.location = ⟨s.line, 0⟩) ∨
        ∃ e ∈ g.entries, ∃ s ∈ ofText text.toList, .append e ∈ s.actions ∧
          s.Covers (lines text.toList) x.location := by
  obtain ⟨t, ht, hplace⟩ := isPlace_of_mem_validate h hfound hx
  refine ⟨t, ht, fun hnone => ?_, fun g hg => ?_⟩
  · rwa [UnitFile.IsPlace, hnone] at hplace
  · rw [UnitFile.IsPlace, hg] at hplace
    rcases hplace with hheader | ⟨e, he, hentry⟩
    · obtain ⟨s, hs, hline⟩ := exists_first_header hparse hg
      refine Or.inl ⟨s, hs, ?_⟩
      rw [hheader, Group.location, hline]
    · obtain ⟨s, hs, happend, hkey, hvalue⟩ :=
        exists_covers hparse (List.mem_of_find?_eq_some hg) he
      refine Or.inr ⟨e, he, s, hs, happend, ?_⟩
      rcases hentry with hentry | hentry
      · rwa [hentry]
      · exact hvalue _ hentry

/-- A reference on the line that continues a value. -/
theorem findings_point_into_continued_line :
    let text := "[Pod]\n\nVolume=\\\nb.volume\n"
    let v : Value := ⟨"Volume", "\\\nb.volume", ⟨3, 7⟩⟩
    let u : UnitFile := ⟨⟨"a.pod"⟩, [⟨"Pod", 1, [⟨"Volume", 0, v⟩]⟩]⟩
    let x : Finding :=
      ⟨"pod", .invalidReference, ⟨4, 0⟩, "requested volume unit b.volume was not found"⟩
    ofCatalog Catalog.builtin = .ok builtin ∧ parse ⟨"a.pod"⟩ text = .ok u ∧
      builtin.validate ⟨true, [u]⟩ u = .ok [x] ∧
      ∃ s ∈ ofText text.toList, s.Covers (lines text.toList) ⟨4, 0⟩ := by
  intro text v u x
  have hparse : parse ⟨"a.pod"⟩ text = .ok u := by decide +kernel
  have hfound : builtin.validate ⟨true, [u]⟩ u = .ok [x] := by
    rw [builtin_eq]
    decide +kernel
  refine ⟨ofCatalog_builtin, hparse, hfound, ?_⟩
  obtain ⟨t, ht, -, hgroup⟩ :=
    findings_point_into_file ofCatalog_builtin hparse hfound (List.mem_singleton.mpr rfl)
  have hpod : u.unitType? = some .pod := by decide
  obtain rfl := Option.some.inj (ht.symm.trans hpod)
  rcases hgroup _ rfl with ⟨s, hs, hline⟩ | ⟨e, -, s, hs, -, hcovers⟩
  · have hfirst : (ofText text.toList).find? (·.statement == .header "Pod".toList) =
        some ⟨1, 0, .header "Pod".toList⟩ := by decide +kernel
    obtain rfl := Option.some.inj (hs.symm.trans hfirst)
    cases hline
  · exact ⟨s, hs, hcovers⟩

end Linter

end UnitLint
