import UnitLint.Proofs.Check.Newline
import UnitLint.Proofs.Check.References
import UnitLint.Proofs.Lint.Outcome

/-! # Findings of one line

The built-in rules quote values only of fields that are looked up spliced, and the fixed texts that
they hold have no line feed (`Linter.plain_of_mem_builtin`). So the built-in linter has a message
with a line feed just for each last value of an integer field that is no integer and goes on over
lines (`Linter.newline_mem_iff`). -/

namespace UnitLint

instance (v : Validator) : Decidable v.Plain :=
  decidable_of_iff ((∀ f ∈ v.fields, '\n' ∉ f.field.key.toList) ∧
    (∀ f ∈ v.fields, ∀ r ∈ f.rules, ∀ s ∈ r.wordings, '\n' ∉ s.toList) ∧
    (∀ f ∈ v.fields, ∀ r ∈ f.rules, r.quotesValues = true → f.field.mode.isSpliced = true) ∧
    ∀ f ∈ v.fields, .validInteger ∈ f.rules ↔ f.field.mode = .int)
    ⟨fun ⟨keys, wordings, quoted, integers⟩ => ⟨keys, wordings, quoted, integers⟩,
      fun h => ⟨h.keys, h.wordings, h.quoted, h.integers⟩⟩

namespace Linter

theorem plain_of_mem_builtin :
    ∀ v ∈ builtin.validators, v.Plain ∧ v.name = v.unitType.name := by
  rw [builtin_eq]
  decide

/-- The built-in linter has a validator for every type. -/
theorem exists_validatorFor? {u : UnitFile} {t : UnitType} (h : u.unitType? = some t) :
    ∃ v, builtin.validatorFor? u = some v := by
  have htables : ∀ t ∈ UnitType.all, ∃ table ∈ RuleTable.builtin, table.unitType = t := by decide
  obtain ⟨table, htable, rfl⟩ := htables t t.mem_all
  have hbound := mapM_bind ofCatalog_builtin
  obtain ⟨v, hbind⟩ := exists_mapM_iff.mp ⟨_, hbound⟩ table htable
  have hv : v ∈ builtin.validators := (mem_iff_of_mapM hbound).mpr ⟨table, htable, hbind⟩
  have htype := (RuleTable.builds_of_bind hbind).unitType
  cases hfind : builtin.validators.find? (·.unitType == table.unitType) with
  | none => exact absurd (beq_iff_eq.mpr htype) (List.find?_eq_none.mp hfind v hv)
  | some w => exact ⟨w, Option.bind_eq_some_iff.mpr ⟨table.unitType, h, hfind⟩⟩

/-- What the built-in linter has for a unit: a validator named after the type of the unit, with the
fields that the catalog has for it. -/
theorem builtin_of_validatorFor? {u : UnitFile} {v : Validator}
    (h : builtin.validatorFor? u = some v) : v.Plain ∧ u.unitType? = some v.unitType ∧
      v.name = v.unitType.name ∧
        v.fields.map (·.field) = Catalog.builtin.groupFields v.unitType.group := by
  obtain ⟨hplain, hname⟩ := plain_of_mem_builtin v (mem_of_validatorFor? h)
  obtain ⟨table, -, hbind⟩ := exists_table ofCatalog_builtin h
  have hbuilds := RuleTable.builds_of_bind hbind
  refine ⟨hplain, unitType_of_validatorFor? h, hname, ?_⟩
  rw [hbuilds.fields, hbuilds.unitType]

/-- Findings of the built-in linter are named after unit types. -/
theorem newline_notMem_validator {u : UnitFile} {context : Context} {found : List Finding}
    (h : builtin.validate context u = .ok found) {x : Finding} (hx : x ∈ found) :
    '\n' ∉ x.validator.toList := by
  cases hv : builtin.validatorFor? u with
  | none =>
    rw [validate_of_none hv] at h
    cases h
    cases hx
  | some v =>
    obtain ⟨-, -, hname, -⟩ := builtin_of_validatorFor? hv
    rw [validate_of_some hv] at h
    rw [Validator.validator_of_mem_validate h hx, hname]
    exact v.unitType.newline_notMem_name

/-- **Only integers break lines.** The findings of the built-in linter about a parsed file whose
messages have line feeds are those about the broken integers of the file. -/
theorem newline_mem_iff {path : Path} {text : String} {u : UnitFile}
    (hparse : parse path text = .ok u) {context : Context} {found : List Finding}
    (h : builtin.validate context u = .ok found) {x : Finding} :
    x ∈ found ∧ '\n' ∈ x.message.toList ↔ ∃ t f o, u.unitType? = some t ∧
      f ∈ Catalog.builtin.groupFields t.group ∧ u.BrokenInteger f o ∧
        x = .noInteger t.name f.key o := by
  cases hv : builtin.validatorFor? u with
  | none =>
    rw [validate_of_none hv] at h
    cases h
    refine iff_of_false (fun hx => List.not_mem_nil hx.1) ?_
    rintro ⟨t, -, -, ht, -⟩
    obtain ⟨v, hsome⟩ := exists_validatorFor? ht
    rw [hv] at hsome
    cases hsome
  | some v =>
    obtain ⟨hplain, htype, hname, hfields⟩ := builtin_of_validatorFor? hv
    rw [validate_of_some hv] at h
    rw [Validator.newline_mem_iff hparse hplain h]
    constructor
    · rintro ⟨f, hf, o, hbroken, rfl⟩
      refine ⟨v.unitType, f.field, o, htype, ?_, hbroken, by rw [hname]⟩
      rw [← hfields]
      exact List.mem_map_of_mem hf
    · rintro ⟨t, field, o, ht, hfield, hbroken, rfl⟩
      obtain rfl := Option.some.inj (htype.symm.trans ht)
      rw [← hfields] at hfield
      obtain ⟨f, hf, rfl⟩ := List.mem_map.mp hfield
      exact ⟨f, hf, o, hbroken, by rw [hname]⟩

/-! ### Reports -/

section Report

variable {checkReferences : Bool} {sources : List Source} {report : Report}
  {f : Path × FileReport}

/-- A file of a report is a unit with its findings, or it does not parse. -/
theorem file_cases {linter : Linter} (h : linter.lint checkReferences sources = .ok report)
    (hf : f ∈ report.files) :
    (∃ u path text, (units (alike f.1 sources)).getLast? = some u ∧ parse path text = .ok u ∧
      f.2.parseErrors = [] ∧
        linter.validate ⟨checkReferences, units sources⟩ u = .ok f.2.findings) ∨
    (units (alike f.1 sources)).getLast? = none ∧ f.2.findings = [] ∧
      ∃ path text, parse path text = .error f.2.parseErrors := by
  have hsettles := settles_of_mem h hf
  unfold Settles at hsettles
  split at hsettles
  · rename_i u hlast
    obtain ⟨s, -, hs⟩ := List.mem_filterMap.mp (List.mem_of_getLast? hlast)
    obtain ⟨u', hu⟩ := exists_of_isSome (x := parse s.path s.text) (by rw [hs]; rfl)
    rw [hu] at hs
    obtain rfl := Option.some.inj hs
    exact Or.inl ⟨u', s.path, s.text, hlast, hu, hsettles⟩
  · rename_i hlast
    obtain ⟨hfindings, s, -, hs⟩ := hsettles
    exact Or.inr ⟨hlast, hfindings, s.path, s.text, hs⟩

theorem newline_notMem_of_mem_parseErrors {linter : Linter}
    (h : linter.lint checkReferences sources = .ok report) (hf : f ∈ report.files) {e : ParseError}
    (he : e ∈ f.2.parseErrors) : '\n' ∉ e.fault.message.toList := by
  rcases file_cases h hf with ⟨-, -, -, -, -, hnone, -⟩ | ⟨-, -, path, text, hparse⟩
  · rw [hnone] at he
    cases he
  · exact newline_notMem_message hparse he

theorem newline_notMem_validator_of_mem (h : builtin.lint checkReferences sources = .ok report)
    (hf : f ∈ report.files) {x : Finding} (hx : x ∈ f.2.findings) : '\n' ∉ x.validator.toList := by
  rcases file_cases h hf with ⟨u, -, -, -, -, -, hvalidate⟩ | ⟨-, hnone, -⟩
  · exact newline_notMem_validator hvalidate hx
  · rw [hnone] at hx
    cases hx

/-- The finding is about a broken integer of the last unit among the sources with the path, or an
equal one. -/
def BreaksLine (sources : List Source) (path : Path) (x : Finding) : Prop :=
  ∃ u t f o, (units (alike path sources)).getLast? = some u ∧ u.unitType? = some t ∧
    f ∈ Catalog.builtin.groupFields t.group ∧ u.BrokenInteger f o ∧ x = .noInteger t.name f.key o

theorem newline_mem_file_iff (h : builtin.lint checkReferences sources = .ok report)
    (hf : f ∈ report.files) {x : Finding} :
    x ∈ f.2.findings ∧ '\n' ∈ x.message.toList ↔ BreaksLine sources f.1 x := by
  unfold BreaksLine
  rcases file_cases h hf with ⟨u, path, text, hlast, hparse, -, hvalidate⟩ | ⟨hlast, hnone, -⟩
  · rw [newline_mem_iff hparse hvalidate, hlast]
    simp
  · rw [hlast, hnone]
    simp

end Report

end Linter

end UnitLint
