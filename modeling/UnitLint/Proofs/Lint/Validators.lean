import UnitLint.Lint.Linter
import UnitLint.Proofs.Catalog.Fields
import UnitLint.Proofs.Failure

/-! # The validators of a linter

A unit is validated by the validator for its type, if there is one (`Linter.validate_of_some`), and
that is what one of the built-in tables is bound to (`Linter.exists_table`). -/

namespace UnitLint.Linter

variable {catalog : Catalog} {linter : Linter} {c : Context} {u : UnitFile}

/-- The validator for the type of a unit. -/
def validatorFor? (linter : Linter) (u : UnitFile) : Option Validator :=
  u.unitType?.bind fun t => linter.validators.find? (·.unitType == t)

theorem validate_of_none (h : linter.validatorFor? u = none) : linter.validate c u = .ok [] := by
  unfold validatorFor? at h
  unfold validate
  cases htype : u.unitType? with
  | none => rfl
  | some t =>
    rw [htype] at h
    have hfind : linter.validators.find? (·.unitType == t) = none := h
    dsimp only
    rw [hfind]

theorem validate_of_some {v : Validator} (h : linter.validatorFor? u = some v) :
    linter.validate c u = v.validate c u := by
  obtain ⟨t, htype, hfind⟩ := Option.bind_eq_some_iff.mp h
  unfold validate
  rw [htype]
  dsimp only
  rw [hfind]

theorem unitType_of_validatorFor? {v : Validator} (h : linter.validatorFor? u = some v) :
    u.unitType? = some v.unitType := by
  obtain ⟨t, htype, hfind⟩ := Option.bind_eq_some_iff.mp h
  have hv : v.unitType = t := by simpa using List.find?_some hfind
  rw [htype, hv]

theorem mem_of_validatorFor? {v : Validator} (h : linter.validatorFor? u = some v) :
    v ∈ linter.validators := by
  obtain ⟨t, -, hfind⟩ := Option.bind_eq_some_iff.mp h
  exact List.mem_of_find?_eq_some hfind

/-- Each validator is what its table is bound to. -/
theorem mapM_bind (h : ofCatalog catalog = .ok linter) :
    RuleTable.builtin.mapM (RuleTable.bind catalog) = .ok linter.validators := by
  obtain ⟨validators, hvalidators, h⟩ := bind_eq_ok_iff.mp h
  cases h
  exact hvalidators

/-- **A validator of the linter over a catalog** is what a built-in table is bound to. -/
theorem exists_table (h : ofCatalog catalog = .ok linter) {v : Validator}
    (hv : linter.validatorFor? u = some v) : ∃ t ∈ RuleTable.builtin, t.bind catalog = .ok v :=
  exists_of_mem_mapM (mapM_bind h) (mem_of_validatorFor? hv)

/-! ### The built-in linter -/

/-- The linter is evaluated in this form, where no field is looked for among those before it. -/
theorem builtin_eq : builtin = (ofCatalog ⟨Catalog.builtinFields⟩).toOption.getD ⟨[]⟩ := by
  rw [builtin, Catalog.builtin_eq]

theorem ofCatalog_builtin : ofCatalog Catalog.builtin = .ok builtin := by
  have hbound : (ofCatalog Catalog.builtin).toOption.isSome = true := by
    rw [Catalog.builtin_eq]
    decide
  obtain ⟨linter, h⟩ := exists_of_isSome hbound
  rw [builtin, h]
  rfl

end UnitLint.Linter
