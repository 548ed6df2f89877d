import UnitLint.Proofs.Check.Views
import UnitLint.Proofs.Lint.Outcome

/-! # Runs that fail

A run fails if a scalar view is taken that is not there. Of all the built-in rules three keys get a
boolean view and none gets an integer view (`RuleTable.viewsOnly_of_mem_builtin`). So over a catalog
with a scalar mode for each of the three every run gives a report, in whatever modes the other
fields are (`Linter.report_of_scalar_modes`). -/

namespace UnitLint

/-! ### Tables -/

namespace RuleTable

variable {catalog : Catalog} {t : RuleTable} {v : Validator}

/-- The rules of the table take views only of keys that `p` holds of. -/
def ViewsOnly (p : String → Prop) (t : RuleTable) : Prop :=
  ∀ entry ∈ t.entries, ∀ r ∈ entry.2, r.ViewsOnly p entry.1

theorem viewsOnly_of_bind {p : String → Prop} {q : Field → Prop} (ht : t.ViewsOnly p)
    (hkeys : ∀ key f, p key → catalog.field? t.unitType.group key = some f → q f)
    (h : t.bind catalog = .ok v) : v.ViewsOnly q := by
  intro f hf r hr
  rcases (builds_of_bind h).rules f hf r hr with ⟨entry, hentry, hfield, r', hr', hbind⟩ | htype
  · have hfound : ∀ key g, p key → catalog.require t.unitType.group key = .ok g → q g :=
      fun key g hp hg => hkeys key g hp (Catalog.require_eq_ok_iff.mp hg)
    have hown : p entry.1 → q f.field := fun hp => hkeys entry.1 f.field hp hfield
    exact Rule.viewsOnly_of_bindFields hfound hown (ht entry hentry r' hr') hbind
  · rcases eq_of_typeRule? htype with rfl | rfl <;> trivial

/-- The keys that the built-in rules take views of, each after its group. -/
def viewed : List (String × String) :=
  [("Container", "ReadOnly"), ("Container", "ReadOnlyTmpfs"), ("Network", "DisableDNS")]

theorem viewsOnly_of_mem_builtin :
    ∀ t ∈ builtin, t.ViewsOnly fun key => (t.unitType.group, key) ∈ viewed := by
  unfold ViewsOnly
  decide

end RuleTable

/-! ### Linters -/

namespace Linter

variable {catalog : Catalog} {linter : Linter}

/-- The catalog has a scalar mode for every key that the built-in rules take views of. -/
def ScalarWhereViewed (catalog : Catalog) : Prop :=
  ∀ name ∈ RuleTable.viewed, ∀ f ∈ catalog.field? name.1 name.2, f.mode.isScalar = true

instance (catalog : Catalog) : Decidable (ScalarWhereViewed catalog) := by
  unfold ScalarWhereViewed; infer_instance

theorem scalarWhereViewed_builtin : ScalarWhereViewed Catalog.builtin := by
  unfold ScalarWhereViewed Catalog.builtin
  simp only [Catalog.field?_ofFields]
  decide

theorem exists_validate (h : ofCatalog catalog = .ok linter) (hmodes : ScalarWhereViewed catalog)
    (c : Context) (u : UnitFile) : ∃ found, linter.validate c u = .ok found := by
  cases hv : linter.validatorFor? u with
  | none => exact ⟨[], validate_of_none hv⟩
  | some v =>
    obtain ⟨t, ht, hbind⟩ := exists_table h hv
    have hkeys : ∀ key f, (t.unitType.group, key) ∈ RuleTable.viewed →
        catalog.field? t.unitType.group key = some f → u.AtMostOne f :=
      fun key f hkey hf => (lookup_of_isScalar u (hmodes _ hkey f hf)).1
    have hviews := RuleTable.viewsOnly_of_bind (RuleTable.viewsOnly_of_mem_builtin t ht) hkeys hbind
    rw [validate_of_some hv]
    exact v.exists_validate hviews c

/-- **Runs give reports.** A field in a scalar mode has at most one value and no issues, and a value
that is found in the integer mode is an integer. Over a catalog that has every field that the rules
need, and scalar modes for the three keys that the rules take boolean views of, every run gives a
report, whatever the other modes are. The built-in catalog is one of these. -/
theorem report_of_scalar_modes :
    (∀ (u : UnitFile) (f : Field), f.mode.isScalar = true →
      (lookup u f).values.length ≤ 1 ∧ (lookup u f).issues = []) ∧
    (∀ (u : UnitFile) (f : Field), f.mode = .int → (lookup u f).found = true →
      ∃ n, (lookup u f).integer = .ok n) ∧
    (∀ (catalog : Catalog) (linter : Linter), ofCatalog catalog = .ok linter →
      ScalarWhereViewed catalog → ∀ (checkReferences : Bool) (sources : List Source),
        ∃ report, linter.lint checkReferences sources = .ok report) ∧
    ∀ (checkReferences : Bool) (sources : List Source),
      ∃ report, builtin.lint checkReferences sources = .ok report := by
  have hreport : ∀ (catalog : Catalog) (linter : Linter), ofCatalog catalog = .ok linter →
      ScalarWhereViewed catalog → ∀ (checkReferences : Bool) (sources : List Source),
        ∃ report, linter.lint checkReferences sources = .ok report := by
    intro catalog linter h hmodes checkReferences sources
    exact exists_lint_iff.mpr fun u _ => exists_validate h hmodes _ u
  exact ⟨fun u f => lookup_of_isScalar u, fun u f => exists_integer_of_found, hreport,
    hreport Catalog.builtin builtin ofCatalog_builtin scalarWhereViewed_builtin⟩

/-- Every other field may have many values. -/
theorem report_of_scalar_modes_changed :
    let catalog : Catalog := ⟨Catalog.builtinFields.map fun f =>
      if (f.group, f.key) ∈ RuleTable.viewed then { f with mode := .lastRaw }
      else { f with mode := .allKeyVal }⟩
    ∃ linter, ofCatalog catalog = .ok linter ∧ ∀ (checkReferences : Bool) (sources : List Source),
      ∃ report, linter.lint checkReferences sources = .ok report := by
  intro catalog
  have hbound : (ofCatalog catalog).toOption.isSome = true := by decide
  have hmodes : ScalarWhereViewed catalog := by decide
  obtain ⟨linter, h⟩ := exists_of_isSome hbound
  exact ⟨linter, h, report_of_scalar_modes.2.2.1 catalog linter h hmodes⟩

-- in another mode one of the three keys may have two values, and then the run fails
example : ((ofCatalog ⟨Catalog.builtinFields.map fun f =>
      if f.key = "DisableDNS" then { f with mode := .all } else f⟩).toOption.map
    (·.lint false [⟨⟨"a.network"⟩, "[Network]
DisableDNS=no
DisableDNS=yes
"⟩])) = some (.error (.count 2)) := by decide +kernel

end Linter

end UnitLint
