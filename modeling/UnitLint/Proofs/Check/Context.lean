import UnitLint.Proofs.Check.Scope

/-! # What a validator asks its context

Only a rule on references asks its context anything (`Rule.findings_of_no_reference`), and it asks
which names units have. So a validator finds the same in two contexts that answer alike, whatever
its rules (`Validator.validate_context`). -/

namespace UnitLint

variable {c c' : Context} {u : UnitFile}

/-- The types of the units that a rule on references is about. -/
def Rule.referenceTypes? {φ : Type} : Rule φ → Option (List UnitType)
  | canReference types => some types
  | _ => none

theorem Rule.eq_of_referenceTypes? {φ : Type} {r : Rule φ} {types : List UnitType}
    (h : r.referenceTypes? = some types) : r = canReference types := by
  cases r with
  | canReference types' =>
    cases h
    rfl
  | _ => cases h

/-- A rule on anything but references finds the same in every context. -/
theorem Rule.findings_of_no_reference {r : Rule Field} (h : r.referenceTypes? = none) (f : Field)
    (validator : String) (resolution : Resolution) :
    r.findings ⟨c, u, f, validator⟩ resolution = r.findings ⟨c', u, f, validator⟩ resolution := by
  cases r with
  | canReference types => cases h
  | _ => rfl

theorem Rule.findings_context (hc : c.Agrees c') (r : Rule Field) (f : Field) (validator : String)
    (resolution : Resolution) :
    r.findings ⟨c, u, f, validator⟩ resolution = r.findings ⟨c', u, f, validator⟩ resolution := by
  cases hr : r.referenceTypes? with
  | none => exact findings_of_no_reference hr f validator resolution
  | some types =>
    obtain rfl := eq_of_referenceTypes? hr
    have hmissing : ∀ v, Check.missingUnit? ⟨c, u, f, validator⟩ types v =
        Check.missingUnit? ⟨c', u, f, validator⟩ types v := Check.missingUnit?_congr hc types
    simp only [findings, hmissing]
    rfl

theorem Validator.validate_context (hc : c.Agrees c') (v : Validator) :
    v.validate c u = v.validate c' u := by
  have hfields : v.fields.mapM (v.fieldFindings c u) = v.fields.mapM (v.fieldFindings c' u) := by
    refine mapM_congr fun f _ => ?_
    have hrules : f.rules.mapM (Rule.findings ⟨c, u, f.field, v.name⟩ (lookup u f.field)) =
        f.rules.mapM (Rule.findings ⟨c', u, f.field, v.name⟩ (lookup u f.field)) :=
      mapM_congr fun r _ => Rule.findings_context hc r f.field v.name _
    unfold fieldFindings
    dsimp only
    rw [hrules]
    rfl
  unfold validate collect
  rw [hfields]

end UnitLint
