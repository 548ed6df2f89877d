import UnitLint.Proofs.Check.Context
import UnitLint.Proofs.Check.Findings

/-! # Categories of rules

A rule reports at the anchor, at values or at occurrences of its field (`Rule.eq_of_mem_findings`).
All its findings are in one category (`Rule.category_of_mem_findings`), which does not change when
its references to fields are looked up (`Rule.category_of_bindFields`). Rules on references have
theirs for themselves, if no rule that always reports takes it (`Rule.Separate`). -/

namespace UnitLint

/-- The category of the findings of a rule. -/
def Rule.category {φ : Type} : Rule φ → Category
  | required | requiredIfNotPresent _ => .requiredKey
  | conflictsWith _ => .keyConflict
  | allowedValues _ | hasSuffix _ | valuesMust _ _ _ | validBoolean | validInteger => .invalidValue
  | dependsOn _ => .unsatisfiedDependency
  | deprecated => .deprecatedKey
  | canReference _ => .invalidReference
  | imageNotAmbiguous => .ambiguousImageName
  | report category _ => category

/-- The rule is on references, or it reports in another category than these do. -/
def Rule.Separate {φ : Type} (r : Rule φ) : Prop :=
  r.referenceTypes? = none → r.category ≠ .invalidReference

instance {φ : Type} (r : Rule φ) : Decidable r.Separate := by
  unfold Rule.Separate; infer_instance

theorem Rule.category_of_bindFields {φ ψ ε : Type} {bind : φ → Except ε ψ} {r : Rule φ}
    {bound : Rule ψ} (h : r.bindFields bind = .ok bound) :
    bound.category = r.category ∧ bound.referenceTypes? = r.referenceTypes? := by
  cases r with
  | requiredIfNotPresent | conflictsWith | dependsOn | valuesMust =>
    obtain ⟨b, -, h⟩ := bind_eq_ok_iff.mp h
    cases h
    exact ⟨rfl, rfl⟩
  | required | allowedValues | hasSuffix | deprecated | canReference | validBoolean | validInteger |
      imageNotAmbiguous | report =>
    cases h
    exact ⟨rfl, rfl⟩

/-! ### Findings -/

variable {c : Check} {res : Resolution}

/-- The place is one for a finding about the field: the anchor, or that of a value or of an
occurrence of the key. -/
def Check.IsPlace (c : Check) (res : Resolution) (p : Location) : Prop :=
  p = c.anchor ∨ (∃ v ∈ res.values, p = v.location) ∨
    ∃ o ∈ c.unit.valuesOf c.field.group c.field.key, p = o.location

theorem Check.isPlace_value {v : Value} (hv : v ∈ res.values) : c.IsPlace res v.location :=
  Or.inr (Or.inl ⟨v, hv, rfl⟩)

theorem Check.eq_of_mem_eachValue {category : Category} {passes : Value → Bool}
    {message : Value → String} {f : Finding} (h : f ∈ c.eachValue category res passes message) :
    ∃ p text, c.IsPlace res p ∧ f = c.finding category p text := by
  obtain ⟨v, hv, rfl⟩ := List.mem_map.mp h
  exact ⟨_, _, Check.isPlace_value (List.mem_filter.mp hv).1, rfl⟩

/-- **What a rule reports** is in its category, and at a place for the field. -/
theorem Rule.eq_of_mem_findings {r : Rule Field} {found : List Finding}
    (h : r.findings c res = .ok found) {f : Finding} (hf : f ∈ found) :
    ∃ p message, c.IsPlace res p ∧ f = c.finding r.category p message := by
  cases r with
  | required | requiredIfNotPresent other =>
    cases h
    split at hf
    · cases hf
    · exact ⟨_, _, Or.inl rfl, List.mem_singleton.mp hf⟩
  | conflictsWith others =>
    cases h
    split at hf
    · obtain ⟨other, -, rfl⟩ := List.mem_map.mp hf
      exact ⟨_, _, Or.inl rfl, rfl⟩
    · cases hf
  | allowedValues texts | hasSuffix ending | validBoolean | imageNotAmbiguous =>
    cases h
    exact Check.eq_of_mem_eachValue hf
  | dependsOn other | deprecated =>
    cases h
    split at hf
    · exact ⟨_, _, Or.inl rfl, List.mem_singleton.mp hf⟩
    · cases hf
  | canReference types =>
    cases h
    obtain ⟨v, hv, hmissing⟩ := List.mem_filterMap.mp hf
    obtain ⟨missing, -, rfl⟩ := Option.map_eq_some_iff.mp hmissing
    exact ⟨_, _, Check.isPlace_value hv, rfl⟩
  | valuesMust test gate message =>
    obtain ⟨holds, -, h⟩ := bind_eq_ok_iff.mp h
    cases holds with
    | false =>
      cases h
      cases hf
    | true =>
      obtain ⟨passes, -, h⟩ := bind_eq_ok_iff.mp h
      cases passes with
      | true =>
        cases h
        cases hf
      | false =>
        cases h
        refine ⟨_, _, ?_, List.mem_singleton.mp hf⟩
        cases hfirst : res.values.head? with
        | none => exact Or.inl rfl
        | some v => exact Check.isPlace_value (List.mem_of_head? hfirst)
  | validInteger =>
    cases h
    split at hf
    · cases hf
    · split at hf
      · cases hf
      · rename_i o hlast
        exact ⟨_, _, Or.inr (Or.inr ⟨o, List.mem_of_getLast? hlast, rfl⟩), List.mem_singleton.mp hf⟩
  | report category message =>
    cases h
    exact ⟨_, _, Or.inl rfl, List.mem_singleton.mp hf⟩

/-- **A rule reports in its category.** -/
theorem Rule.category_of_mem_findings {r : Rule Field} {found : List Finding}
    (h : r.findings c res = .ok found) {f : Finding} (hf : f ∈ found) :
    f.category = r.category := by
  obtain ⟨p, message, -, rfl⟩ := eq_of_mem_findings h hf
  rfl

theorem Validator.category_of_mem_unknownKeys {v : Validator} {u : UnitFile} {f : Finding}
    (h : f ∈ v.unknownKeys u) : f.category = .unknownKey := by
  obtain ⟨g, e, -, -, rfl⟩ := exists_of_mem_unknownKeys h
  rfl

theorem Validator.category_of_mem_issues {issues : List SplitIssue} {f : Finding}
    (h : f ∈ issues.map (issueFinding c)) : f.category = .invalidValue := by
  obtain ⟨issue, -, rfl⟩ := List.mem_map.mp h
  rfl

/-- Findings in other categories are none in the category. -/
theorem filter_category {category category' : Category} {found : List Finding}
    (h : ∀ f ∈ found, f.category = category') (hne : category' ≠ category) :
    found.filter (·.category == category) = [] := by
  refine List.filter_eq_nil_iff.mpr fun f hf => ?_
  rwa [h f hf, beq_iff_eq]

end UnitLint
