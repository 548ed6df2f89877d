import UnitLint.Check.Validator
import UnitLint.Proofs.Failure

/-! # What a validator finds

A validator has a finding for each key that it does not know, and the findings about its fields
(`Validator.mem_validate_iff`). Those about a field tell what cannot be split, and what its rules
report (`Validator.mem_fieldFindings`). -/

namespace UnitLint.Validator

variable {v : Validator} {context : Context} {u : UnitFile} {f : FieldRules} {found : List Finding}
  {x : Finding}

theorem exists_of_mem_unknownKeys (h : x ∈ v.unknownKeys u) :
    ∃ g e, u.group? v.group = some g ∧ e ∈ g.entries ∧
      x = ⟨v.name, .unknownKey, e.location,
        "unsupported key '" ++ e.key ++ "' in group " ++ v.group⟩ := by
  unfold unknownKeys at h
  split at h
  · cases h
  · rename_i g hg
    obtain ⟨e, he, rfl⟩ := List.mem_map.mp h
    exact ⟨g, e, hg, (List.mem_filter.mp he).1, rfl⟩

/-- A field without rules is passed over if it has no entries. -/
theorem fieldFindings_cases (h : v.fieldFindings context u f = .ok found) :
    (f.rules = [] ∧ found = []) ∨
      joined ((lookup u f.field).issues.map (issueFinding ⟨context, u, f.field, v.name⟩))
        (Rule.findings ⟨context, u, f.field, v.name⟩ (lookup u f.field)) f.rules = .ok found := by
  unfold fieldFindings at h
  split at h
  · rename_i hnone
    cases h
    exact Or.inl ⟨List.isEmpty_iff.mp (Bool.and_eq_true_iff.mp hnone).1, rfl⟩
  · exact Or.inr h

theorem mem_fieldFindings (h : v.fieldFindings context u f = .ok found) (hx : x ∈ found) :
    (∃ issue ∈ (lookup u f.field).issues, x = issueFinding ⟨context, u, f.field, v.name⟩ issue) ∨
      ∃ r ∈ f.rules, ∃ fs,
        r.findings ⟨context, u, f.field, v.name⟩ (lookup u f.field) = .ok fs ∧ x ∈ fs := by
  rcases fieldFindings_cases h with ⟨-, rfl⟩ | h
  · cases hx
  · refine ((mem_joined_iff h).mp hx).imp_left fun hx => ?_
    obtain ⟨issue, hissue, rfl⟩ := List.mem_map.mp hx
    exact ⟨issue, hissue, rfl⟩

theorem exists_joined_of_validate (h : v.validate context u = .ok found) :
    ∃ all, joined (v.unknownKeys u) (v.fieldFindings context u) v.fields = .ok all ∧
      found = all.mergeSort fun a b => a.location.before b.location := by
  obtain ⟨all, hall, h⟩ := bind_eq_ok_iff.mp h
  exact ⟨all, hall, (Except.ok.inj h).symm⟩

/-- **The findings of a validator** are about unknown keys, or about its fields. -/
theorem mem_validate_iff (h : v.validate context u = .ok found) : x ∈ found ↔
    x ∈ v.unknownKeys u ∨ ∃ f ∈ v.fields, ∃ fs, v.fieldFindings context u f = .ok fs ∧ x ∈ fs := by
  obtain ⟨all, hall, rfl⟩ := exists_joined_of_validate h
  rw [List.mem_mergeSort]
  exact mem_joined_iff hall

theorem exists_fieldFindings (h : v.validate context u = .ok found) (hf : f ∈ v.fields) :
    ∃ fs, v.fieldFindings context u f = .ok fs := by
  obtain ⟨all, hall, -⟩ := exists_joined_of_validate h
  exact exists_of_joined hall f hf

end UnitLint.Validator
