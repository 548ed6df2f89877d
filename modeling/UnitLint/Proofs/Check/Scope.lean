import UnitLint.Check.Validator
import UnitLint.Proofs.Failure

/-! # What a validator looks at

A rule stays within a group if every field that it refers to is of that group, and so does a
condition, which also may not ask for another group. What such a rule finds follows from the group
alone, and from the names of the units where references are checked: it is the same in two unit
files that have the same group of that name (`Rule.findings_congr`). So is what a validator finds
whose rules all stay within its own group (`Validator.validate_congr`). -/

namespace UnitLint

/-! ### Staying within a group -/

/-- The references of the condition are as `p` says, and it asks for no other group. -/
def Condition.Within {φ : Type} (p : φ → Prop) (group : String) : Condition φ → Prop
  | always => True
  | present field => p field
  | equals field _ => p field
  | flag field => p field
  | hasGroup name => name = group
  | both first second => first.Within p group ∧ second.Within p group
  | negated inner => inner.Within p group

/-- The references of the rule are as `p` says, and its condition asks for no other group. -/
def Rule.Within {φ : Type} (p : φ → Prop) (group : String) : Rule φ → Prop
  | requiredIfNotPresent other => p other
  | conflictsWith others => ∀ other ∈ others, p other
  | dependsOn other => p other
  | valuesMust _ gate _ => gate.Within p group
  | _ => True

/-- The field is of the group. -/
def Field.IsOf (group : String) (f : Field) : Prop := f.group = group

/-- Every field of the validator is of its group, and every rule stays within it. -/
structure Validator.Within (v : Validator) : Prop where
  fields : ∀ f ∈ v.fields, f.field.IsOf v.group
  rules : ∀ f ∈ v.fields, ∀ r ∈ f.rules, r.Within (Field.IsOf v.group) v.group

/-- Two contexts answer alike whatever a check asks: names matter where references are checked. -/
structure Context.Agrees (c c' : Context) : Prop where
  checkReferences : c.checkReferences = c'.checkReferences
  hasUnit : c.checkReferences = true → ∀ name, c.hasUnit name = c'.hasUnit name

/-! ### Equal groups -/

variable {group : String} {u u' : UnitFile} {c c' : Context}

theorem UnitFile.valuesOf_congr (h : u.group? group = u'.group? group) (key : String) :
    u.valuesOf group key = u'.valuesOf group key := by
  unfold valuesOf
  rw [h]

theorem UnitFile.hasKey_congr (h : u.group? group = u'.group? group) (key : String) :
    u.hasKey group key = u'.hasKey group key := by
  unfold hasKey
  rw [valuesOf_congr h]

theorem lookup_congr (h : u.group? group = u'.group? group) {f : Field} (hf : f.IsOf group) :
    lookup u f = lookup u' f := by
  unfold lookup
  rw [hf, UnitFile.valuesOf_congr h]

theorem Condition.holds_congr (h : u.group? group = u'.group? group) {condition : Condition Field}
    (hwithin : condition.Within (Field.IsOf group) group) :
    condition.holds u = condition.holds u' := by
  induction condition with
  | always => rfl
  | present | equals | flag => rw [holds, holds, lookup_congr h hwithin]
  | hasGroup name =>
    obtain rfl : name = group := hwithin
    rw [holds, holds, UnitFile.hasGroup, UnitFile.hasGroup, h]
  | both first second ihfirst ihsecond =>
    rw [holds, holds, ihfirst hwithin.1, ihsecond hwithin.2]
  | negated inner ih => rw [holds, holds, ih hwithin]

/-! ### Checks -/

section Checks

variable {f : Field} {validator : String}

theorem Check.anchor_congr (h : u.group? group = u'.group? group) (hf : f.IsOf group) :
    anchor ⟨c, u, f, validator⟩ = anchor ⟨c', u', f, validator⟩ := by
  unfold anchor
  dsimp only
  rw [hf, h]

theorem Check.isPresent_congr (h : u.group? group = u'.group? group) {other : Field}
    (hother : other.IsOf group) :
    isPresent ⟨c, u, f, validator⟩ other = isPresent ⟨c', u', f, validator⟩ other := by
  unfold isPresent
  rw [lookup_congr h hother]

theorem Check.missingUnit?_congr (h : c.Agrees c') (types : List UnitType) (v : Value) :
    missingUnit? ⟨c, u, f, validator⟩ types v = missingUnit? ⟨c', u', f, validator⟩ types v := by
  unfold missingUnit?
  dsimp only
  cases hrefs : c.checkReferences with
  | false =>
    have hrefs' : c'.checkReferences = false := by rw [← h.checkReferences, hrefs]
    rw [hrefs']
    simp
  | true =>
    have hrefs' : c'.checkReferences = true := by rw [← h.checkReferences, hrefs]
    rw [hrefs', h.hasUnit hrefs]

/-- **What a rule finds** follows from the group that it stays within. -/
theorem Rule.findings_congr (h : u.group? group = u'.group? group) (hc : c.Agrees c')
    (hf : f.IsOf group) {r : Rule Field} (hr : r.Within (Field.IsOf group) group)
    (resolution : Resolution) :
    r.findings ⟨c, u, f, validator⟩ resolution = r.findings ⟨c', u', f, validator⟩ resolution := by
  have hplace : Check.anchor ⟨c, u, f, validator⟩ = Check.anchor ⟨c', u', f, validator⟩ :=
    Check.anchor_congr h hf
  have hanchor : ∀ category message,
      Check.findingAtAnchor ⟨c, u, f, validator⟩ category message =
        Check.findingAtAnchor ⟨c', u', f, validator⟩ category message := by
    intro category message
    unfold Check.findingAtAnchor
    rw [hplace]
    rfl
  have hpresent : ∀ other : Field, other.IsOf group →
      Check.isPresent ⟨c, u, f, validator⟩ other = Check.isPresent ⟨c', u', f, validator⟩ other :=
    fun _ hother => Check.isPresent_congr h hother
  cases r with
  | required => simp only [findings, hanchor]
  | requiredIfNotPresent other => simp only [findings, hanchor, hpresent other hr]
  | conflictsWith others =>
    have hfilter : others.filter (Check.isPresent ⟨c, u, f, validator⟩) =
        others.filter (Check.isPresent ⟨c', u', f, validator⟩) :=
      List.filter_congr fun other hother => hpresent other (hr other hother)
    simp only [findings, hanchor, hfilter]
  | allowedValues texts => rfl
  | hasSuffix ending => rfl
  | dependsOn other => simp only [findings, hanchor, hpresent other hr]
  | deprecated =>
    have hkey : u.hasKey f.group f.key = u'.hasKey f.group f.key := by
      rw [hf, UnitFile.hasKey_congr h]
    simp only [findings, hanchor, hkey]
  | canReference types =>
    have hmissing : ∀ v, Check.missingUnit? ⟨c, u, f, validator⟩ types v =
        Check.missingUnit? ⟨c', u', f, validator⟩ types v := Check.missingUnit?_congr hc types
    simp only [findings, hmissing]
    rfl
  | valuesMust test gate message =>
    simp only [findings, Condition.holds_congr h hr, hplace]
    rfl
  | validBoolean => rfl
  | validInteger =>
    have hvalues : u.valuesOf f.group f.key = u'.valuesOf f.group f.key := by
      rw [hf, UnitFile.valuesOf_congr h]
    simp only [findings, hvalues]
    rfl
  | imageNotAmbiguous => rfl
  | report category message => simp only [findings, hanchor]

end Checks

/-! ### Validators -/

namespace Validator

variable {v : Validator}

theorem unknownKeys_congr (h : u.group? v.group = u'.group? v.group) :
    v.unknownKeys u = v.unknownKeys u' := by
  unfold unknownKeys
  rw [h]

theorem fieldFindings_congr (h : u.group? v.group = u'.group? v.group) (hc : c.Agrees c')
    (hv : v.Within) {f : FieldRules} (hf : f ∈ v.fields) :
    v.fieldFindings c u f = v.fieldFindings c' u' f := by
  have hfield := hv.fields f hf
  have hrules : ∀ resolution, f.rules.mapM (Rule.findings ⟨c, u, f.field, v.name⟩ resolution) =
      f.rules.mapM (Rule.findings ⟨c', u', f.field, v.name⟩ resolution) := fun resolution =>
    mapM_congr fun r hr => Rule.findings_congr h hc hfield (hv.rules f hf r hr) resolution
  unfold fieldFindings
  dsimp only
  rw [UnitFile.hasKey_congr h, lookup_congr h hfield, hrules]
  rfl

/-- **What a validator finds** follows from its own group. -/
theorem validate_congr (h : u.group? v.group = u'.group? v.group) (hc : c.Agrees c')
    (hv : v.Within) : v.validate c u = v.validate c' u' := by
  have hfields : v.fields.mapM (v.fieldFindings c u) = v.fields.mapM (v.fieldFindings c' u') :=
    mapM_congr fun _ hf => fieldFindings_congr h hc hv hf
  unfold validate collect
  rw [hfields, unknownKeys_congr h]

end Validator

end UnitLint
