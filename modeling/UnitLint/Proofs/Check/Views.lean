import UnitLint.Check.Validator
import UnitLint.Proofs.Lookup.Scalar

/-! # Rules that take scalar views

A check fails where it takes a scalar view that is not there, and in no other way. Only tests of
values and conditions take such views: a test of the field that its rule is attached to, a condition
of the fields that it names. If each of these has at most one value, and no test is for an integer,
conditions hold or not (`Condition.exists_holds`), rules have findings (`Rule.exists_findings`), and
so do validators (`Validator.exists_validate`). -/

namespace UnitLint

/-! ### Which views are taken -/

/-- The test takes a boolean view only if `p`, and never an integer view. -/
def ValueTest.ViewsOnly (p : Prop) : ValueTest → Prop
  | isTrue | isNotTrue => p
  | positive => False
  | _ => True

/-- The condition takes views only of fields that `p` holds of. -/
def Condition.ViewsOnly {φ : Type} (p : φ → Prop) : Condition φ → Prop
  | flag field => p field
  | both first second => first.ViewsOnly p ∧ second.ViewsOnly p
  | negated inner => inner.ViewsOnly p
  | _ => True

/-- The rule for the field `own` takes views only of fields that `p` holds of. -/
def Rule.ViewsOnly {φ : Type} (p : φ → Prop) (own : φ) : Rule φ → Prop
  | valuesMust test gate _ => test.ViewsOnly (p own) ∧ gate.ViewsOnly p
  | _ => True

instance (p : Prop) [Decidable p] (test : ValueTest) : Decidable (test.ViewsOnly p) := by
  cases test <;> unfold ValueTest.ViewsOnly <;> infer_instance

/-- Whether a condition takes views only of some fields follows from its parts. -/
instance Condition.decidableViewsOnly {φ : Type} (p : φ → Prop) [DecidablePred p] :
    (condition : Condition φ) → Decidable (condition.ViewsOnly p)
  | flag field => inferInstanceAs (Decidable (p field))
  | both first second =>
    have := first.decidableViewsOnly p
    have := second.decidableViewsOnly p
    inferInstanceAs (Decidable (first.ViewsOnly p ∧ second.ViewsOnly p))
  | negated inner => inner.decidableViewsOnly p
  | always | present _ | equals _ _ | hasGroup _ => .isTrue trivial

instance {φ : Type} (p : φ → Prop) [DecidablePred p] (own : φ) :
    (r : Rule φ) → Decidable (r.ViewsOnly p own)
  | .valuesMust test gate _ =>
    inferInstanceAs (Decidable (test.ViewsOnly (p own) ∧ gate.ViewsOnly p))
  | .required | .requiredIfNotPresent _ | .conflictsWith _ | .allowedValues _ | .hasSuffix _
  | .dependsOn _ | .deprecated | .canReference _ | .validBoolean | .validInteger
  | .imageNotAmbiguous | .report _ _ => .isTrue trivial

section Binding

variable {φ ψ ε : Type} {p : φ → Prop} {q : ψ → Prop} {bind : φ → Except ε ψ}

theorem Condition.viewsOnly_of_bindFields (hbind : ∀ a b, p a → bind a = .ok b → q b)
    {condition : Condition φ} {bound : Condition ψ} (hviews : condition.ViewsOnly p)
    (h : condition.bindFields bind = .ok bound) : bound.ViewsOnly q := by
  induction condition generalizing bound with
  | always | hasGroup =>
    cases h
    trivial
  | present field | equals field _ =>
    obtain ⟨b, -, h⟩ := bind_eq_ok_iff.mp h
    cases h
    trivial
  | flag field =>
    obtain ⟨b, hb, h⟩ := bind_eq_ok_iff.mp h
    cases h
    exact hbind field b hviews hb
  | both first second ihfirst ihsecond =>
    obtain ⟨b, hb, h⟩ := bind_eq_ok_iff.mp h
    obtain ⟨b', hb', h⟩ := bind_eq_ok_iff.mp h
    cases h
    exact ⟨ihfirst hviews.1 hb, ihsecond hviews.2 hb'⟩
  | negated inner ih =>
    obtain ⟨b, hb, h⟩ := bind_eq_ok_iff.mp h
    cases h
    show b.ViewsOnly q
    exact ih hviews hb

theorem Rule.viewsOnly_of_bindFields (hbind : ∀ a b, p a → bind a = .ok b → q b) {own : φ}
    {own' : ψ} (hown : p own → q own') {r : Rule φ} {bound : Rule ψ} (hviews : r.ViewsOnly p own)
    (h : r.bindFields bind = .ok bound) : bound.ViewsOnly q own' := by
  cases r with
  | valuesMust test gate message =>
    obtain ⟨b, hb, h⟩ := bind_eq_ok_iff.mp h
    cases h
    refine ⟨?_, Condition.viewsOnly_of_bindFields hbind hviews.2 hb⟩
    cases test with
    | isTrue | isNotTrue => exact hown hviews.1
    | positive => exact hviews.1.elim
    | absent | present | atMostOne | publishedPorts | exposedPorts => trivial
  | requiredIfNotPresent | conflictsWith | dependsOn =>
    obtain ⟨b, -, h⟩ := bind_eq_ok_iff.mp h
    cases h
    trivial
  | required | allowedValues | hasSuffix | deprecated | canReference | validBoolean | validInteger |
      imageNotAmbiguous | report =>
    cases h
    trivial

end Binding

/-! ### Views that are there -/

/-- The field has at most one value in the unit file. -/
def UnitFile.AtMostOne (u : UnitFile) (f : Field) : Prop := (lookup u f).values.length ≤ 1

theorem ValueTest.exists_passes {test : ValueTest} {r : Resolution}
    (h : test.ViewsOnly (r.values.length ≤ 1)) : ∃ b, test.passes r = .ok b := by
  cases test with
  | isTrue => exact Resolution.exists_truthy_iff.mpr h
  | isNotTrue => exact exists_bind (Resolution.exists_truthy_iff.mpr h) fun b => ⟨!b, rfl⟩
  | positive => exact h.elim
  | absent | present | atMostOne | publishedPorts | exposedPorts => exact ⟨_, rfl⟩

theorem Condition.exists_holds {u : UnitFile} {condition : Condition Field}
    (h : condition.ViewsOnly u.AtMostOne) : ∃ b, condition.holds u = .ok b := by
  induction condition with
  | always | present | equals | hasGroup => exact ⟨_, rfl⟩
  | flag field => exact Resolution.exists_truthy_iff.mpr h
  | both first second ihfirst ihsecond =>
    refine exists_bind (ihfirst h.1) fun b => ?_
    cases b with
    | true => exact ihsecond h.2
    | false => exact ⟨false, rfl⟩
  | negated inner ih => exact exists_bind (ih h) fun b => ⟨!b, rfl⟩

/-- **A rule has findings** if every field that it takes a view of has at most one value. -/
theorem Rule.exists_findings {c : Check} {r : Rule Field}
    (h : r.ViewsOnly c.unit.AtMostOne c.field) :
    ∃ found, r.findings c (lookup c.unit c.field) = .ok found := by
  cases r with
  | valuesMust test gate message =>
    refine exists_bind (Condition.exists_holds h.2) fun holds => ?_
    cases holds with
    | false => exact ⟨[], rfl⟩
    | true =>
      refine exists_bind (ValueTest.exists_passes h.1) fun passes => ?_
      cases passes <;> exact ⟨_, rfl⟩
  | required | requiredIfNotPresent | conflictsWith | allowedValues | hasSuffix | dependsOn |
      deprecated | canReference | validBoolean | validInteger | imageNotAmbiguous | report =>
    exact ⟨_, rfl⟩

/-- The rules of the validator take views only of fields that `p` holds of. -/
def Validator.ViewsOnly (p : Field → Prop) (v : Validator) : Prop :=
  ∀ f ∈ v.fields, ∀ r ∈ f.rules, r.ViewsOnly p f.field

theorem Validator.exists_validate {v : Validator} {u : UnitFile} (h : v.ViewsOnly u.AtMostOne)
    (c : Context) : ∃ found, v.validate c u = .ok found := by
  have hfields : ∀ f ∈ v.fields, ∃ found, v.fieldFindings c u f = .ok found := by
    intro f hf
    have hrules : ∀ r ∈ f.rules, ∃ found, r.findings ⟨c, u, f.field, v.name⟩ (lookup u f.field) =
        .ok found := fun r hr =>
      Rule.exists_findings (c := ⟨c, u, f.field, v.name⟩) (h f hf r hr)
    unfold fieldFindings
    split
    · exact ⟨[], rfl⟩
    · exact exists_bind (exists_mapM_iff.mpr hrules) fun found => ⟨_, rfl⟩
  have hcollect : ∃ found, v.collect c u = .ok found :=
    exists_bind (exists_mapM_iff.mpr hfields) fun found => ⟨_, rfl⟩
  exact exists_bind hcollect fun found => ⟨_, rfl⟩

end UnitLint
