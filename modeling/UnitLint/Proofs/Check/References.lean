import UnitLint.Proofs.Check.Category
import UnitLint.Proofs.Sort

/-! # References

A value of a field with a rule on references is a reference; its target is the text before the first
colon. A context leaves it dangling if no unit has the target as its name. The findings in the
category of references are those of the dangling references (`Validator.filter_validate`), and all
that a context does is to take findings away from what is found where there are no units at all
(`Validator.validate_eq_filter`). -/

namespace UnitLint

/-! ### Targets -/

/-- A value that may refer to a unit of one of the types, in what a validator checks. -/
structure Reference where
  validator : String
  types : List UnitType
  value : Value
  deriving DecidableEq, Repr

namespace Reference

/-- The name that is referred to. -/
def target (r : Reference) : String := String.ofList (r.value.text.toList.takeWhile (· != ':'))

/-- The reference names a unit of one of its types, and the context has no unit of that name. -/
def Dangling (c : Context) (r : Reference) : Prop :=
  c.checkReferences = true ∧ (∃ t ∈ r.types, t.extension.toList <:+ r.target.toList) ∧
    ∀ u ∈ c.units, u.fileName ≠ r.target

instance (c : Context) (r : Reference) : Decidable (r.Dangling c) := by
  unfold Dangling; infer_instance

end Reference

/-- The wording of a finding that there is no unit of a type and name. -/
def missingMessage (type name : String) : String :=
  "requested " ++ type ++ " unit " ++ name ++ " was not found"

/-- The finding about a reference, which is at the value. -/
def Reference.finding (r : Reference) : Finding :=
  ⟨r.validator, .invalidReference, r.value.location,
    missingMessage (((r.types.find? (UnitType.namedBy r.target.toList)).map UnitType.name).getD "")
      r.target⟩

/-- The finding is that there is no unit of the name. -/
def Finding.Misses (name : String) (f : Finding) : Prop :=
  f.category = .invalidReference ∧ ∃ t ∈ UnitType.all, f.message = missingMessage t.name name

instance (name : String) (f : Finding) : Decidable (f.Misses name) := by
  unfold Finding.Misses; infer_instance

theorem UnitType.mem_all (t : UnitType) : t ∈ all := by cases t <;> decide

/-- The message tells the name, since the type before it has no spaces. -/
theorem missingMessage_inj {t t' : UnitType} {name name' : String}
    (h : missingMessage t.name name = missingMessage t'.name name') : name = name' := by
  have hword : ∀ (t : UnitType) (s : List Char),
      (t.name.toList ++ (" unit ".toList ++ s)).takeWhile (· != ' ') = t.name.toList := by
    intro t s
    cases t <;> rfl
  have hlists := congrArg String.toList h
  simp only [missingMessage, String.toList_append, List.append_assoc] at hlists
  have htypes := List.append_cancel_left hlists
  have htype : t.name.toList = t'.name.toList := by
    rw [← hword t, htypes, hword t']
  rw [htype] at htypes
  have hnames := List.append_cancel_left (List.append_cancel_left htypes)
  exact String.ext (List.append_cancel_right hnames)

namespace Reference

variable {c : Context} {r : Reference}

theorem named_iff : (∃ t ∈ r.types, t.extension.toList <:+ r.target.toList) ↔
    ∃ t, r.types.find? (UnitType.namedBy r.target.toList) = some t := by
  rw [← Option.isSome_iff_exists, List.find?_isSome]
  simp only [UnitType.namedBy, List.isSuffixOf_iff_suffix]

/-- The finding about a reference that names a unit is that there is none of that name. -/
theorem misses_finding_iff (hnamed : ∃ t ∈ r.types, t.extension.toList <:+ r.target.toList)
    {name : String} : r.finding.Misses name ↔ name = r.target := by
  obtain ⟨t, ht⟩ := named_iff.mp hnamed
  have hmessage : r.finding.message = missingMessage t.name r.target := by
    unfold finding
    rw [ht]
    rfl
  constructor
  · rintro ⟨-, t', -, h⟩
    exact missingMessage_inj (h.symm.trans hmessage)
  · rintro rfl
    exact ⟨rfl, t, UnitType.mem_all t, hmessage⟩

end Reference

/-! ### Rules -/

theorem Context.hasUnit_eq_false_iff {c : Context} {name : String} :
    c.hasUnit name = false ↔ ∀ u ∈ c.units, u.fileName ≠ name := by
  unfold hasUnit fileNames
  simp [← Bool.not_eq_true]

/-- References are checked, and there are no units. -/
def Context.bare : Context := ⟨true, []⟩

/-- The context does not answer the finding, if it is about a reference. -/
def Context.Leaves (c : Context) (f : Finding) : Prop :=
  f.category = .invalidReference →
    c.checkReferences = true ∧ ∀ u ∈ c.units, ¬ f.Misses u.fileName

instance (c : Context) (f : Finding) : Decidable (c.Leaves f) := by
  unfold Context.Leaves; infer_instance

/-- Findings in another category are left as they are. -/
theorem Context.filter_leaves (c : Context) {category : Category} {found : List Finding}
    (h : ∀ f ∈ found, f.category = category) (hne : category ≠ .invalidReference) :
    found.filter (c.Leaves ·) = found := by
  refine List.filter_eq_self.mpr fun f hf => decide_eq_true fun hcategory => ?_
  rw [h f hf] at hcategory
  exact absurd hcategory hne

theorem Reference.dangling_iff {c : Context} {r : Reference} :
    r.Dangling c ↔ r.Dangling .bare ∧ c.Leaves r.finding := by
  constructor
  · rintro ⟨hrefs, hnamed, hunits⟩
    refine ⟨⟨rfl, hnamed, fun u hu => by cases hu⟩, fun _ => ⟨hrefs, fun u hu hmisses => ?_⟩⟩
    exact hunits u hu ((misses_finding_iff hnamed).mp hmisses)
  · rintro ⟨⟨-, hnamed, -⟩, hleaves⟩
    obtain ⟨hrefs, hunits⟩ := hleaves rfl
    exact ⟨hrefs, hnamed, fun u hu hname => hunits u hu ((misses_finding_iff hnamed).mpr hname)⟩

theorem Reference.map_finding_filter (c : Context) (refs : List Reference) :
    (refs.filter (·.Dangling c)).map finding =
      ((refs.filter (·.Dangling .bare)).map finding).filter (c.Leaves ·) := by
  rw [List.filter_map, List.filter_filter]
  refine congrArg (List.map finding) (List.filter_congr fun r _ => ?_)
  rw [Bool.eq_iff_iff, Bool.and_eq_true, decide_eq_true_eq, decide_eq_true_eq, and_comm]
  exact dangling_iff.trans (and_congr_right fun _ => decide_eq_true_iff.symm)

section Checks

variable {c : Context} {u : UnitFile} {f : Field} {validator : String} {res : Resolution}

/-- A missing unit is the target of a dangling reference. -/
theorem Reference.map_missingUnit? (r : Reference) :
    ((Check.missingUnit? ⟨c, u, f, r.validator⟩ r.types r.value).map fun (t, name) =>
      Finding.mk r.validator .invalidReference r.value.location (missingMessage t.name name)) =
        if r.Dangling c then some r.finding else none := by
  have htarget : r.value.text.toList.takeWhile (· != ':') = r.target.toList := by
    rw [target, String.toList_ofList]
  unfold Check.missingUnit?
  dsimp only
  rw [htarget, String.ofList_toList]
  cases hfind : r.types.find? (UnitType.namedBy r.target.toList) with
  | none =>
    have hnot : ¬ r.Dangling c := by
      rintro ⟨-, hnamed, -⟩
      obtain ⟨t, ht⟩ := named_iff.mp hnamed
      cases hfind.symm.trans ht
    rw [if_neg hnot]
    rfl
  | some t =>
    have hdangling : r.Dangling c ↔ (c.checkReferences && !c.hasUnit r.target) = true := by
      rw [Bool.and_eq_true, Bool.not_eq_true', Context.hasUnit_eq_false_iff]
      exact and_congr_right fun _ => and_iff_right (named_iff.mpr ⟨t, hfind⟩)
    have hfinding : r.finding = ⟨r.validator, .invalidReference, r.value.location,
        missingMessage t.name r.target⟩ := by
      rw [finding, hfind]
      rfl
    dsimp only
    by_cases h : r.Dangling c
    · rw [if_pos h, if_pos (hdangling.mp h), hfinding]
      rfl
    · rw [if_neg h, if_neg (mt hdangling.mpr h)]
      rfl

/-- What a rule on references finds is about the dangling ones. -/
theorem Rule.findings_canReference (types : List UnitType) :
    (canReference types).findings ⟨c, u, f, validator⟩ res =
      .ok (((res.values.map (Reference.mk validator types)).filter (·.Dangling c)).map
        Reference.finding) := by
  have hvalues : res.values.filterMap (fun v =>
      (Check.missingUnit? ⟨c, u, f, validator⟩ types v).map fun (t, name) =>
        Finding.mk validator .invalidReference v.location (missingMessage t.name name)) =
      ((res.values.map (Reference.mk validator types)).filter (·.Dangling c)).map
        Reference.finding := by
    rw [← List.filterMap_eq_map, List.filterMap_filter, List.filterMap_map]
    refine List.filterMap_congr fun v _ => ?_
    have hmissing := Reference.map_missingUnit? (c := c) (u := u) (f := f) ⟨validator, types, v⟩
    simpa using hmissing
  exact congrArg Except.ok hvalues

/-- The references that a rule checks in what a field resolves to. -/
def Rule.references (validator : String) (res : Resolution) : Rule Field → List Reference
  | canReference types => res.values.map (Reference.mk validator types)
  | _ => []

theorem Rule.references_of_no_types {r : Rule Field} (h : r.referenceTypes? = none) :
    r.references validator res = [] := by
  cases r with
  | canReference types => cases h
  | _ => rfl

/-- **A rule's findings in the category of references** are about the dangling ones. -/
theorem Rule.filter_findings {r : Rule Field} (hr : r.Separate) {found : List Finding}
    (h : r.findings ⟨c, u, f, validator⟩ res = .ok found) :
    found.filter (·.category == .invalidReference) =
      ((r.references validator res).filter (·.Dangling c)).map Reference.finding := by
  cases htypes : r.referenceTypes? with
  | none =>
    rw [references_of_no_types htypes]
    exact filter_category (fun g hg => category_of_mem_findings h hg) (hr htypes)
  | some types =>
    obtain rfl := eq_of_referenceTypes? htypes
    rw [findings_canReference] at h
    cases h
    refine List.filter_eq_self.mpr fun g hg => ?_
    obtain ⟨ref, -, rfl⟩ := List.mem_map.mp hg
    rfl

/-- **A rule's findings in a context** are those without units that the context leaves. -/
theorem Rule.findings_eq_filter {r : Rule Field} (hr : r.Separate) :
    r.findings ⟨c, u, f, validator⟩ res =
      (r.findings ⟨.bare, u, f, validator⟩ res).map (·.filter (c.Leaves ·)) := by
  cases htypes : r.referenceTypes? with
  | none =>
    have hsame : r.findings ⟨c, u, f, validator⟩ res = r.findings ⟨.bare, u, f, validator⟩ res :=
      findings_of_no_reference htypes f validator res
    rw [hsame]
    cases hfound : r.findings ⟨.bare, u, f, validator⟩ res with
    | error e => rfl
    | ok found =>
      have hleft := c.filter_leaves (fun g hg => category_of_mem_findings hfound hg) (hr htypes)
      exact congrArg Except.ok hleft.symm
  | some types =>
    obtain rfl := eq_of_referenceTypes? htypes
    rw [findings_canReference, findings_canReference, Reference.map_finding_filter c]
    rfl

end Checks

/-! ### Validators -/

/-- The rules of the validator report in another category than those on references. -/
def Validator.Separate (v : Validator) : Prop := ∀ f ∈ v.fields, ∀ r ∈ f.rules, r.Separate

namespace Validator

variable {v : Validator} {c : Context} {u : UnitFile} {f : FieldRules} {found : List Finding}

/-- The references in a unit file, in the order in which they are checked. -/
def references (v : Validator) (u : UnitFile) : List Reference :=
  v.fields.flatMap fun f => f.rules.flatMap (Rule.references v.name (lookup u f.field))

theorem filter_sorted (p : Finding → Bool) (found : List Finding) :
    (found.mergeSort fun a b => a.location.before b.location).filter p =
      (found.filter p).mergeSort fun a b => a.location.before b.location :=
  filter_mergeSort (fun a b c => @Location.before_trans a.location b.location c.location)
    (fun a b => Location.before_total a.location b.location) p found

theorem fieldFindings_eq_filter (hf : ∀ r ∈ f.rules, r.Separate) :
    v.fieldFindings c u f = (v.fieldFindings .bare u f).map (·.filter (c.Leaves ·)) := by
  unfold fieldFindings
  split
  · rfl
  · have hissues : ∀ g ∈ (lookup u f.field).issues.map (issueFinding ⟨.bare, u, f.field, v.name⟩),
        g.category = .invalidValue := fun _ => category_of_mem_issues
    exact joined_eq_filter (c.filter_leaves hissues nofun) fun r hr =>
      Rule.findings_eq_filter (hf r hr)

/-- **A validator's findings in a context** are those without units that the context leaves. -/
theorem validate_eq_filter (hv : v.Separate) :
    v.validate c u = (v.validate .bare u).map (·.filter (c.Leaves ·)) := by
  have hunknown : ∀ g ∈ v.unknownKeys u, g.category = .unknownKey :=
    fun _ => category_of_mem_unknownKeys
  have hcollect : v.collect c u = (v.collect .bare u).map (·.filter (c.Leaves ·)) :=
    joined_eq_filter (c.filter_leaves hunknown nofun) fun f hf =>
      fieldFindings_eq_filter (hv f hf)
  unfold validate
  rw [hcollect]
  cases v.collect .bare u with
  | error e => rfl
  | ok found => exact congrArg Except.ok (filter_sorted (c.Leaves ·) found).symm

theorem filter_fieldFindings (hf : ∀ r ∈ f.rules, r.Separate)
    (h : v.fieldFindings c u f = .ok found) :
    found.filter (·.category == .invalidReference) =
      ((f.rules.flatMap (Rule.references v.name (lookup u f.field))).filter (·.Dangling c)).map
        Reference.finding := by
  rw [List.filter_flatMap, List.map_flatMap]
  rcases fieldFindings_cases h with ⟨hnone, rfl⟩ | h
  · rw [hnone]
    rfl
  · have hissues : ((lookup u f.field).issues.map (issueFinding ⟨c, u, f.field, v.name⟩)).filter
        (·.category == .invalidReference) = [] :=
      filter_category (fun _ => category_of_mem_issues) nofun
    exact filter_joined hissues (fun r hr list hlist => Rule.filter_findings (hf r hr) hlist) h

/-- **A validator's findings in the category of references** are about the dangling ones, sorted by
place. -/
theorem filter_validate (hv : v.Separate) (h : v.validate c u = .ok found) :
    found.filter (·.category == .invalidReference) =
      (((v.references u).filter (·.Dangling c)).map Reference.finding).mergeSort fun a b =>
        a.location.before b.location := by
  obtain ⟨all, hall, rfl⟩ := exists_joined_of_validate h
  have hunknown : (v.unknownKeys u).filter (·.category == .invalidReference) = [] :=
    filter_category (fun _ => category_of_mem_unknownKeys) nofun
  have hfields := filter_joined hunknown
    (fun f hf list hlist => filter_fieldFindings (hv f hf) hlist) hall
  rw [filter_sorted, hfields, references, List.filter_flatMap, List.map_flatMap]

end Validator

end UnitLint
