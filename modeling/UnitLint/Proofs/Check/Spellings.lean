import UnitLint.Proofs.Check.Booleans
import UnitLint.Proofs.Check.Scope
import UnitLint.Proofs.Check.Views
import UnitLint.Proofs.Rules.Names

/-! # Rules and spellings

Where a boolean is spelled in another way, a field still has a value in the same place
(`Resolution.Alike`). So conditions hold as before (`Condition.holds_alike`), and rules find what they
found (`Rule.findings_alike`), unless they compare the text with others, or take a boolean view of
the field and the two spellings are read differently. -/

namespace UnitLint

/-! ### What is found -/

/-- The same, or one value that is a boolean in both; if `viewed`, they are read alike. -/
inductive Resolution.Alike (viewed : Prop) : Resolution → Resolution → Prop where
  | same (r : Resolution) : Alike viewed r r
  | spelled (v : Value) (text : String) (hold : isBoolean v.text = true)
      (hnew : isBoolean text = true) (hread : viewed → isTrue v.text = isTrue text) :
      Alike viewed ⟨[v], []⟩ ⟨[{ v with text := text }], []⟩

namespace Resolution.Alike

variable {viewed : Prop} {r r' : Resolution} (h : Alike viewed r r')
include h

theorem issues : r.issues = r'.issues := by cases h <;> rfl

theorem length : r.values.length = r'.values.length := by cases h <;> rfl

theorem found : r.found = r'.found := by cases h <;> rfl

theorem head? : r.values.head?.map (·.location) = r'.values.head?.map (·.location) := by
  cases h <;> rfl

theorem truthy (hviewed : viewed) : r.truthy = r'.truthy := by
  cases h with
  | same => rfl
  | spelled v text hold hnew hread => exact congrArg Except.ok (hread hviewed)

/-- The values that are no booleans are the same. -/
theorem filter_isBoolean :
    r.values.filter (fun v => !isBoolean v.text) =
      r'.values.filter (fun v => !isBoolean v.text) := by
  cases h with
  | same => rfl
  | spelled v text hold hnew => simp [hold, hnew]

end Resolution.Alike

/-! ### What is compared -/

/-- The test looks at more of the values than what they are read as only if `p`. -/
def ValueTest.ComparesOnly (p : Prop) : ValueTest → Prop
  | positive | publishedPorts | exposedPorts => p
  | absent | present | atMostOne | isTrue | isNotTrue => True

/-- The condition compares values only of fields that `p` holds of. -/
def Condition.ComparesOnly (p : Field → Prop) : Condition Field → Prop
  | equals field _ => p field
  | both first second => first.ComparesOnly p ∧ second.ComparesOnly p
  | negated inner => inner.ComparesOnly p
  | always | present _ | flag _ | hasGroup _ => True

/-- The rule for the field `own` compares values only of fields that `p` holds of. -/
def Rule.ComparesOnly (p : Field → Prop) (own : Field) : Rule Field → Prop
  | allowedValues _ | hasSuffix _ | canReference _ | imageNotAmbiguous | validInteger => p own
  | valuesMust test gate _ => test.ComparesOnly (p own) ∧ gate.ComparesOnly p
  | required | requiredIfNotPresent _ | conflictsWith _ | dependsOn _ | deprecated | validBoolean
  | report _ _ => True

instance (p : Prop) [Decidable p] (test : ValueTest) : Decidable (test.ComparesOnly p) := by
  cases test <;> unfold ValueTest.ComparesOnly <;> infer_instance

/-- Whether a condition compares values only of some fields follows from its parts. -/
instance Condition.decidableComparesOnly (p : Field → Prop) [DecidablePred p] :
    (condition : Condition Field) → Decidable (condition.ComparesOnly p)
  | equals field _ => inferInstanceAs (Decidable (p field))
  | both first second =>
    have := first.decidableComparesOnly p
    have := second.decidableComparesOnly p
    inferInstanceAs (Decidable (first.ComparesOnly p ∧ second.ComparesOnly p))
  | negated inner => inner.decidableComparesOnly p
  | always | present _ | flag _ | hasGroup _ => .isTrue trivial

instance (p : Field → Prop) [DecidablePred p] (own : Field) :
    (r : Rule Field) → Decidable (r.ComparesOnly p own)
  | .allowedValues _ | .hasSuffix _ | .canReference _ | .imageNotAmbiguous | .validInteger =>
    inferInstanceAs (Decidable (p own))
  | .valuesMust test gate _ =>
    inferInstanceAs (Decidable (test.ComparesOnly (p own) ∧ gate.ComparesOnly p))
  | .required | .requiredIfNotPresent _ | .conflictsWith _ | .dependsOn _ | .deprecated
  | .validBoolean | .report _ _ => .isTrue trivial

/-! ### Where keys are -/

/-- The place of a group, and its keys with their places. -/
def Group.outline (g : Group) : Location × List (String × Location) :=
  (g.location, g.entries.map fun e => (e.key, e.location))

theorem Group.map_entriesOf (g : Group) (key : String) :
    (g.entriesOf key).map (fun e => (e.key, e.location)) = g.outline.2.filter (·.1 == key) := by
  rw [outline, List.filter_map]
  rfl

section Outline

variable {u u' : UnitFile} {group : String}
  (h : (u.group? group).map Group.outline = (u'.group? group).map Group.outline)
include h

theorem UnitFile.hasGroup_of_outline : u.hasGroup group = u'.hasGroup group := by
  rw [hasGroup, hasGroup, ← Option.isSome_map, h, Option.isSome_map]

theorem UnitFile.hasKey_of_outline (key : String) : u.hasKey group key = u'.hasKey group key := by
  have hkey : ∀ u : UnitFile, u.hasKey group key =
      ((u.group? group).map Group.outline).any fun o => !(o.2.filter (·.1 == key)).isEmpty := by
    intro u
    unfold hasKey valuesOf Group.valuesOf
    cases u.group? group with
    | none => rfl
    | some g =>
      show (!((g.entriesOf key).map (·.value)).isEmpty) = !(g.outline.2.filter (·.1 == key)).isEmpty
      rw [← Group.map_entriesOf, List.isEmpty_map, List.isEmpty_map]
  rw [hkey, hkey, h]

theorem Check.anchor_of_outline {c c' : Context} {f : Field} (hf : f.group = group)
    {validator : String} : anchor ⟨c, u, f, validator⟩ = anchor ⟨c', u', f, validator⟩ := by
  have hanchor : ∀ (c : Context) (u : UnitFile), anchor ⟨c, u, f, validator⟩ =
      match (u.group? group).map Group.outline with
      | none => .wholeFile
      | some o => ((o.2.filter (·.1 == f.key)).getLast?.map (·.2)).getD o.1 := by
    intro c u
    unfold anchor
    dsimp only
    rw [hf]
    cases u.group? group with
    | none => rfl
    | some g =>
      have hlast : (g.outline.2.filter (·.1 == f.key)).getLast? =
          (g.entriesOf f.key).getLast?.map fun e => (e.key, e.location) := by
        rw [← Group.map_entriesOf, List.getLast?_map]
      dsimp only [Option.map_some]
      rw [hlast]
      cases (g.entriesOf f.key).getLast? <;> rfl
  rw [hanchor, hanchor, h]

theorem Validator.unknownKeys_of_outline {v : Validator} (hv : v.group = group) :
    v.unknownKeys u = v.unknownKeys u' := by
  have hunknown : ∀ u : UnitFile, v.unknownKeys u =
      match (u.group? group).map Group.outline with
      | none => []
      | some o => (o.2.filter fun e => !v.knows e.1).map fun e =>
          ⟨v.name, .unknownKey, e.2, "unsupported key '" ++ e.1 ++ "' in group " ++ v.group⟩ := by
    intro u
    unfold unknownKeys
    rw [hv]
    cases u.group? group with
    | none => rfl
    | some g =>
      show _ = (g.outline.2.filter _).map _
      rw [Group.outline, List.filter_map, List.map_map]
      rfl
  rw [hunknown, hunknown, h]

end Outline

/-! ### Checks -/

/-- The unit files have the same keys in the same places. Of the fields that are known, those that
are compared have the same values, and the others resolve alike. -/
structure UnitFile.Alike (known compared viewed : Field → Prop) (u u' : UnitFile) : Prop where
  outline : ∀ group, (u.group? group).map Group.outline = (u'.group? group).map Group.outline
  valuesOf : ∀ f, known f → compared f → u.valuesOf f.group f.key = u'.valuesOf f.group f.key
  lookup : ∀ f, known f → Resolution.Alike (viewed f) (lookup u f) (lookup u' f)

section Checks

variable {known compared viewed : Field → Prop} {u u' : UnitFile}
  (h : u.Alike known compared viewed u') {c c' : Context} (hc : c.Agrees c')
include h

theorem UnitFile.Alike.lookup_eq {f : Field} (hf : known f) (hcompared : compared f) :
    UnitLint.lookup u f = UnitLint.lookup u' f := by
  rw [UnitLint.lookup, UnitLint.lookup, h.valuesOf f hf hcompared]

theorem ValueTest.passes_alike {test : ValueTest} {f : Field} (hf : known f)
    (hcompares : test.ComparesOnly (compared f)) (hviews : test.ViewsOnly (viewed f)) :
    test.passes (lookup u f) = test.passes (lookup u' f) := by
  have halike := h.lookup f hf
  cases test with
  | absent | present => rw [passes, passes, halike.found]
  | atMostOne => rw [passes, passes, halike.length]
  | isTrue | isNotTrue => rw [passes, passes, halike.truthy hviews]
  | positive | publishedPorts | exposedPorts => rw [h.lookup_eq hf hcompares]

theorem Condition.holds_alike {condition : Condition Field}
    (hknown : ∀ f ∈ condition.names, known f) (hcompares : condition.ComparesOnly compared)
    (hviews : condition.ViewsOnly viewed) : condition.holds u = condition.holds u' := by
  induction condition with
  | always => rfl
  | present field =>
    rw [holds, holds, (h.lookup field (hknown field (List.mem_singleton_self _))).found]
  | equals field texts =>
    rw [holds, holds, h.lookup_eq (hknown field (List.mem_singleton_self _)) hcompares]
  | flag field =>
    rw [holds, holds, (h.lookup field (hknown field (List.mem_singleton_self _))).truthy hviews]
  | hasGroup name => rw [holds, holds, UnitFile.hasGroup_of_outline (h.outline name)]
  | both first second ihfirst ihsecond =>
    obtain ⟨hfirst, hsecond⟩ := List.forall_mem_append.mp hknown
    rw [holds, holds, ihfirst hfirst hcompares.1 hviews.1, ihsecond hsecond hcompares.2 hviews.2]
  | negated inner ih => rw [holds, holds, ih hknown hcompares hviews]

include hc

/-- **What a rule finds** does not depend on how booleans are spelled that it reads alike. -/
theorem Rule.findings_alike {f : Field} (hf : known f) {validator : String} {r : Rule Field}
    (hknown : ∀ g ∈ r.names, known g) (hcompares : r.ComparesOnly compared f)
    (hviews : r.ViewsOnly viewed f) :
    r.findings ⟨c, u, f, validator⟩ (lookup u f) = r.findings ⟨c', u', f, validator⟩ (lookup u' f) := by
  have halike := h.lookup f hf
  have hplace : Check.anchor ⟨c, u, f, validator⟩ = Check.anchor ⟨c', u', f, validator⟩ :=
    Check.anchor_of_outline (h.outline f.group) rfl
  have hanchor : ∀ category message,
      Check.findingAtAnchor ⟨c, u, f, validator⟩ category message =
        Check.findingAtAnchor ⟨c', u', f, validator⟩ category message := by
    intro category message
    unfold Check.findingAtAnchor
    rw [hplace]
    rfl
  have hpresent : ∀ other, known other →
      Check.isPresent ⟨c, u, f, validator⟩ other = Check.isPresent ⟨c', u', f, validator⟩ other :=
    fun other hother => (h.lookup other hother).found
  cases r with
  | required => simp only [findings, hanchor, halike.found]
  | requiredIfNotPresent other =>
    simp only [findings, hanchor, halike.found,
      hpresent other (hknown other (List.mem_singleton_self _))]
  | conflictsWith others =>
    have hfilter : others.filter (Check.isPresent ⟨c, u, f, validator⟩) =
        others.filter (Check.isPresent ⟨c', u', f, validator⟩) :=
      List.filter_congr fun other hother => hpresent other (hknown other hother)
    simp only [findings, hanchor, halike.found, hfilter]
  | dependsOn other =>
    simp only [findings, hanchor, halike.found,
      hpresent other (hknown other (List.mem_singleton_self _))]
  | deprecated =>
    simp only [findings, hanchor, UnitFile.hasKey_of_outline (h.outline f.group)]
  | valuesMust test gate message =>
    simp only [findings, Condition.holds_alike h hknown hcompares.2 hviews.2,
      ValueTest.passes_alike h hf hcompares.1 hviews.1, halike.head?, hplace]
    rfl
  | validBoolean =>
    simp only [findings, Check.eachValue, halike.filter_isBoolean]
    rfl
  | validInteger =>
    simp only [findings, h.lookup_eq hf hcompares, h.valuesOf f hf hcompares]
    rfl
  | canReference types =>
    have hmissing : ∀ v, Check.missingUnit? ⟨c, u, f, validator⟩ types v =
        Check.missingUnit? ⟨c', u', f, validator⟩ types v := Check.missingUnit?_congr hc types
    simp only [findings, h.lookup_eq hf hcompares, hmissing]
    rfl
  | allowedValues | hasSuffix | imageNotAmbiguous =>
    rw [h.lookup_eq hf hcompares]
    rfl
  | report category message => simp only [findings, hanchor]

/-! ### Validators -/

namespace Validator

variable {v : Validator}

theorem fieldFindings_alike {f : FieldRules} (hf : known f.field)
    (hrules : ∀ r ∈ f.rules, (∀ g ∈ r.names, known g) ∧ r.ComparesOnly compared f.field ∧
      r.ViewsOnly viewed f.field) :
    v.fieldFindings c u f = v.fieldFindings c' u' f := by
  have hfound : f.rules.mapM (Rule.findings ⟨c, u, f.field, v.name⟩ (lookup u f.field)) =
      f.rules.mapM (Rule.findings ⟨c', u', f.field, v.name⟩ (lookup u' f.field)) :=
    mapM_congr fun r hr =>
      Rule.findings_alike h hc hf (hrules r hr).1 (hrules r hr).2.1 (hrules r hr).2.2
  unfold fieldFindings
  dsimp only
  rw [UnitFile.hasKey_of_outline (h.outline v.group), hfound, (h.lookup f.field hf).issues]
  rfl

/-- **What a validator finds** does not depend on how booleans are spelled that it reads alike. -/
theorem validate_alike (hfields : ∀ f ∈ v.fields, known f.field ∧
      ∀ r ∈ f.rules, (∀ g ∈ r.names, known g) ∧ r.ComparesOnly compared f.field ∧
        r.ViewsOnly viewed f.field) :
    v.validate c u = v.validate c' u' := by
  have hfound : v.fields.mapM (v.fieldFindings c u) = v.fields.mapM (v.fieldFindings c' u') :=
    mapM_congr fun f hf => fieldFindings_alike h hc (hfields f hf).1 (hfields f hf).2
  unfold validate collect
  rw [hfound, unknownKeys_of_outline (h.outline v.group) rfl]

end Validator

end Checks

end UnitLint
