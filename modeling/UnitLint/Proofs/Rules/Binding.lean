import UnitLint.Proofs.Check.Scope
import UnitLint.Rules.Builtin

/-! # What a table is bound to

A validator that a table is bound to has the fields of the table's group, and each of its rules is
one that the table has for the key of the field, or the one that the mode of the field calls for
(`RuleTable.builds_of_bind`). Every key is looked up among the fields of the table's own group, so
the rules stay within the group that the validator is for (`RuleTable.within_of_bind`). The
conditions of the built-in tables ask for no other group. -/

namespace UnitLint

variable {φ ψ ε : Type} {p : φ → Prop} {q : ψ → Prop} {group : String}

/-! ### References -/

theorem Catalog.require_eq_ok_iff {catalog : Catalog} {key : String} {f : Field} :
    catalog.require group key = .ok f ↔ catalog.field? group key = some f := by
  unfold require
  cases catalog.field? group key with
  | none => simp
  | some g => simp

theorem Catalog.require_eq_error_iff {catalog : Catalog} {key : String} {e : CatalogError} :
    catalog.require group key = .error e ↔
      catalog.field? group key = none ∧ e = .unknownField group key := by
  unfold require
  cases catalog.field? group key with
  | none => simp [eq_comm]
  | some f => simp

theorem Catalog.isOf_of_require {catalog : Catalog} {key : String} {f : Field}
    (h : catalog.require group key = .ok f) : f.IsOf group := by
  have hfor := List.find?_some (require_eq_ok_iff.mp h)
  simp only [Field.isFor, Bool.and_eq_true, beq_iff_eq] at hfor
  exact hfor.1

variable {bind : φ → Except ε ψ}

/-- References that are found keep a condition within its group. -/
theorem Condition.within_of_bindFields (hbind : ∀ a b, p a → bind a = .ok b → q b)
    {condition : Condition φ} {bound : Condition ψ} (hwithin : condition.Within p group)
    (h : condition.bindFields bind = .ok bound) : bound.Within q group := by
  induction condition generalizing bound with
  | always =>
    cases h
    trivial
  | present field | equals field _ | flag field =>
    obtain ⟨b, hb, h⟩ := bind_eq_ok_iff.mp h
    cases h
    exact hbind field b hwithin hb
  | hasGroup name =>
    cases h
    exact hwithin
  | both first second ihfirst ihsecond =>
    obtain ⟨b, hb, h⟩ := bind_eq_ok_iff.mp h
    obtain ⟨b', hb', h⟩ := bind_eq_ok_iff.mp h
    cases h
    exact ⟨ihfirst hwithin.1 hb, ihsecond hwithin.2 hb'⟩
  | negated inner ih =>
    obtain ⟨b, hb, h⟩ := bind_eq_ok_iff.mp h
    cases h
    show b.Within q group
    exact ih hwithin hb

/-- References that are found keep a rule within its group. -/
theorem Rule.within_of_bindFields (hbind : ∀ a b, p a → bind a = .ok b → q b) {r : Rule φ}
    {bound : Rule ψ} (hwithin : r.Within p group) (h : r.bindFields bind = .ok bound) :
    bound.Within q group := by
  cases r with
  | requiredIfNotPresent other | dependsOn other =>
    obtain ⟨b, hb, h⟩ := bind_eq_ok_iff.mp h
    cases h
    exact hbind other b hwithin hb
  | conflictsWith others =>
    obtain ⟨bs, hbs, h⟩ := bind_eq_ok_iff.mp h
    cases h
    intro b hb
    obtain ⟨other, hother, hfound⟩ := exists_of_mem_mapM hbs hb
    exact hbind other b (hwithin other hother) hfound
  | valuesMust test gate message =>
    obtain ⟨b, hb, h⟩ := bind_eq_ok_iff.mp h
    cases h
    exact Condition.within_of_bindFields hbind hwithin hb
  | required | allowedValues | hasSuffix | deprecated | canReference | validBoolean | validInteger |
      imageNotAmbiguous | report =>
    cases h
    trivial

/-! ### Validators -/

namespace Validator

theorem fields_addRules (key : String) (rules : List (Rule Field)) (fs : List FieldRules) :
    (addRules key rules fs).map (·.field) = fs.map (·.field) := by
  induction fs with
  | nil => rfl
  | cons g fs ih =>
    unfold addRules
    split
    · rfl
    · rw [List.map_cons, List.map_cons, ih]

/-- A field with rules added is a field as it was, or the first of the key with the rules after its
own. -/
theorem mem_addRules {key : String} {rules : List (Rule Field)} {fs : List FieldRules}
    {f : FieldRules} (h : f ∈ addRules key rules fs) :
    f ∈ fs ∨ ∃ g, fs.find? (·.field.key == key) = some g ∧
      f = { g with rules := g.rules ++ rules } := by
  induction fs with
  | nil => cases h
  | cons g fs ih =>
    unfold addRules at h
    rw [List.find?_cons]
    cases hkey : g.field.key == key with
    | true =>
      rw [hkey, if_pos rfl] at h
      rcases List.mem_cons.mp h with rfl | h
      · exact Or.inr ⟨g, rfl, rfl⟩
      · exact Or.inl (List.mem_cons_of_mem g h)
    | false =>
      rw [hkey, if_neg Bool.false_ne_true] at h
      rcases List.mem_cons.mp h with rfl | h
      · exact Or.inl List.mem_cons_self
      · rcases ih h with hf | ⟨g', hg', rfl⟩
        · exact Or.inl (List.mem_cons_of_mem g hf)
        · exact Or.inr ⟨g', hg', rfl⟩

end Validator

/-! ### Tables -/

namespace RuleTable

variable {catalog : Catalog} {t : RuleTable} {v w : Validator}

/-- A mode calls for a rule on booleans or on integers. -/
theorem eq_of_typeRule? {f : Field} {r : Rule Field} (h : typeRule? f = some r) :
    r = .validBoolean ∨ r = .validInteger := by
  unfold typeRule? at h
  split at h <;> simp_all

/-- The rule is one that the table has for the key of the field, with its references found. -/
def Attaches (t : RuleTable) (catalog : Catalog) (f : Field) (r : Rule Field) : Prop :=
  ∃ entry ∈ t.entries, catalog.field? t.unitType.group entry.1 = some f ∧
    ∃ r' ∈ entry.2, r'.bindFields (catalog.require t.unitType.group) = .ok r

/-- The validator has the fields that the catalog has for the table's group, and no rules but those
of the table and those that modes call for. -/
structure Builds (t : RuleTable) (catalog : Catalog) (v : Validator) : Prop where
  unitType : v.unitType = t.unitType
  fields : v.fields.map (·.field) = catalog.groupFields t.unitType.group
  rules : ∀ f ∈ v.fields, ∀ r ∈ f.rules,
    t.Attaches catalog f.field r ∨ typeRule? f.field = some r

theorem Builds.field?_eq (hv : t.Builds catalog v) {key : String} {g : FieldRules}
    (h : v.fields.find? (·.field.key == key) = some g) :
    catalog.field? t.unitType.group key = some g.field := by
  have hfirst : (v.fields.map (·.field)).find? (·.key == key) = some g.field := by
    rw [List.find?_map]
    exact congrArg (Option.map (·.field)) h
  rw [hv.fields, Catalog.groupFields, List.find?_filter] at hfirst
  have hfor : Field.isFor t.unitType.group key =
      fun f => decide ((f.group == t.unitType.group) = true ∧ (f.key == key) = true) := by
    funext f
    rw [Field.isFor, Bool.decide_and, Bool.decide_eq_true, Bool.decide_eq_true]
  rw [Catalog.field?, hfor, hfirst]

theorem builds_ofCatalog (t : RuleTable) (catalog : Catalog) :
    t.Builds catalog (Validator.ofCatalog t.unitType.name t.unitType catalog) := by
  refine ⟨rfl, ?_, fun f hf r hr => ?_⟩
  · unfold Validator.ofCatalog
    rw [List.map_map]
    exact List.map_id _
  · obtain ⟨field, -, rfl⟩ := List.mem_map.mp hf
    cases hr

theorem builds_of_attachEntry (hv : t.Builds catalog v) {entry : String × List (Rule String)}
    (hentry : entry ∈ t.entries)
    (h : attachEntry (catalog.require t.unitType.group) v entry = .ok w) : t.Builds catalog w := by
  obtain ⟨rules, hrules, h⟩ := bind_eq_ok_iff.mp h
  unfold Validator.attach at h
  split at h <;> cases h
  refine ⟨hv.unitType, (Validator.fields_addRules ..).trans hv.fields, fun f hf r hr => ?_⟩
  rcases Validator.mem_addRules hf with hf | ⟨g, hg, rfl⟩
  · exact hv.rules f hf r hr
  · rcases List.mem_append.mp hr with hr | hr
    · exact hv.rules g (List.mem_of_find?_eq_some hg) r hr
    · have hfirst := hv.field?_eq hg
      exact Or.inl ⟨entry, hentry, hfirst, exists_of_mem_mapM hrules hr⟩

theorem builds_withTypeRules (hv : t.Builds catalog v) : t.Builds catalog (withTypeRules v) := by
  refine ⟨hv.unitType, ?_, fun f hf r hr => ?_⟩
  · rw [← hv.fields]
    exact List.map_map ..
  · obtain ⟨g, hg, rfl⟩ := List.mem_map.mp hf
    rcases List.mem_append.mp hr with hr | hr
    · exact hv.rules g hg r hr
    · exact Or.inr (Option.mem_toList.mp hr)

/-- **What a table is bound to** has every field of the group, each with rules of the table for its
key, and the one that its mode calls for. -/
theorem builds_of_bind (h : t.bind catalog = .ok v) : t.Builds catalog v := by
  obtain ⟨needed, -, h⟩ := bind_eq_ok_iff.mp h
  obtain ⟨bound, hbound, h⟩ := bind_eq_ok_iff.mp h
  cases h
  refine builds_withTypeRules (foldlM_keeps (fun entry hentry v w hv hattach => ?_)
    (builds_ofCatalog t catalog) hbound)
  exact builds_of_attachEntry hv hentry hattach

/-! ### Groups -/

/-- The conditions of the table ask for no group but the one that it is for. -/
def Within (t : RuleTable) : Prop :=
  ∀ entry ∈ t.entries, ∀ r ∈ entry.2, r.Within (fun _ => True) t.unitType.group

/-- **A validator that a table is bound to** is for the table's unit type, and stays within its
group. -/
theorem within_of_bind (ht : t.Within) (h : t.bind catalog = .ok v) :
    v.unitType = t.unitType ∧ v.Within := by
  have hbuilds := builds_of_bind h
  have hgroup : v.group = t.unitType.group := by rw [Validator.group, hbuilds.unitType]
  refine ⟨hbuilds.unitType, ⟨fun f hf => ?_, fun f hf r hr => ?_⟩⟩
  · have hmem : f.field ∈ catalog.groupFields t.unitType.group := by
      rw [← hbuilds.fields]
      exact List.mem_map_of_mem hf
    rw [hgroup]
    exact beq_iff_eq.mp (List.mem_filter.mp hmem).2
  · rw [hgroup]
    rcases hbuilds.rules f hf r hr with ⟨entry, hentry, -, r', hr', hbind⟩ | htype
    · exact Rule.within_of_bindFields (fun _ _ _ hfound => Catalog.isOf_of_require hfound)
        (ht entry hentry r' hr') hbind
    · rcases eq_of_typeRule? htype with rfl | rfl <;> trivial

/-- **The built-in tables stay within their groups.** -/
theorem within_of_mem_builtin {t : RuleTable} (h : t ∈ builtin) : t.Within := by
  unfold builtin at h
  simp only [List.mem_cons, List.not_mem_nil, or_false] at h
  rcases h with rfl | rfl | rfl | rfl | rfl | rfl | rfl <;>
    simp [Within, container, volume, kube, network, image, build, pod, Rule.Within,
      Condition.Within, imageUnits, networkUnits, volumeUnits, pullPolicies, publishedPorts]

end RuleTable

end UnitLint
