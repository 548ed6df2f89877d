import UnitLint.Proofs.Catalog.Fields
import UnitLint.Proofs.Rules.Binding

/-! # What a table names

Binding a table looks up keys, one after another: those that are needed before any rule is bound, and
then for each entry those that its rules name and its own (`RuleTable.lookups`). It fails as these
lookups do (`RuleTable.failAlike_bind`). -/

namespace UnitLint

/-! ### Names -/

section Names

variable {φ ψ ε : Type} {bind : φ → Except ε ψ}

/-- The fields that a condition names, in order. -/
def Condition.names {φ : Type} : Condition φ → List φ
  | present field | equals field _ | flag field => [field]
  | both first second => first.names ++ second.names
  | negated inner => inner.names
  | always | hasGroup _ => []

/-- The fields that a rule names, in order. -/
def Rule.names {φ : Type} : Rule φ → List φ
  | requiredIfNotPresent other | dependsOn other => [other]
  | conflictsWith others => others
  | valuesMust _ gate _ => gate.names
  | required | allowedValues _ | hasSuffix _ | deprecated | canReference _ | validBoolean
  | validInteger | imageNotAmbiguous | report _ _ => []

theorem Condition.mapM_names (condition : Condition φ) :
    condition.names.mapM bind = do return (← condition.bindFields bind).names := by
  induction condition with
  | always | hasGroup => rfl
  | present field | equals field _ | flag field =>
    rw [names, bindFields, List.mapM_cons]
    cases bind field <;> rfl
  | both first second ihfirst ihsecond =>
    rw [names, bindFields, List.mapM_append, ihfirst, ihsecond]
    cases first.bindFields bind with
    | error e => rfl
    | ok b => cases second.bindFields bind <;> rfl
  | negated inner ih =>
    rw [names, bindFields, ih]
    cases inner.bindFields bind <;> rfl

/-- **Binding a rule** looks up what it names, in order. -/
theorem Rule.mapM_names (r : Rule φ) :
    r.names.mapM bind = do return (← r.bindFields bind).names := by
  cases r with
  | requiredIfNotPresent other | dependsOn other =>
    rw [names, bindFields, List.mapM_cons]
    cases bind other <;> rfl
  | conflictsWith others =>
    rw [names, bindFields]
    cases others.mapM bind <;> rfl
  | valuesMust test gate message =>
    rw [names, bindFields, Condition.mapM_names]
    cases gate.bindFields bind <;> rfl
  | required | allowedValues | hasSuffix | deprecated | canReference | validBoolean
  | validInteger | imageNotAmbiguous | report => rfl

end Names

/-! ### Tables -/

namespace RuleTable

variable {catalog : Catalog} {t : RuleTable} {v : Validator}

/-- The keys that an entry names: those that its rules name, and its own. -/
def entryNames (entry : String × List (Rule String)) : List String :=
  entry.2.flatMap Rule.names ++ [entry.1]

/-- The keys that a table names, as arguments of rules or as keys that rules are attached to. -/
def names (t : RuleTable) : List String := t.entries.flatMap entryNames

/-- The keys that binding a table looks up, in order. -/
def lookups (t : RuleTable) : List String := t.needed ++ t.names

/-- The fields that the rules of a validator name are in the catalog, and so are its own. -/
theorem mem_fields_of_bind (h : t.bind catalog = .ok v) {f : FieldRules} (hf : f ∈ v.fields) :
    f.field ∈ catalog.fields ∧ ∀ r ∈ f.rules, ∀ g ∈ r.names, g ∈ catalog.fields := by
  have hv := builds_of_bind h
  have hmem : f.field ∈ catalog.groupFields t.unitType.group :=
    hv.fields ▸ List.mem_map_of_mem hf
  refine ⟨List.mem_of_mem_filter hmem, fun r hr g hg => ?_⟩
  rcases hv.rules f hf r hr with ⟨entry, -, -, r', -, hbind⟩ | htype
  · have hnames : r'.names.mapM (catalog.require t.unitType.group) = .ok r.names := by
      rw [Rule.mapM_names, hbind]
      rfl
    obtain ⟨key, -, hkey⟩ := exists_of_mem_mapM hnames hg
    exact List.mem_of_find?_eq_some (Catalog.require_eq_ok_iff.mp hkey)
  · rcases eq_of_typeRule? htype with rfl | rfl <;> cases hg

theorem Builds.knows_eq (hv : t.Builds catalog v) (key : String) :
    v.knows key = (catalog.field? t.unitType.group key).isSome := by
  rw [← Catalog.any_groupFields, ← hv.fields, List.any_map]
  rfl

theorem failAlike_attachEntry (hv : t.Builds catalog v) (entry : String × List (Rule String)) :
    FailAlike (attachEntry (catalog.require t.unitType.group) v entry)
      ((entryNames entry).mapM (catalog.require t.unitType.group)) := by
  have hrules : FailAlike (entry.2.mapM (Rule.bindFields (catalog.require t.unitType.group)))
      ((entry.2.flatMap Rule.names).mapM (catalog.require t.unitType.group)) := by
    refine failAlike_mapM_flatMap fun r _ => ?_
    rw [Rule.mapM_names]
    exact (failAlike_map _ _).symm
  have hattach : ∀ rules, FailAlike (v.attach entry.1 rules)
      ([entry.1].mapM (catalog.require t.unitType.group)) := by
    intro rules
    have hgroup : v.group = t.unitType.group := congrArg UnitType.group hv.unitType
    rw [Validator.attach, hv.knows_eq, hgroup, List.mapM_cons, List.mapM_nil, Catalog.require]
    cases catalog.field? t.unitType.group entry.1 with
    | none => exact failAlike_error _
    | some f => exact failAlike_ok _ _
  rw [attachEntry, entryNames, List.mapM_append]
  exact hrules.bind fun rules _ => (hattach rules).trans (failAlike_map _ _).symm

/-- **Binding a table** fails as the lookups of its keys do. -/
theorem failAlike_bind (catalog : Catalog) (t : RuleTable) :
    FailAlike (t.bind catalog) (t.lookups.mapM (catalog.require t.unitType.group)) := by
  have hentries : FailAlike
      (t.entries.foldlM (attachEntry (catalog.require t.unitType.group))
        (Validator.ofCatalog t.unitType.name t.unitType catalog))
      (t.names.mapM (catalog.require t.unitType.group)) :=
    failAlike_foldlM_flatMap (fun entry hentry v w hv h => builds_of_attachEntry hv hentry h)
      (fun entry _ v hv => failAlike_attachEntry hv entry) (builds_ofCatalog t catalog)
  have hneeded : FailAlike (t.needed.mapM (catalog.require t.unitType.group))
      (t.needed.mapM (catalog.require t.unitType.group)) := fun _ => Iff.rfl
  rw [RuleTable.bind, lookups, List.mapM_append]
  exact hneeded.bind fun _ _ =>
    ((failAlike_map _ withTypeRules).trans hentries).trans (failAlike_map _ _).symm

end RuleTable

end UnitLint
