import UnitLint.Proofs.Check.Completeness
import UnitLint.Proofs.Rules.Names
import UnitLint.Rules.Passes

/-! # What a table gives each field

The rules of a field are those that the table has for its key, in order, and the one for its type
(`RuleTable.exact_of_bind`). That is what attaching rules by their keys comes to, since the keys of
the fields are different (`Validator.eq_of_attachAll`); for the same reason the rules for types can be
attached by key (`RuleTable.bindInPasses_eq`). A catalog with more fields gives those that were there
the same rules (`RuleTable.subset_of_extends`). -/

namespace UnitLint

section Binding

variable {φ ψ ε : Type} {bind bind' : φ → Except ε ψ}

/-- What is found is bound in the same way where more is found. -/
theorem Condition.bindFields_mono (hbind : ∀ a b, bind a = .ok b → bind' a = .ok b)
    {condition : Condition φ} {bound : Condition ψ} (h : condition.bindFields bind = .ok bound) :
    condition.bindFields bind' = .ok bound := by
  induction condition generalizing bound with
  | always | hasGroup => exact h
  | present field | equals field _ | flag field =>
    obtain ⟨b, hb, h⟩ := bind_eq_ok_iff.mp h
    exact bind_eq_ok_iff.mpr ⟨b, hbind field b hb, h⟩
  | both first second ihfirst ihsecond =>
    obtain ⟨b, hb, h⟩ := bind_eq_ok_iff.mp h
    obtain ⟨b', hb', h⟩ := bind_eq_ok_iff.mp h
    exact bind_eq_ok_iff.mpr ⟨b, ihfirst hb, bind_eq_ok_iff.mpr ⟨b', ihsecond hb', h⟩⟩
  | negated inner ih =>
    obtain ⟨b, hb, h⟩ := bind_eq_ok_iff.mp h
    exact bind_eq_ok_iff.mpr ⟨b, ih hb, h⟩

theorem Rule.bindFields_mono (hbind : ∀ a b, bind a = .ok b → bind' a = .ok b) (r : Rule φ)
    (bound : Rule ψ) (h : r.bindFields bind = .ok bound) : r.bindFields bind' = .ok bound := by
  cases r with
  | requiredIfNotPresent other | dependsOn other =>
    obtain ⟨b, hb, h⟩ := bind_eq_ok_iff.mp h
    exact bind_eq_ok_iff.mpr ⟨b, hbind other b hb, h⟩
  | conflictsWith others =>
    obtain ⟨bs, hbs, h⟩ := bind_eq_ok_iff.mp h
    exact bind_eq_ok_iff.mpr ⟨bs, mapM_mono hbind hbs, h⟩
  | valuesMust test gate message =>
    obtain ⟨b, hb, h⟩ := bind_eq_ok_iff.mp h
    exact bind_eq_ok_iff.mpr ⟨b, Condition.bindFields_mono hbind hb, h⟩
  | required | allowedValues | hasSuffix | deprecated | canReference | validBoolean
  | validInteger | imageNotAmbiguous | report => exact h

/-- The rule is for the type of a field. -/
def Rule.isTypeRule {φ : Type} : Rule φ → Bool
  | validBoolean | validInteger => true
  | _ => false

theorem Rule.isTypeRule_of_bindFields {r : Rule φ} {bound : Rule ψ}
    (h : r.bindFields bind = .ok bound) : bound.isTypeRule = r.isTypeRule := by
  cases r with
  | requiredIfNotPresent | conflictsWith | dependsOn | valuesMust =>
    obtain ⟨b, -, h⟩ := bind_eq_ok_iff.mp h
    cases h
    rfl
  | required | allowedValues | hasSuffix | deprecated | canReference | validBoolean
  | validInteger | imageNotAmbiguous | report =>
    cases h
    rfl

end Binding

namespace RuleTable

variable {t : RuleTable} {v w : Validator}

/-- The rules that a table has for a key, in order. -/
def rulesFor (t : RuleTable) (key : String) : List (Rule String) :=
  (t.entries.filter (·.1 == key)).flatMap (·.2)

/-- The rules that the type of a field calls for. -/
def typeRules (f : Field) : List (Rule Field) :=
  if f.mode = .boolean then [.validBoolean] else if f.mode = .int then [.validInteger] else []

theorem toList_typeRule? (f : Field) : (typeRule? f).toList = typeRules f := by
  unfold typeRule? typeRules
  cases f.mode <;> rfl

/-- The validator is for the table's unit type, and has the fields that the catalog has for the
table's group, in order. Each has the rules of the table for its key, with what they name found in
the catalog, and then the rule that its type calls for. -/
structure Exact (t : RuleTable) (catalog : Catalog) (v : Validator) : Prop where
  name : v.name = t.unitType.name
  unitType : v.unitType = t.unitType
  fields : v.fields.map (·.field) = catalog.groupFields t.unitType.group
  rules : ∀ f ∈ v.fields, ∃ bound,
    (t.rulesFor f.field.key).mapM (Rule.bindFields (catalog.require t.unitType.group)) =
      .ok bound ∧ f.rules = bound ++ typeRules f.field

section Entries

variable {find : String → Except CatalogError Field}

/-- An attachment is what an entry is bound to. -/
def BindsTo (find : String → Except CatalogError Field) (entry : String × List (Rule String))
    (a : String × List (Rule Field)) : Prop :=
  a.1 = entry.1 ∧ entry.2.mapM (Rule.bindFields find) = .ok a.2

/-- Entries are attached as they are bound. -/
theorem exists_attachments {entries : List (String × List (Rule String))}
    (h : entries.foldlM (attachEntry find) v = .ok w) :
    ∃ attachments, List.Forall₂ (BindsTo find) entries attachments ∧
      Validator.attachAll attachments v = .ok w := by
  induction entries generalizing v with
  | nil => exact ⟨[], List.Forall₂.nil, h⟩
  | cons entry entries ih =>
    obtain ⟨next, hnext, h⟩ := bind_eq_ok_iff.mp h
    obtain ⟨rules, hrules, hattach⟩ := bind_eq_ok_iff.mp hnext
    obtain ⟨attachments, hbound, hall⟩ := ih h
    refine ⟨(entry.1, rules) :: attachments, List.Forall₂.cons ⟨rfl, hrules⟩ hbound, ?_⟩
    exact bind_eq_ok_iff.mpr ⟨next, hattach, hall⟩

/-- The rules that are attached to a key are those of its entries, bound. -/
theorem mapM_attached {entries : List (String × List (Rule String))}
    {attachments : List (String × List (Rule Field))}
    (h : List.Forall₂ (BindsTo find) entries attachments) (key : String) :
    ((entries.filter (·.1 == key)).flatMap (·.2)).mapM (Rule.bindFields find) =
      .ok (Validator.attached attachments key) := by
  unfold Validator.attached
  induction h with
  | nil => rfl
  | @cons entry a entries attachments ha _ ih =>
    rw [List.filter_cons, List.filter_cons, ha.1]
    cases entry.1 == key with
    | false => exact ih
    | true =>
      rw [if_pos rfl, if_pos rfl, List.flatMap_cons, List.flatMap_cons, List.mapM_append, ha.2, ih]
      rfl

end Entries

end RuleTable

/-! ### The two passes -/

namespace Validator

theorem knows_of_attach {v w : Validator} {key : String} {rules : List (Rule Field)}
    (h : v.attach key rules = .ok w) (k : String) : w.knows k = v.knows k := by
  unfold attach at h
  split at h <;> cases h
  have hkeys : ∀ v : Validator, v.knows k = (v.fields.map (·.field)).any (·.key == k) := fun v => by
    rw [knows, List.any_map]
    rfl
  rw [hkeys, hkeys, fields_addRules]

/-- Rules can be attached to keys that the validator knows. -/
theorem exists_attachAll {attachments : List (String × List (Rule Field))} {v : Validator}
    (h : ∀ a ∈ attachments, v.knows a.1 = true) : ∃ w, attachAll attachments v = .ok w := by
  induction attachments generalizing v with
  | nil => exact ⟨v, rfl⟩
  | cons a attachments ih =>
    obtain ⟨ha, hrest⟩ := List.forall_mem_cons.mp h
    have hattach : v.attach a.1 a.2 = .ok { v with fields := addRules a.1 a.2 v.fields } :=
      if_pos ha
    have hknown : ∀ a' ∈ attachments,
        knows { v with fields := addRules a.1 a.2 v.fields } a'.1 = true := fun a' ha' =>
      (knows_of_attach hattach a'.1).trans (hrest a' ha')
    obtain ⟨w, hw⟩ := ih hknown
    exact ⟨w, bind_eq_ok_iff.mpr ⟨_, hattach, hw⟩⟩

end Validator

namespace RuleTable

variable {t : RuleTable} {v w : Validator} {fields : List Field}

theorem bind_eq (catalog : Catalog) (t : RuleTable) :
    t.bind catalog = do return withTypeRules (← t.bindEntries catalog) := by
  rw [RuleTable.bind, bindEntries, bind_assoc]

/-- The rules for types that are attached to a key are those of the fields of the key. -/
theorem attached_typeAttachments (v : Validator) (key : String) :
    Validator.attached (typeAttachments v) key =
      (v.fields.filter (·.field.key == key)).flatMap fun f => (typeRule? f.field).toList := by
  unfold Validator.attached typeAttachments
  induction v.fields with
  | nil => rfl
  | cons f fs ih =>
    rw [List.filterMap_cons, List.filter_cons]
    cases htype : typeRule? f.field <;> cases hkey : f.field.key == key <;> simp [htype, hkey, ih]

/-- What the entries of a table are bound to. -/
theorem exists_of_bindEntries (h : t.bindEntries (Catalog.ofFields fields) = .ok v) :
    ∃ attachments,
      List.Forall₂ (BindsTo ((Catalog.ofFields fields).require t.unitType.group)) t.entries
        attachments ∧
      Validator.attachAll attachments
        (Validator.ofCatalog t.unitType.name t.unitType (Catalog.ofFields fields)) = .ok v := by
  obtain ⟨needed, -, h⟩ := bind_eq_ok_iff.mp h
  exact exists_attachments h

/-- **The second pass** attaches to each field the rule that its type calls for. -/
theorem attachTypeRules_eq {name : String} {unitType : UnitType}
    {attachments : List (String × List (Rule Field))}
    (h : Validator.attachAll attachments
      (Validator.ofCatalog name unitType (Catalog.ofFields fields)) = .ok v) :
    attachTypeRules v = .ok (withTypeRules v) := by
  have hv := Validator.eq_of_attachAll h
  have hknown : ∀ a ∈ typeAttachments v, v.knows a.1 = true := by
    intro a ha
    obtain ⟨f, hf, ha⟩ := List.mem_filterMap.mp ha
    obtain ⟨r, -, rfl⟩ := Option.map_eq_some_iff.mp ha
    exact List.any_eq_true.mpr ⟨f, hf, beq_self_eq_true _⟩
  obtain ⟨w, hw⟩ := Validator.exists_attachAll hknown
  have hboth : Validator.attachAll (attachments ++ typeAttachments v)
      (Validator.ofCatalog name unitType (Catalog.ofFields fields)) = .ok w := by
    rw [Validator.attachAll, List.foldlM_append]
    exact bind_eq_ok_iff.mpr ⟨v, h, hw⟩
  -- no other field has the key of a field, so a field gets no rule but its own
  have htypes : ∀ f ∈ (Catalog.ofFields fields).groupFields unitType.group,
      Validator.attached (typeAttachments v) f.key = (typeRule? f).toList := by
    intro f hf
    have hkeys : (v.fields.map (·.field.key)).Nodup := by
      rw [hv, List.map_map]
      exact Catalog.nodup_groupFields fields unitType.group
    have hmem : ⟨f, Validator.attached attachments f.key⟩ ∈ v.fields := by
      rw [hv]
      exact List.mem_map_of_mem hf
    rw [attached_typeAttachments, filter_eq_singleton hkeys hmem, List.flatMap_singleton]
  refine hw.trans (congrArg Except.ok ?_)
  rw [Validator.eq_of_attachAll hboth, withTypeRules, hv, List.map_map]
  refine congrArg (Validator.mk name unitType) (List.map_congr_left fun f hf => ?_)
  rw [Validator.attached_append, ← hv, htypes f hf]
  rfl

/-- **Both ways of binding** give the same, since no two fields of a catalog have the same name. -/
theorem bindInPasses_eq (fields : List Field) (t : RuleTable) :
    t.bindInPasses (Catalog.ofFields fields) = t.bind (Catalog.ofFields fields) := by
  rw [bind_eq, bindInPasses]
  cases h : t.bindEntries (Catalog.ofFields fields) with
  | error e => rfl
  | ok v =>
    obtain ⟨attachments, -, hattach⟩ := exists_of_bindEntries h
    exact attachTypeRules_eq hattach

/-! ### Exactness -/

theorem exact_of_bind (h : t.bind (Catalog.ofFields fields) = .ok v) :
    t.Exact (Catalog.ofFields fields) v := by
  rw [bind_eq] at h
  obtain ⟨bound, hbound, h⟩ := bind_eq_ok_iff.mp h
  obtain ⟨attachments, hentries, hattach⟩ := exists_of_bindEntries hbound
  obtain rfl := Validator.eq_of_attachAll hattach
  cases h
  refine ⟨rfl, rfl, ?_, fun f hf => ?_⟩
  · rw [withTypeRules, List.map_map, List.map_map]
    exact List.map_id _
  · obtain ⟨g, hg, rfl⟩ := List.mem_map.mp hf
    obtain ⟨field, -, rfl⟩ := List.mem_map.mp hg
    refine ⟨_, mapM_attached hentries field.key, ?_⟩
    show _ ++ (typeRule? field).toList = _ ++ typeRules field
    rw [toList_typeRule?]

/-- Where the table has no rules for types, a field has the one that its type calls for. -/
theorem Exact.filter_isTypeRule {catalog : Catalog} (hv : t.Exact catalog v)
    (ht : ∀ entry ∈ t.entries, ∀ r ∈ entry.2, r.isTypeRule = false) {f : FieldRules}
    (hf : f ∈ v.fields) : f.rules.filter Rule.isTypeRule = typeRules f.field := by
  obtain ⟨bound, hbound, hrules⟩ := hv.rules f hf
  have hnone : bound.filter Rule.isTypeRule = [] := by
    refine List.filter_eq_nil_iff.mpr fun r hr htype => ?_
    obtain ⟨r', hr', hbind⟩ := exists_of_mem_mapM hbound hr
    obtain ⟨entry, hentry, hr'⟩ := List.mem_flatMap.mp hr'
    have hfalse := ht entry (List.mem_of_mem_filter hentry) r' hr'
    rw [Rule.isTypeRule_of_bindFields hbind, hfalse] at htype
    cases htype
  rw [hrules, List.filter_append, hnone, List.nil_append, typeRules]
  split_ifs <;> rfl

end RuleTable

/-! ### More fields -/

/-- **A field of both catalogs** has the same rules. -/
theorem RuleTable.subset_of_extends {t : RuleTable} {v w : Validator} {fields more : List Field}
    (hextends : (Catalog.ofFields more).Extends (Catalog.ofFields fields))
    (hv : t.Exact (Catalog.ofFields fields) v) (hw : t.Exact (Catalog.ofFields more) w) :
    v.fields ⊆ w.fields := by
  intro f hf
  have hfind : ∀ key g, (Catalog.ofFields fields).require t.unitType.group key = .ok g →
      (Catalog.ofFields more).require t.unitType.group key = .ok g := fun key g hg =>
    Catalog.require_eq_ok_iff.mpr (hextends.field?_eq_some (Catalog.require_eq_ok_iff.mp hg))
  have hmem : f.field ∈ (Catalog.ofFields fields).groupFields t.unitType.group :=
    hv.fields ▸ List.mem_map_of_mem hf
  obtain ⟨hfield, hgroup⟩ := List.mem_filter.mp hmem
  have hmore : f.field ∈ w.fields.map (·.field) :=
    hw.fields ▸ List.mem_filter.mpr ⟨hextends f.field hfield, hgroup⟩
  obtain ⟨g, hg, hsame⟩ := List.mem_map.mp hmore
  obtain ⟨bound, hbound, hrules⟩ := hv.rules f hf
  obtain ⟨bound', hbound', hrules'⟩ := hw.rules g hg
  have hbounds : bound' = bound := by
    rw [hsame, mapM_mono (Rule.bindFields_mono hfind) hbound] at hbound'
    exact (Except.ok.inj hbound').symm
  have heq : g = f := by
    cases f
    cases g
    obtain rfl : _ = _ := hsame
    rw [hbounds] at hrules'
    exact congrArg _ (hrules'.trans hrules.symm)
  exact heq ▸ hg

end UnitLint
