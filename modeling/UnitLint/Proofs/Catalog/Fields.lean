import Mathlib.Data.List.Nodup
import UnitLint.Catalog.Builtin
import UnitLint.Proofs.Distinct

/-! # The fields of a catalog

The field that a catalog made of a list has for a group and key is the last one of the list
(`Catalog.field?_ofFields`), and the catalog has no other for them (`Catalog.distinct_ofFields`):
its fields are for the groups and keys of the list, each once, in the order of their first mention
(`Catalog.map_name_ofFields`). A list without repetitions is the catalog that is made of it
(`Catalog.ofFields_of_nodup`), as is the list of the built-in catalog (`Catalog.builtin_eq`). -/

namespace UnitLint

/-- The group and key of a field. -/
def Field.name (f : Field) : String × String := (f.group, f.key)

theorem Field.isFor_iff {f : Field} {group key : String} :
    f.isFor group key = true ↔ f.group = group ∧ f.key = key := by
  rw [isFor, Bool.and_eq_true, beq_iff_eq, beq_iff_eq]

theorem Field.isFor_iff_name {f : Field} {group key : String} :
    f.isFor group key = true ↔ f.name = (group, key) := by
  rw [isFor_iff, name, Prod.mk.injEq]

namespace Catalog

theorem find?_put (f : Field) (fs : List Field) (group key : String) :
    (put f fs).find? (·.isFor group key) =
      if f.isFor group key then some f else fs.find? (·.isFor group key) := by
  induction fs with
  | nil =>
    rw [put, List.find?_cons]
    cases f.isFor group key <;> rfl
  | cons g fs ih =>
    rw [put]
    split_ifs with hreplaced hf hf
    · rw [List.find?_cons, hf]
    · -- the field that goes is for the group and key of `f`, which are others
      have hg : g.isFor group key = false := by
        rw [Field.isFor_iff] at hreplaced
        rwa [Field.isFor, hreplaced.1, hreplaced.2, ← Field.isFor, ← Bool.not_eq_true]
      rw [List.find?_cons, List.find?_cons, hg, Bool.eq_false_iff.mpr hf]
    · have hg : g.isFor group key = false := by
        obtain ⟨rfl, rfl⟩ := Field.isFor_iff.mp hf
        exact Bool.eq_false_iff.mpr hreplaced
      rw [List.find?_cons, hg, ih, if_pos hf]
    · rw [List.find?_cons, List.find?_cons, ih, if_neg hf]

/-- **The last field counts** of those that a catalog is made of. -/
theorem field?_ofFields (fields : List Field) (group key : String) :
    (ofFields fields).field? group key = (fields.filter (·.isFor group key)).getLast? := by
  unfold ofFields field?
  induction fields using List.reverseRecOn with
  | nil => rfl
  | append_singleton fields f ih =>
    rw [List.foldl_append, List.foldl_cons, List.foldl_nil, find?_put, List.filter_append,
      List.getLast?_append, ← ih]
    cases hf : f.isFor group key with
    | true => rw [if_pos rfl, List.filter_cons, hf]; rfl
    | false => rw [if_neg Bool.false_ne_true, List.filter_cons, hf]; rfl

/-! ### One field for a key -/

/-- A field that is put takes the place of the one for its group and key, or else comes last. -/
theorem map_name_put (f : Field) (fs : List Field) : (put f fs).map Field.name =
    if f.name ∈ fs.map Field.name then fs.map Field.name else fs.map Field.name ++ [f.name] := by
  induction fs with
  | nil => rfl
  | cons g fs ih =>
    have hfor : g.isFor f.group f.key = true ↔ g.name = f.name := Field.isFor_iff_name
    rw [put, List.map_cons]
    by_cases hg : g.name = f.name
    · rw [if_pos (hfor.mpr hg), List.map_cons, hg, if_pos List.mem_cons_self]
    · have hmem : f.name ∈ g.name :: fs.map Field.name ↔ f.name ∈ fs.map Field.name :=
        List.mem_cons.trans (or_iff_right (Ne.symm hg))
      rw [if_neg (mt hfor.mp hg), List.map_cons, ih]
      simp only [hmem]
      split_ifs <;> rfl

/-- The names of the fields are those of the list, in the order of their first mention. -/
theorem map_name_ofFields (fields : List Field) :
    (ofFields fields).fields.map Field.name = (fields.map Field.name).eraseDups := by
  unfold ofFields
  induction fields using List.reverseRecOn with
  | nil => rfl
  | append_singleton fields f ih =>
    have hput := map_name_put f (fields.foldl (fun known f => put f known) [])
    rw [List.foldl_append, List.map_append, List.map_singleton, eraseDups_concat]
    refine hput.trans ?_
    rw [ih]
    simp only [List.mem_eraseDups]

/-- No two fields of the catalog are for the same group and key. -/
def Distinct (c : Catalog) : Prop := (c.fields.map Field.name).Nodup

theorem distinct_ofFields (fields : List Field) : (ofFields fields).Distinct := by
  unfold Distinct
  rw [map_name_ofFields]
  exact nodup_eraseDups _

theorem put_of_notMem {f : Field} {fs : List Field} (h : f.name ∉ fs.map Field.name) :
    put f fs = fs ++ [f] := by
  induction fs with
  | nil => rfl
  | cons g fs ih =>
    obtain ⟨hg, hfs⟩ := not_or.mp (mt List.mem_cons.mpr h)
    have hnot : ¬ g.isFor f.group f.key = true := fun hfor =>
      hg (Field.isFor_iff_name.mp hfor).symm
    rw [put, if_neg hnot, ih hfs]
    rfl

/-- **A list without repetitions is the catalog made of it.** -/
theorem ofFields_of_nodup {fields : List Field} (h : (fields.map Field.name).Nodup) :
    ofFields fields = ⟨fields⟩ := by
  unfold ofFields
  refine congrArg Catalog.mk ?_
  induction fields using List.reverseRecOn with
  | nil => rfl
  | append_singleton fields f ih =>
    rw [List.map_append, List.map_singleton] at h
    obtain ⟨hfields, -, hapart⟩ := List.nodup_append.mp h
    have hf : f.name ∉ fields.map Field.name := fun hmem =>
      hapart _ hmem _ (List.mem_singleton_self _) rfl
    rw [List.foldl_append, ih hfields]
    exact put_of_notMem hf

namespace Distinct

variable {c : Catalog} (h : c.Distinct)
include h

/-- What is found for a group and key is the field of the catalog that is for them. -/
theorem field?_eq_some_iff {group key : String} {f : Field} :
    c.field? group key = some f ↔ f ∈ c.fields ∧ f.name = (group, key) := by
  constructor
  · intro hf
    exact ⟨List.mem_of_find?_eq_some hf, Field.isFor_iff_name.mp (List.find?_some hf)⟩
  · rintro ⟨hmem, hname⟩
    have hsome : (c.field? group key).isSome = true :=
      List.find?_isSome.mpr ⟨f, hmem, Field.isFor_iff_name.mpr hname⟩
    obtain ⟨g, hg⟩ := Option.isSome_iff_exists.mp hsome
    have hgname := Field.isFor_iff_name.mp (List.find?_some hg)
    have hsame : g = f := List.inj_on_of_nodup_map h (List.mem_of_find?_eq_some hg) hmem
      (hgname.trans hname.symm)
    rw [hg, hsame]

/-- **A group has one field for each of its keys.** -/
theorem nodup_key_groupFields (group : String) :
    ((c.groupFields group).map (·.key)).Nodup := by
  have hsublist : (c.groupFields group).Sublist c.fields := List.filter_sublist
  have hnames := h.sublist (hsublist.map Field.name)
  rw [List.Nodup, List.pairwise_map] at hnames ⊢
  refine hnames.imp_of_mem fun {f g} hf hg hne hkey => hne ?_
  exact Prod.ext ((beq_iff_eq.mp (List.mem_filter.mp hf).2).trans
    (beq_iff_eq.mp (List.mem_filter.mp hg).2).symm) hkey

end Distinct

theorem nodup_groupFields (fields : List Field) (group : String) :
    (((ofFields fields).groupFields group).map (·.key)).Nodup :=
  (distinct_ofFields fields).nodup_key_groupFields group

/-- A key of a group has a field among those of the group, if it has one at all. -/
theorem any_groupFields (c : Catalog) (group key : String) :
    (c.groupFields group).any (·.key == key) = (c.field? group key).isSome := by
  rw [Bool.eq_iff_iff, List.any_eq_true, field?, List.find?_isSome]
  constructor
  · rintro ⟨f, hf, hkey⟩
    obtain ⟨hmem, hgroup⟩ := List.mem_filter.mp hf
    exact ⟨f, hmem, Bool.and_eq_true_iff.mpr ⟨hgroup, hkey⟩⟩
  · rintro ⟨f, hmem, hfor⟩
    obtain ⟨hgroup, hkey⟩ := Bool.and_eq_true_iff.mp hfor
    exact ⟨f, List.mem_filter.mpr ⟨hmem, hgroup⟩, hkey⟩

/-! ### More fields -/

/-- The catalog has every field of the other one, as it is there. -/
def Extends (more c : Catalog) : Prop := ∀ f ∈ c.fields, f ∈ more.fields

variable {fields more : List Field}

/-- Fields with other names, put in anywhere, make a catalog with more fields. -/
theorem extends_ofFields (h : (more.filter fun f => f.name ∈ fields.map Field.name) = fields) :
    (ofFields more).Extends (ofFields fields) := by
  intro f hf
  have hname : f.name ∈ fields.map Field.name := by
    rw [← List.mem_eraseDups, ← map_name_ofFields]
    exact List.mem_map_of_mem hf
  have hfor : more.filter (·.isFor f.group f.key) = fields.filter (·.isFor f.group f.key) := by
    conv_rhs => rw [← h]
    rw [List.filter_filter]
    refine List.filter_congr fun g _ => ?_
    cases hg : g.isFor f.group f.key with
    | false => rfl
    | true =>
      have hsame : g.name = f.name := Field.isFor_iff_name.mp hg
      simpa [hsame] using hname
  have hfound := (distinct_ofFields fields).field?_eq_some_iff.mpr ⟨hf, rfl⟩
  rw [field?_ofFields, ← hfor, ← field?_ofFields] at hfound
  exact List.mem_of_find?_eq_some hfound

theorem Extends.field?_eq_some (h : (ofFields more).Extends (ofFields fields)) {group key : String}
    {f : Field} (hf : (ofFields fields).field? group key = some f) :
    (ofFields more).field? group key = some f := by
  obtain ⟨hmem, hname⟩ := (distinct_ofFields fields).field?_eq_some_iff.mp hf
  exact (distinct_ofFields more).field?_eq_some_iff.mpr ⟨h f hmem, hname⟩

/-! ### The built-in catalog -/

theorem builtin_eq : builtin = ⟨builtinFields⟩ := by decide +kernel

end Catalog

end UnitLint
