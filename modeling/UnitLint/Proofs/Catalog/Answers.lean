import UnitLint.Proofs.Catalog.Fields

/-! # What a catalog answers

A catalog is known by its answers: the field for a group and key, how many fields there are, the
groups, whether there is a group, and the fields of a group. They are those of the list that it is
made of where the last field given for a group and key counts (`Catalog.answers_ofFields`). The
catalog that is made of the fields of another, one group after the other, answers alike
(`Catalog.answers_regrouped`). -/

namespace UnitLint.Catalog

/-- The answers of a catalog. -/
@[ext]
structure Answers where
  field? : String → String → Option Field
  size : Nat
  groups : List String
  hasGroup : String → Bool
  groupFields : String → List Field

/-- What a catalog answers. -/
def answers (c : Catalog) : Answers := ⟨c.field?, c.size, c.groups, c.hasGroup, c.groupFields⟩

/-- The last field of a list for a group and key. -/
def last? (fields : List Field) (group key : String) : Option Field :=
  (fields.filter (·.isFor group key)).getLast?

/-- The keys of a group in a list, each once, in the order of their first mention. -/
def keysOf (fields : List Field) (group : String) : List String :=
  ((fields.filter (·.group == group)).map (·.key)).eraseDups

/-- The answers where the last field of a list counts for each group and key, and groups and keys
come in the order of their first mention. -/
def Answers.ofLast (fields : List Field) : Answers where
  field? := last? fields
  size := (fields.map Field.name).eraseDups.length
  groups := (fields.map (·.group)).eraseDups
  hasGroup group := decide (group ∈ fields.map (·.group))
  groupFields group := (keysOf fields group).filterMap (last? fields group)

/-! ### The answers of a list -/

theorem groups_eq (c : Catalog) : c.groups = ((c.fields.map Field.name).map Prod.fst).eraseDups := by
  rw [groups, List.map_map]
  rfl

theorem groups_ofFields (fields : List Field) :
    (ofFields fields).groups = (fields.map (·.group)).eraseDups := by
  rw [groups_eq, map_name_ofFields, eraseDups_map_eraseDups, List.map_map]
  rfl

theorem hasGroup_iff (c : Catalog) (group : String) : c.hasGroup group = true ↔ group ∈ c.groups := by
  rw [hasGroup, List.any_eq_true, groups, List.mem_eraseDups, List.mem_map]
  simp only [beq_iff_eq]

theorem key_groupFields (fields : List Field) (group : String) :
    ((ofFields fields).groupFields group).map (·.key) = keysOf fields group := by
  have hnames : ∀ fs : List Field, (fs.filter (·.group == group)).map Field.name =
      ((fs.filter (·.group == group)).map (·.key)).map (group, ·) := by
    intro fs
    rw [List.map_map]
    refine List.map_congr_left fun f hf => ?_
    exact congrArg (·, f.key) (beq_iff_eq.mp (List.mem_filter.mp hf).2)
  have hfilter : ∀ fs : List Field, (fs.filter (·.group == group)).map Field.name =
      (fs.map Field.name).filter (·.1 == group) := by
    intro fs
    rw [List.filter_map]
    rfl
  have hinj : Function.Injective ((group, ·) : String → String × String) :=
    fun _ _ h => (Prod.mk.inj h).2
  refine List.map_injective_iff.mpr hinj ?_
  rw [groupFields, keysOf, ← hnames, ← eraseDups_map hinj, ← hnames, hfilter, hfilter,
    map_name_ofFields, eraseDups_filter]

/-- The fields of a group are the last ones for its keys. -/
theorem groupFields_ofFields (fields : List Field) (group : String) :
    (ofFields fields).groupFields group =
      (keysOf fields group).filterMap (last? fields group) := by
  have hlast : ∀ f ∈ (ofFields fields).groupFields group, last? fields group f.key = some f := by
    intro f hf
    obtain ⟨hmem, hgroup⟩ := List.mem_filter.mp hf
    rw [last?, ← field?_ofFields]
    exact (distinct_ofFields fields).field?_eq_some_iff.mpr
      ⟨hmem, congrArg (·, f.key) (beq_iff_eq.mp hgroup)⟩
  rw [← key_groupFields, List.filterMap_map]
  refine (List.filterMap_some.symm.trans ?_)
  exact List.filterMap_congr fun f hf => (hlast f hf).symm

/-- **The last field given counts**, in every answer of a catalog. -/
theorem answers_ofFields (fields : List Field) : (ofFields fields).answers = .ofLast fields := by
  refine Answers.ext ?field ?size (groups_ofFields fields) ?hasGroup ?groupFields
  case field =>
    funext group key
    exact field?_ofFields fields group key
  case size =>
    show (ofFields fields).fields.length = _
    rw [← List.length_map Field.name, map_name_ofFields]
    rfl
  case hasGroup =>
    funext group
    show (ofFields fields).hasGroup group = decide (group ∈ fields.map (·.group))
    rw [Bool.eq_iff_iff, hasGroup_iff, groups_ofFields, List.mem_eraseDups, decide_eq_true_iff]
  case groupFields =>
    funext group
    exact groupFields_ofFields fields group

/-! ### Fields given again -/

/-- The fields of a catalog, one group after the other. -/
def regrouped (c : Catalog) : List Field := c.groups.flatMap c.groupFields

theorem mem_groups {c : Catalog} {f : Field} (h : f ∈ c.fields) : f.group ∈ c.groups :=
  List.mem_eraseDups.mpr (List.mem_map_of_mem h)

theorem groupFields_of_notMem {c : Catalog} {group : String} (h : group ∉ c.groups) :
    c.groupFields group = [] := by
  refine List.filter_eq_nil_iff.mpr fun f hf hgroup => h ?_
  exact beq_iff_eq.mp hgroup ▸ mem_groups hf

/-- Every field is given again, and no other. -/
theorem regrouped_perm (c : Catalog) : c.regrouped.Perm c.fields :=
  perm_flatMap_filter (nodup_eraseDups _) fun _ => mem_groups

theorem groups_regrouped (c : Catalog) : (Catalog.mk c.regrouped).groups = c.groups := by
  refine eraseDups_map_flatMap (nodup_eraseDups _) (fun group _ f hf => ?_) fun group hgroup => ?_
  · exact beq_iff_eq.mp (List.mem_filter.mp hf).2
  · obtain ⟨f, hf, rfl⟩ := List.mem_map.mp (List.mem_eraseDups.mp hgroup)
    exact List.ne_nil_of_mem (List.mem_filter.mpr ⟨hf, beq_self_eq_true f.group⟩)

theorem groupFields_regrouped (c : Catalog) (group : String) :
    (Catalog.mk c.regrouped).groupFields group = c.groupFields group := by
  by_cases hgroup : group ∈ c.groups
  · exact filter_flatMap_of_mem (nodup_eraseDups _)
      (fun other _ f hf => beq_iff_eq.mp (List.mem_filter.mp hf).2) hgroup
  · rw [groupFields_of_notMem hgroup, groupFields_of_notMem]
    rwa [groups_regrouped]

namespace Distinct

variable {c : Catalog} (h : c.Distinct)
include h

theorem regrouped : (Catalog.mk c.regrouped).Distinct :=
  ((c.regrouped_perm.map Field.name).nodup_iff).mpr h

/-- **A catalog made of the fields of another**, one group after the other, answers alike. -/
theorem answers_regrouped : (ofFields c.regrouped).answers = c.answers := by
  rw [ofFields_of_nodup h.regrouped]
  refine Answers.ext ?field ?size (groups_regrouped c) ?hasGroup ?groupFields
  case field =>
    funext group key
    refine Option.ext fun f => ?_
    show (Catalog.mk c.regrouped).field? group key = some f ↔ c.field? group key = some f
    rw [h.regrouped.field?_eq_some_iff, h.field?_eq_some_iff, c.regrouped_perm.mem_iff]
  case size => exact c.regrouped_perm.length_eq
  case hasGroup =>
    funext group
    show (Catalog.mk c.regrouped).hasGroup group = c.hasGroup group
    rw [Bool.eq_iff_iff, hasGroup_iff, hasGroup_iff, groups_regrouped]
  case groupFields =>
    funext group
    exact groupFields_regrouped c group

end Distinct

end UnitLint.Catalog
