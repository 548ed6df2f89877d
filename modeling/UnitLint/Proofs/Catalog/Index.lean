import UnitLint.Catalog.Indexed
import UnitLint.Proofs.Catalog.Answers

/-! # The index of a catalog

A catalog that looks fields up by their positions answers as one does that looks for their groups
and keys, and never misses a field. What it needs for that is that the index has each group and key
at the position of its field and no others, and that the list of groups is that of the fields
(`IndexedCatalog.WellFormed`). Putting a field keeps this up (`IndexedCatalog.WellFormed.exists_put`),
so it holds of the catalog of every list (`IndexedCatalog.exists_ofFields`), which answers as the
last fields given say (`IndexedCatalog.last_given_counts`). -/

namespace UnitLint

/-- A field that is put takes the place of the one for its group and key. -/
theorem Catalog.put_eq_set {f : Field} {fs : List Field} (h : (fs.map Field.name).Nodup) {i : Nat}
    (hi : (fs.map Field.name)[i]? = some f.name) : put f fs = fs.set i f := by
  induction fs generalizing i with
  | nil => cases hi
  | cons g fs ih =>
    obtain ⟨hg, hfs⟩ := List.nodup_cons.mp h
    rw [put]
    cases i with
    | zero =>
      have hname : g.name = f.name := Option.some.inj hi
      rw [if_pos (Field.isFor_iff_name.mpr hname)]
      rfl
    | succ i =>
      have hne : ¬ g.isFor f.group f.key = true := fun hfor =>
        hg (Field.isFor_iff_name.mp hfor ▸ List.mem_of_getElem? hi)
      rw [if_neg hne, ih hfs hi]
      rfl

namespace IndexedCatalog

/-- The catalog without its index. -/
def catalog (c : IndexedCatalog) : Catalog := ⟨c.fields⟩

/-- What a catalog with an index answers. -/
def answers (c : IndexedCatalog) : Catalog.Answers :=
  ⟨c.field?, c.size, c.groups, c.hasGroup, c.groupFields⟩

/-- The index has the positions of the fields, and the groups are those of the fields. -/
structure WellFormed (c : IndexedCatalog) : Prop where
  position_iff : ∀ group key i,
    c.position? group key = some i ↔ (c.fields.map Field.name)[i]? = some (group, key)
  groups_eq : c.groups = c.catalog.groups
  contains_iff : ∀ group, c.index.contains group = true ↔ group ∈ c.groups

theorem wellFormed_empty : empty.WellFormed where
  position_iff group key i := by simp [empty, position?]
  groups_eq := rfl
  contains_iff group := by simp [empty]

/-- The position in the index after the keys of a group are replaced. -/
theorem position?_insert (fields : List Field) (groups : List String)
    (index : Std.HashMap String (Std.HashMap String Nat)) (keys : Std.HashMap String Nat)
    (name group key : String) :
    position? ⟨fields, groups, index.insert name keys⟩ group key =
      if name = group then keys[key]? else index[group]?.bind (·[key]?) := by
  rw [position?, Std.HashMap.getElem?_insert]
  by_cases h : name = group <;> simp [h]

theorem getD_index (c : IndexedCatalog) (group key : String) :
    (c.index.getD group ∅)[key]? = c.position? group key := by
  rw [position?, Std.HashMap.getD_eq_getD_getElem?]
  cases c.index[group]? with
  | none => exact Std.HashMap.getElem?_empty
  | some keys => rfl

namespace WellFormed

variable {c : IndexedCatalog} (h : c.WellFormed)
include h

theorem distinct : c.catalog.Distinct :=
  nodup_of_positions (fun p => c.position? p.1 p.2) fun p i =>
    h.position_iff p.1 p.2 i

/-! ### Answers -/

/-- **Looking a field up in the index is looking for its group and key.** -/
theorem field?_eq (group key : String) : c.field? group key = c.catalog.field? group key := by
  refine Option.ext fun f => ?_
  rw [field?, Option.bind_eq_some_iff, h.distinct.field?_eq_some_iff]
  constructor
  · rintro ⟨i, hi, hf⟩
    have hname := (h.position_iff group key i).mp hi
    rw [List.getElem?_map, hf] at hname
    exact ⟨List.mem_of_getElem? hf, Option.some.inj hname⟩
  · rintro ⟨hmem, hname⟩
    obtain ⟨i, hi⟩ := List.mem_iff_getElem?.mp hmem
    refine ⟨i, (h.position_iff group key i).mpr ?_, hi⟩
    rw [List.getElem?_map, show c.fields[i]? = some f from hi, ← hname]
    rfl

/-- **The index does not show in the answers.** -/
theorem answers_eq : c.answers = c.catalog.answers := by
  refine Catalog.Answers.ext ?field rfl h.groups_eq ?hasGroup rfl
  case field =>
    funext group key
    exact h.field?_eq group key
  case hasGroup =>
    funext group
    show c.index.contains group = c.catalog.hasGroup group
    rw [Bool.eq_iff_iff, h.contains_iff, Catalog.hasGroup_iff, h.groups_eq]

/-! ### Putting a field -/

/-- The groups of a catalog with one more field. -/
theorem groups_concat (f : Field) : Catalog.groups ⟨c.fields ++ [f]⟩ =
    if c.index.contains f.group then c.groups else c.groups ++ [f.group] := by
  have hmem : f.group ∈ c.fields.map (·.group) ↔ c.index.contains f.group = true := by
    rw [h.contains_iff, h.groups_eq]
    exact List.mem_eraseDups.symm
  rw [Catalog.groups, List.map_append, List.map_singleton, eraseDups_concat, h.groups_eq]
  simp only [hmem]
  rfl

/-- A field for a group and key that are new comes last. -/
theorem concat {f : Field} (hnew : c.position? f.group f.key = none) : WellFormed
    ⟨c.fields ++ [f], if c.index.contains f.group then c.groups else c.groups ++ [f.group],
      c.index.insert f.group ((c.index.getD f.group ∅).insert f.key c.fields.length)⟩ := by
  refine ⟨fun group key i => ?_, (h.groups_concat f).symm, fun group => ?_⟩
  · have hlen : c.fields.length = (c.fields.map Field.name).length := (List.length_map _).symm
    rw [position?_insert, List.map_append, List.map_singleton, getElem?_concat_eq_some_iff,
      ← h.position_iff, ← hlen]
    by_cases hgroup : f.group = group
    · subst hgroup
      rw [if_pos rfl, Std.HashMap.getElem?_insert, getD_index]
      by_cases hkey : f.key = key
      · subst hkey
        simp [hnew, Field.name, eq_comm]
      · simp [hkey, Field.name]
    · rw [if_neg hgroup]
      simp [hgroup, Field.name, position?]
  · rw [Std.HashMap.contains_insert, Bool.or_eq_true, beq_iff_eq, h.contains_iff]
    split_ifs with hf
    · refine or_iff_right_of_imp ?_
      rintro rfl
      exact (h.contains_iff _).mp hf
    · simp [or_comm, eq_comm]

/-- A field for a group and key that are there takes the place of the one for them. -/
theorem set {f : Field} {i : Nat} (hi : c.position? f.group f.key = some i) : WellFormed
    ⟨c.fields.set i f, if c.index.contains f.group then c.groups else c.groups ++ [f.group],
      c.index.insert f.group (c.index.getD f.group ∅)⟩ := by
  have hname : (c.fields.map Field.name)[i]? = some f.name := (h.position_iff _ _ _).mp hi
  have hnames : (c.fields.set i f).map Field.name = c.fields.map Field.name := by
    obtain ⟨hlt, hget⟩ := List.getElem?_eq_some_iff.mp hname
    rw [List.map_set, ← hget, List.set_getElem_self]
  have hcontains : c.index.contains f.group = true := by
    rw [h.contains_iff, h.groups_eq, Catalog.groups, List.mem_eraseDups]
    obtain ⟨g, hg, hgname⟩ := List.mem_map.mp (List.mem_of_getElem? hname)
    exact List.mem_map.mpr ⟨g, hg, congrArg Prod.fst hgname⟩
  have hgroups : Catalog.groups ⟨c.fields.set i f⟩ = c.catalog.groups := by
    rw [Catalog.groups_eq, hnames, catalog, Catalog.groups_eq]
  rw [if_pos hcontains]
  refine ⟨fun group key j => ?_, h.groups_eq.trans hgroups.symm, fun group => ?_⟩
  · rw [hnames, ← h.position_iff, position?_insert]
    by_cases hgroup : f.group = group
    · rw [if_pos hgroup, hgroup, getD_index]
    · rw [if_neg hgroup]
      rfl
  · rw [Std.HashMap.contains_insert, Bool.or_eq_true, beq_iff_eq, h.contains_iff]
    refine or_iff_right_of_imp ?_
    rintro rfl
    exact (h.contains_iff _).mp hcontains

/-- **No access fails when a field is put**, and the index is kept right. -/
theorem exists_put (f : Field) : ∃ c', c.put f = some c' ∧ c'.WellFormed ∧
    c'.fields = Catalog.put f c.fields := by
  cases hposition : c.position? f.group f.key with
  | none =>
    refine ⟨_, ?_, h.concat hposition, ?_⟩
    · rw [put]
      simp only [getD_index, hposition]
    · refine (Catalog.put_of_notMem fun hmem => ?_).symm
      obtain ⟨i, hi⟩ := List.mem_iff_getElem?.mp hmem
      have hsome := (h.position_iff _ _ i).mpr hi
      rw [hposition] at hsome
      cases hsome
  | some i =>
    have hname := (h.position_iff _ _ _).mp hposition
    have hlt : i < c.fields.length := by
      obtain ⟨hi, -⟩ := List.getElem?_eq_some_iff.mp hname
      rwa [List.length_map] at hi
    refine ⟨_, ?_, h.set hposition, (Catalog.put_eq_set h.distinct hname).symm⟩
    rw [put]
    simp only [getD_index, hposition, if_pos hlt]

end WellFormed

/-- **A catalog with an index is made of every list**, and has the fields of one without. -/
theorem exists_ofFields (fields : List Field) : ∃ c, ofFields fields = some c ∧ c.WellFormed ∧
    c.catalog = Catalog.ofFields fields := by
  unfold ofFields
  induction fields using List.reverseRecOn with
  | nil => exact ⟨empty, rfl, wellFormed_empty, rfl⟩
  | append_singleton fields f ih =>
    obtain ⟨c, hc, hwell, hcatalog⟩ := ih
    obtain ⟨c', hput, hwell', hfields⟩ := hwell.exists_put f
    refine ⟨c', ?_, hwell', ?_⟩
    · rw [List.foldlM_append, hc]
      show (c.put f >>= fun last => pure last) = some c'
      rw [hput]
      rfl
    · have hsame : c.fields = (Catalog.ofFields fields).fields := congrArg Catalog.fields hcatalog
      rw [catalog, hfields, hsame, Catalog.ofFields, Catalog.ofFields, List.foldl_concat]

/-- **The last field given counts.** With an index or without one, a catalog made of any list of
fields answers with the last field of the list for each group and key, with the number of different
groups and keys, and with the groups and the keys of each group in the order of their first mention.
No access fails. What is found is for the group and key that were asked for, there is a group just if
it is among the groups, and a group has each of its keys once. A catalog made of the fields of this
one, group by group, gives the same answers. -/
theorem last_given_counts (fields : List Field) :
    (Catalog.ofFields fields).answers = .ofLast fields ∧
    ∃ c, ofFields fields = some c ∧ c.answers = .ofLast fields ∧
      (∀ group key f, c.field? group key = some f → f.group = group ∧ f.key = key) ∧
      (∀ group, c.hasGroup group = true ↔ group ∈ c.groups) ∧
      (∀ group, (c.groupFields group).map (·.key) = Catalog.keysOf fields group) ∧
      ∃ c', ofFields (c.groups.flatMap c.groupFields) = some c' ∧ c'.answers = .ofLast fields ∧
        (Catalog.ofFields (c.groups.flatMap c.groupFields)).answers = .ofLast fields := by
  obtain ⟨c, hc, hwell, hcatalog⟩ := exists_ofFields fields
  have hanswers : c.answers = (Catalog.ofFields fields).answers := hcatalog ▸ hwell.answers_eq
  have hgroups : c.groups = (Catalog.ofFields fields).groups :=
    congrArg Catalog.Answers.groups hanswers
  have hgroupFields : c.groupFields = (Catalog.ofFields fields).groupFields :=
    congrArg Catalog.Answers.groupFields hanswers
  have hagain : c.groups.flatMap c.groupFields = (Catalog.ofFields fields).regrouped := by
    rw [hgroups, hgroupFields]
    rfl
  have hlast := Catalog.answers_ofFields fields
  have hregrouped : (Catalog.ofFields (c.groups.flatMap c.groupFields)).answers =
      .ofLast fields := by
    rw [hagain, (Catalog.distinct_ofFields fields).answers_regrouped, hlast]
  obtain ⟨c', hc', hwell', hcatalog'⟩ := exists_ofFields (c.groups.flatMap c.groupFields)
  refine ⟨hlast, c, hc, hanswers.trans hlast, fun group key f hf => ?_, fun group => ?_,
    fun group => ?_, c', hc', ?_, hregrouped⟩
  · rw [hwell.field?_eq] at hf
    exact Field.isFor_iff.mp (List.find?_some hf)
  · exact hwell.contains_iff group
  · rw [hgroupFields, Catalog.key_groupFields]
  · rw [hwell'.answers_eq, hcatalog', hregrouped]

end IndexedCatalog

end UnitLint
