import UnitLint.Proofs.Check.Category
import UnitLint.Proofs.Check.Scope
import UnitLint.Proofs.Lookup.Origin

/-! # Where findings stand

A rule places its findings at its anchor, at a value of its field, or at an occurrence of its key,
and all of these are places of the group of the field (`Check.IsPlace.of_isOf`). So what a validator
finds stands in the group that it checks, at the header, at a key or in a value, and it stands for
the file as a whole if there is no such group (`Validator.isPlace_of_mem_validate`). -/

namespace UnitLint

/-! ### Places of a group -/

/-- The place is that of the header of the group, of the key of an entry, or one in a value. -/
def Group.IsPlace (g : Group) (p : Location) : Prop :=
  p = g.location ∨ ∃ e ∈ g.entries, p = e.location ∨ e.value.IsPlace p

/-- The place is one of the group, or stands for the file if that lacks the group. -/
def UnitFile.IsPlace (u : UnitFile) (group : String) (p : Location) : Prop :=
  match u.group? group with
  | none => p = .wholeFile
  | some g => g.IsPlace p

variable {u : UnitFile} {group key : String}

theorem UnitFile.isPlace_of_mem_valuesOf {o : Value} (ho : o ∈ u.valuesOf group key) {p : Location}
    (hp : o.IsPlace p) : u.IsPlace group p := by
  unfold valuesOf at ho
  unfold IsPlace
  cases hg : u.group? group with
  | none => rw [hg] at ho; cases ho
  | some g =>
    rw [hg] at ho
    obtain ⟨e, he, rfl⟩ := List.mem_map.mp ho
    exact Or.inr ⟨e, (List.mem_filter.mp he).1, Or.inr hp⟩

theorem UnitFile.isPlace_of_mem_lookup {f : Field} (hf : f.IsOf group) {p : Location}
    (hp : p ∈ (lookup u f).locations) : u.IsPlace group p := by
  obtain ⟨o, ho, hop⟩ := f.mode.comesFrom_resolve f.key (u.valuesOf f.group f.key) p hp
  rw [hf] at ho
  exact isPlace_of_mem_valuesOf ho hop

theorem Check.isPlace_anchor (c : Check) : c.unit.IsPlace c.field.group c.anchor := by
  unfold UnitFile.IsPlace anchor
  cases c.unit.group? c.field.group with
  | none => rfl
  | some g =>
    dsimp only
    cases hlast : (g.entriesOf c.field.key).getLast? with
    | none => exact Or.inl rfl
    | some e =>
      have he := (List.mem_filter.mp (List.mem_of_getLast? hlast)).1
      exact Or.inr ⟨e, he, Or.inl rfl⟩

/-- **Where a rule reports** is a place of the group of its field. -/
theorem Check.IsPlace.of_isOf {c : Check} {p : Location} (h : c.IsPlace (lookup c.unit c.field) p)
    (hf : c.field.IsOf group) : c.unit.IsPlace group p := by
  obtain rfl : c.field.group = group := hf
  rcases h with rfl | ⟨v, hv, rfl⟩ | ⟨o, ho, rfl⟩
  · exact c.isPlace_anchor
  · exact UnitFile.isPlace_of_mem_lookup rfl (List.mem_append_left _ (List.mem_map_of_mem hv))
  · exact UnitFile.isPlace_of_mem_valuesOf ho o.isPlace_location

/-! ### Findings of validators -/

namespace Validator

variable {v : Validator} {context : Context} {x : Finding}

theorem isPlace_of_mem_unknownKeys (hx : x ∈ v.unknownKeys u) : u.IsPlace v.group x.location := by
  obtain ⟨g, e, hg, he, rfl⟩ := exists_of_mem_unknownKeys hx
  rw [UnitFile.IsPlace, hg]
  exact Or.inr ⟨e, he, Or.inl rfl⟩

theorem isPlace_of_mem_fieldFindings {f : FieldRules} (hf : f.field.IsOf v.group)
    {found : List Finding} (h : v.fieldFindings context u f = .ok found) (hx : x ∈ found) :
    u.IsPlace v.group x.location := by
  rcases mem_fieldFindings h hx with ⟨issue, hissue, rfl⟩ | ⟨rule, -, fs, hrule, hx⟩
  · exact UnitFile.isPlace_of_mem_lookup hf (List.mem_append_right _ (List.mem_map_of_mem hissue))
  · obtain ⟨p, message, hplace, rfl⟩ := Rule.eq_of_mem_findings hrule hx
    exact hplace.of_isOf hf

/-- **What a validator finds stands in its group**, if its rules are for that group. -/
theorem isPlace_of_mem_validate (hv : v.Within) {found : List Finding}
    (h : v.validate context u = .ok found) (hx : x ∈ found) : u.IsPlace v.group x.location := by
  rcases (mem_validate_iff h).mp hx with hx | ⟨f, hf, fs, hfs, hx⟩
  · exact isPlace_of_mem_unknownKeys hx
  · exact isPlace_of_mem_fieldFindings (hv.fields f hf) hfs hx

end Validator

end UnitLint
