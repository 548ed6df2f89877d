import UnitLint.Check.Validator
import UnitLint.Proofs.Check.Category
import UnitLint.Proofs.Lookup.Newline
import UnitLint.Proofs.UnitFile.Newline

/-! # Messages of one line

The messages of rules hold keys, fixed texts, and values as they were looked up. All of these have
no line feed if the values were looked up spliced. Only the rule on integers quotes a value as it
was written, which may go on over lines. So the messages of a validator over a parsed file stand on
one line each, but for those about a last value that is no integer and goes on over lines
(`Validator.newline_mem_iff`). -/

namespace UnitLint

/-! ### Names -/

theorem UnitType.newline_notMem_name (t : UnitType) : '\n' ∉ t.name.toList := by
  cases t <;> decide

theorem UnitType.newline_notMem_group (t : UnitType) : '\n' ∉ t.group.toList := by
  cases t <;> decide

/-! ### Rules -/

/-- The fixed texts in the messages of a rule: the keys of other fields, and what the rule itself
says. -/
def Rule.wordings : Rule Field → List String
  | requiredIfNotPresent other | dependsOn other => [other.key]
  | conflictsWith others => others.map (·.key)
  | allowedValues texts => [String.intercalate ", " texts]
  | hasSuffix ending => [ending]
  | valuesMust _ _ message | report _ message => [message]
  | required | deprecated | canReference _ | validBoolean | validInteger | imageNotAmbiguous => []

/-- Whether the messages of a rule quote values that were looked up. -/
def Rule.quotesValues {φ : Type} : Rule φ → Bool
  | allowedValues _ | hasSuffix _ | canReference _ | validBoolean | imageNotAmbiguous => true
  | required | requiredIfNotPresent _ | conflictsWith _ | dependsOn _ | deprecated
  | valuesMust _ _ _ | validInteger | report _ _ => false

/-- The finding about a value that is no integer, as it was written but for blanks around it. -/
def Finding.noInteger (validator key : String) (o : Value) : Finding :=
  ⟨validator, .invalidValue, o.location,
    "invalid integer '" ++ String.ofList (Text.trim o.text.toList) ++ "' for key " ++ key⟩

theorem Finding.newline_mem_noInteger_iff {validator key : String} (hkey : '\n' ∉ key.toList)
    {o : Value} : '\n' ∈ (noInteger validator key o).message.toList ↔
      '\n' ∈ Text.trim o.text.toList := by
  simp [noInteger, hkey]

variable {c : Check} {res : Resolution} {found : List Finding} {x : Finding}

namespace Check

@[simp]
theorem message_finding (category : Category) (p : Location) (message : String) :
    (c.finding category p message).message = message := rfl

@[simp]
theorem message_findingAtAnchor (category : Category) (message : String) :
    (c.findingAtAnchor category message).message = message := rfl

theorem newline_notMem_eachValue {category : Category} {passes : Value → Bool}
    {message : Value → String} (h : ∀ v ∈ res.values, '\n' ∉ (message v).toList)
    (hx : x ∈ c.eachValue category res passes message) : '\n' ∉ x.message.toList := by
  obtain ⟨v, hv, rfl⟩ := List.mem_map.mp hx
  exact h v (List.mem_filter.mp hv).1

/-- The name of a missing unit is the start of the value. -/
theorem subset_of_missingUnit? {types : List UnitType} {v : Value} {t : UnitType} {name : String}
    (h : c.missingUnit? types v = some (t, name)) : name.toList ⊆ v.text.toList := by
  unfold missingUnit? at h
  dsimp only at h
  split at h
  · cases h
  · split at h <;> cases h
    rw [String.toList_ofList]
    have htarget := List.takeWhile_prefix (l := v.text.toList) (· != ':')
    exact htarget.subset

end Check

/-- **A rule that quotes only texts of one line** has messages of one line. -/
theorem Rule.newline_notMem_of_mem_findings {r : Rule Field} (hr : r ≠ .validInteger)
    (hkey : '\n' ∉ c.field.key.toList) (hwordings : ∀ s ∈ r.wordings, '\n' ∉ s.toList)
    (hvalues : r.quotesValues = true → ∀ v ∈ res.values, '\n' ∉ v.text.toList)
    (h : r.findings c res = .ok found) (hx : x ∈ found) : '\n' ∉ x.message.toList := by
  cases r with
  | required =>
    cases h
    split at hx
    · cases hx
    · obtain rfl := List.mem_singleton.mp hx
      simp [hkey]
  | requiredIfNotPresent other =>
    cases h
    have hother := hwordings other.key List.mem_cons_self
    split at hx
    · cases hx
    · obtain rfl := List.mem_singleton.mp hx
      simp [hkey, hother]
  | conflictsWith others =>
    cases h
    split at hx
    · obtain ⟨other, hmem, rfl⟩ := List.mem_map.mp hx
      have hother := hwordings other.key (List.mem_map_of_mem (List.mem_filter.mp hmem).1)
      simp [hkey, hother]
    · cases hx
  | allowedValues texts =>
    cases h
    have htexts := hwordings _ List.mem_cons_self
    refine Check.newline_notMem_eachValue (fun v hv => ?_) hx
    have hv := hvalues rfl v hv
    rw [String.toList_append, List.mem_append, not_or]
    exact ⟨by simp [hv, hkey], htexts⟩
  | hasSuffix ending =>
    cases h
    have hending := hwordings ending List.mem_cons_self
    refine Check.newline_notMem_eachValue (fun v hv => ?_) hx
    have hv := hvalues rfl v hv
    simp [hv, hkey, hending]
  | dependsOn other =>
    cases h
    have hother := hwordings other.key List.mem_cons_self
    split at hx
    · obtain rfl := List.mem_singleton.mp hx
      simp [hkey, hother]
    · cases hx
  | deprecated =>
    cases h
    split at hx
    · obtain rfl := List.mem_singleton.mp hx
      simp [hkey]
    · cases hx
  | canReference types =>
    cases h
    obtain ⟨v, hv, hmissing⟩ := List.mem_filterMap.mp hx
    obtain ⟨⟨t, name⟩, hname, rfl⟩ := Option.map_eq_some_iff.mp hmissing
    have htype := t.newline_notMem_name
    have htarget : '\n' ∉ name.toList := fun hmem =>
      hvalues rfl v hv (Check.subset_of_missingUnit? hname hmem)
    simp [htype, htarget]
  | valuesMust test gate message =>
    obtain ⟨holds, -, h⟩ := bind_eq_ok_iff.mp h
    cases holds with
    | false =>
      cases h
      cases hx
    | true =>
      obtain ⟨passes, -, h⟩ := bind_eq_ok_iff.mp h
      cases passes with
      | true =>
        cases h
        cases hx
      | false =>
        cases h
        obtain rfl := List.mem_singleton.mp hx
        exact hwordings message List.mem_cons_self
  | validBoolean =>
    cases h
    refine Check.newline_notMem_eachValue (fun v hv => ?_) hx
    have hv := hvalues rfl v hv
    simp [hv, hkey]
  | validInteger => exact absurd rfl hr
  | imageNotAmbiguous =>
    cases h
    refine Check.newline_notMem_eachValue (fun v hv => ?_) hx
    have hv := hvalues rfl v hv
    simp [hv]
  | report category message =>
    cases h
    obtain rfl := List.mem_singleton.mp hx
    exact hwordings message List.mem_cons_self

/-- **The rule on integers** reports the last value as it was written. -/
theorem Rule.mem_findings_validInteger_iff (h : Rule.findings c res .validInteger = .ok found) :
    x ∈ found ↔ res.found = false ∧
      ∃ o, (c.unit.valuesOf c.field.group c.field.key).getLast? = some o ∧
        x = .noInteger c.validator c.field.key o := by
  cases h
  cases hfound : res.found with
  | true => simp
  | false =>
    cases hlast : (c.unit.valuesOf c.field.group c.field.key).getLast? with
    | none => simp
    | some o => simp [Finding.noInteger, Check.finding]

/-! ### Validators -/

/-- What the rules of a validator quote has no line feed, if values that are looked up spliced have
none; and the rule on integers is the rule of the integer fields. -/
structure Validator.Plain (v : Validator) : Prop where
  keys : ∀ f ∈ v.fields, '\n' ∉ f.field.key.toList
  wordings : ∀ f ∈ v.fields, ∀ r ∈ f.rules, ∀ s ∈ r.wordings, '\n' ∉ s.toList
  quoted : ∀ f ∈ v.fields, ∀ r ∈ f.rules, r.quotesValues = true → f.field.mode.isSpliced = true
  integers : ∀ f ∈ v.fields, .validInteger ∈ f.rules ↔ f.field.mode = .int

/-- The value is the last one of an integer field; spliced, it is no integer; and it goes on over
lines with more than blanks. -/
structure UnitFile.BrokenInteger (u : UnitFile) (f : Field) (o : Value) : Prop where
  mode : f.mode = .int
  not_found : (lookup u f).found = false
  last : (u.valuesOf f.group f.key).getLast? = some o
  newline : '\n' ∈ Text.trim o.text.toList

namespace Validator

variable {v : Validator} {context : Context} {u : UnitFile} {f : FieldRules}

/-- The rule on integers, where a field has it, reports what it should. -/
theorem noInteger_mem_fieldFindings (h : v.fieldFindings context u f = .ok found)
    (hr : .validInteger ∈ f.rules) {o : Value} (hfound : (lookup u f.field).found = false)
    (hlast : (u.valuesOf f.field.group f.field.key).getLast? = some o) :
    .noInteger v.name f.field.key o ∈ found := by
  rcases fieldFindings_cases h with ⟨hnone, -⟩ | h
  · rw [hnone] at hr
    cases hr
  · obtain ⟨fs, hfs⟩ := exists_of_joined h _ hr
    refine (mem_joined_iff h).mpr (Or.inr ⟨_, hr, fs, hfs, ?_⟩)
    exact (Rule.mem_findings_validInteger_iff hfs).mpr ⟨hfound, o, hlast, rfl⟩

/-- Every finding of a validator names it. -/
theorem validator_of_mem_validate (h : v.validate context u = .ok found) (hx : x ∈ found) :
    x.validator = v.name := by
  rcases (mem_validate_iff h).mp hx with hx | ⟨f, -, fs, hfs, hx⟩
  · obtain ⟨g, e, -, -, rfl⟩ := exists_of_mem_unknownKeys hx
    rfl
  · rcases mem_fieldFindings hfs hx with ⟨issue, -, rfl⟩ | ⟨r, -, rs, hrs, hx⟩
    · rfl
    · obtain ⟨p, message, -, rfl⟩ := Rule.eq_of_mem_findings hrs hx
      rfl

section Parsed

variable {path : Path} {text : String} (hparse : parse path text = .ok u)
include hparse

theorem newline_notMem_unknownKeys (hx : x ∈ v.unknownKeys u) : '\n' ∉ x.message.toList := by
  obtain ⟨g, e, hg, he, rfl⟩ := exists_of_mem_unknownKeys hx
  have hkey := newline_notMem_key hparse (List.mem_of_find?_eq_some hg) he
  have hgroup := v.unitType.newline_notMem_group
  simp [hkey, group, hgroup]

/-- **Only integers break lines.** The findings of a validator over a parsed file whose messages
have line feeds are those about broken integers. -/
theorem newline_mem_iff (hv : v.Plain) (h : v.validate context u = .ok found) :
    x ∈ found ∧ '\n' ∈ x.message.toList ↔
      ∃ f ∈ v.fields, ∃ o, u.BrokenInteger f.field o ∧ x = .noInteger v.name f.field.key o := by
  constructor
  · rintro ⟨hx, hnewline⟩
    rcases (mem_validate_iff h).mp hx with hx | ⟨f, hf, fs, hfs, hx⟩
    · exact absurd hnewline (newline_notMem_unknownKeys hparse hx)
    have hkey := hv.keys f hf
    rcases mem_fieldFindings hfs hx with ⟨issue, hissue, rfl⟩ | ⟨r, hr, rs, hrs, hx⟩
    · have hmessage := newline_notMem_of_mem_issues hparse hissue
      exact absurd hnewline (by simp [issueFinding, hkey, hmessage])
    · by_cases hinteger : r = .validInteger
      · subst hinteger
        obtain ⟨hfound, o, hlast, rfl⟩ := (Rule.mem_findings_validInteger_iff hrs).mp hx
        have htext := (Finding.newline_mem_noInteger_iff hkey).mp hnewline
        exact ⟨f, hf, o, ⟨(hv.integers f hf).mp hr, hfound, hlast, htext⟩, rfl⟩
      · refine absurd hnewline (Rule.newline_notMem_of_mem_findings hinteger hkey
          (hv.wordings f hf r hr) (fun hquotes value hvalue => ?_) hrs hx)
        exact newline_notMem_of_mem_values hparse (hv.quoted f hf r hr hquotes) hvalue
  · rintro ⟨f, hf, o, hbroken, rfl⟩
    refine ⟨(mem_validate_iff h).mpr (Or.inr ⟨f, hf, ?_⟩), ?_⟩
    · obtain ⟨fs, hfs⟩ := exists_fieldFindings h hf
      exact ⟨fs, hfs, noInteger_mem_fieldFindings hfs ((hv.integers f hf).mpr hbroken.mode)
        hbroken.not_found hbroken.last⟩
    · exact (Finding.newline_mem_noInteger_iff (hv.keys f hf)).mpr hbroken.newline

end Parsed

end Validator

end UnitLint
