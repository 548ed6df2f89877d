import UnitLint.Proofs.Check.Spellings
import UnitLint.Proofs.Lint.Views
import UnitLint.Proofs.UnitFile.WithText

/-! # Other spellings of booleans

A unit file in which one boolean is spelled in another way is like the old one in all that a rule
looks at, if the spellings are read alike or it does not matter how they are read
(`UnitFile.alike_withText`). So the built-in linter finds the same, unless the letters come in
(`Linter.findings_of_spelling`). -/

namespace UnitLint

/-! ### Unit files -/

theorem Group.outline_withText {g : Group} {i : Nat} {e : Entry} (he : g.entries[i]? = some e)
    (text : String) : (g.withText i text).outline = g.outline := by
  have hsplit := congrArg (List.map fun e : Entry => (e.key, e.location)) (entries_eq he)
  rw [List.map_append, List.map_cons] at hsplit
  rw [outline, outline, entries_withText he, List.map_append, List.map_cons, hsplit]
  rfl

theorem lookup_of_boolean {u : UnitFile} {f : Field} (hmode : f.mode = .boolean) : lookup u f =
    ⟨((u.valuesOf f.group f.key).getLast?.map (baseValue f.key)).toList, []⟩ := by
  unfold lookup
  rw [hmode]
  rfl

namespace UnitFile

variable {u : UnitFile} {f : Field} {g : Group} (hg : u.group? f.group = some g) {i : Nat}
  {e : Entry} (he : g.entries[i]? = some e)
include hg he

theorem outline_withText (text name : String) : (u.group? name).map Group.outline =
    ((u.withText f.group i text).group? name).map Group.outline := by
  by_cases hname : name = f.group
  · rw [hname, group?_withText_self hg, hg, Option.map_some, Option.map_some,
      Group.outline_withText he]
  · rw [group?_withText_of_ne hname]

variable (hkey : e.key = f.key) (hmode : f.mode = .boolean) {b : Bool} {text : String}
  (hold : Spells b e.value.text) (hnew : Spells b text)
include hkey hmode hold hnew

/-- The last occurrence of the key decides what the field resolves to. -/
theorem lookup_withText {viewed : Prop}
    (hread : viewed → (∀ later ∈ g.entries.drop (i + 1), later.key ≠ f.key) →
      isTrue e.value.text = isTrue text) :
    Resolution.Alike viewed (lookup u f) (lookup (u.withText f.group i text) f) := by
  obtain ⟨hlast, hlast'⟩ := getLast?_valuesOf hg he text
  rw [lookup_of_boolean hmode, lookup_of_boolean hmode, ← hkey, hlast, hlast']
  cases hlater : (((g.entries.drop (i + 1)).filter (·.key == e.key)).map (·.value)).getLast? with
  | some v => exact .same _
  | none =>
    have hnone : ∀ later ∈ g.entries.drop (i + 1), later.key ≠ f.key := by
      intro later hmem hlater'
      rw [List.getLast?_eq_none_iff, List.map_eq_nil_iff, List.filter_eq_nil_iff] at hlater
      exact hlater later hmem (beq_iff_eq.mpr (hlater'.trans hkey.symm))
    have hspelled : Resolution.Alike viewed ⟨[⟨e.key, e.value.text, e.value.location⟩], []⟩
        ⟨[⟨e.key, text, e.value.location⟩], []⟩ :=
      .spelled ⟨e.key, e.value.text, e.value.location⟩ text (isBoolean_iff.mpr ⟨b, hold⟩)
        (isBoolean_iff.mpr ⟨b, hnew⟩) fun hviewed => hread hviewed hnone
    have hvalue' : baseValue e.key (e.withText text).value = ⟨e.key, text, e.value.location⟩ :=
      baseValue_of_spells (v := (e.withText text).value) hnew e.key
    rw [← baseValue_of_spells hold e.key, ← hvalue'] at hspelled
    exact hspelled

/-- **Another spelling** leaves all as it is but for the values of its own key. -/
theorem alike_withText {known viewed : Field → Prop}
    (hknown : ∀ h, known h → h.name = f.name → h = f)
    (hread : viewed f → (∀ later ∈ g.entries.drop (i + 1), later.key ≠ f.key) →
      isTrue e.value.text = isTrue text) :
    u.Alike known (fun h => h.mode ≠ .boolean) viewed (u.withText f.group i text) := by
  have hothers : ∀ h : Field, h.name ≠ f.name →
      u.valuesOf h.group h.key = (u.withText f.group i text).valuesOf h.group h.key :=
    fun h hname => valuesOf_withText_of_ne hg he text (hkey ▸ hname)
  refine ⟨outline_withText hg he text, fun h hh hcompared => hothers h ?_, fun h hh => ?_⟩
  · intro hname
    exact hcompared (hknown h hh hname ▸ hmode)
  · by_cases hname : h.name = f.name
    · obtain rfl := hknown h hh hname
      exact lookup_withText hg he hkey hmode hold hnew hread
    · rw [lookup, lookup, hothers h hname]
      exact .same _

end UnitFile

/-! ### The built-in linter -/

namespace Linter

/-- No rule compares the text of a boolean with other texts. -/
theorem comparesOnly_builtin : ∀ v ∈ builtin.validators, ∀ f ∈ v.fields, ∀ r ∈ f.rules,
    r.ComparesOnly (fun h => h.mode ≠ .boolean) f.field := by
  rw [builtin_eq]
  decide

/-- What the linter finds does not depend on how booleans are spelled that it reads alike. -/
theorem validate_alike {u u' : UnitFile} (htype : u'.unitType? = u.unitType?)
    (h : u.Alike (· ∈ Catalog.builtin.fields) (fun f => f.mode ≠ .boolean)
      (·.name ∈ RuleTable.viewed) u') {c c' : Context} (hc : c.Agrees c') :
    builtin.validate c u = builtin.validate c' u' := by
  have hsame : builtin.validatorFor? u' = builtin.validatorFor? u := by
    unfold validatorFor?
    rw [htype]
  cases hv : builtin.validatorFor? u with
  | none => rw [validate_of_none hv, validate_of_none (hsame.trans hv)]
  | some v =>
    obtain ⟨t, ht, hbind⟩ := exists_table ofCatalog_builtin hv
    have hmem := mem_of_validatorFor? hv
    have hviewed : ∀ key f, (t.unitType.group, key) ∈ RuleTable.viewed →
        Catalog.builtin.field? t.unitType.group key = some f → f.name ∈ RuleTable.viewed := by
      intro key f hkey hf
      rwa [Field.isFor_iff_name.mp (List.find?_some hf)]
    have hviews := RuleTable.viewsOnly_of_bind (RuleTable.viewsOnly_of_mem_builtin t ht) hviewed
      hbind
    rw [validate_of_some hv, validate_of_some (hsame.trans hv)]
    refine Validator.validate_alike h hc fun f hf => ?_
    obtain ⟨hfield, hnames⟩ := RuleTable.mem_fields_of_bind hbind hf
    exact ⟨hfield, fun r hr =>
      ⟨hnames r hr, comparesOnly_builtin v hmem f hf r hr, hviews f hf r hr⟩⟩

/-- **Spellings are interchangeable, but for the letters.** Let a value of a boolean key of the
built-in catalog be spelled in one of the ways that are accepted for its truth value, and let it be
written in another of these. Then the built-in linter has the same findings about the unit file, in
every context that has the same names of units, with one exception. The letters `y` and `t` are
accepted and read as false, so for the three keys that rules take views of, where the value is the
last one of its key, a letter takes the place of a letter only, and a word that of a word. -/
theorem findings_of_spelling {u : UnitFile} {f : Field} (hf : f ∈ Catalog.builtin.fields)
    (hmode : f.mode = .boolean) {g : Group} (hg : u.group? f.group = some g) {i : Nat} {e : Entry}
    (he : g.entries[i]? = some e) (hkey : e.key = f.key) {b : Bool} {text : String}
    (hold : Spells b e.value.text) (hnew : Spells b text)
    (hletters : f.name ∈ RuleTable.viewed →
      (∀ later ∈ g.entries.drop (i + 1), later.key ≠ f.key) →
        isLetter e.value.text = isLetter text)
    {c c' : Context} (hc : c.Agrees c') :
    ∃ found, builtin.validate c u = .ok found ∧
      builtin.validate c' (u.withText f.group i text) = .ok found := by
  have hdistinct : Catalog.builtin.Distinct := Catalog.distinct_ofFields Catalog.builtinFields
  have hsame : ∀ h ∈ Catalog.builtin.fields, h.name = f.name → h = f := fun h hh hname =>
    List.inj_on_of_nodup_map hdistinct hh hf hname
  have hread : f.name ∈ RuleTable.viewed →
      (∀ later ∈ g.entries.drop (i + 1), later.key ≠ f.key) →
        isTrue e.value.text = isTrue text := by
    intro hviewed hlast
    rw [isTrue_of_spells hold, isTrue_of_spells hnew, hletters hviewed hlast]
  have halike : u.Alike (· ∈ Catalog.builtin.fields) (fun h => h.mode ≠ .boolean)
      (·.name ∈ RuleTable.viewed) (u.withText f.group i text) :=
    UnitFile.alike_withText hg he hkey hmode hold hnew hsame hread
  have htype : (u.withText f.group i text).unitType? = u.unitType? := rfl
  obtain ⟨found, hfound⟩ := exists_validate ofCatalog_builtin scalarWhereViewed_builtin c u
  exact ⟨found, hfound, (validate_alike htype halike hc).symm.trans hfound⟩

/-- A word for another word in the last value, in a run in which the unit is read with the new
spelling, and a letter for a word in a value that a later one takes the place of. -/
theorem findings_of_spelling_last :
    let entry : String → String → Nat → Entry := fun key text line =>
      ⟨key, 0, ⟨key, text, ⟨line, key.length + 1⟩⟩⟩
    let g : Group := ⟨"Container", 1, [entry "Image" "quay.io/x/y" 2, entry "ReadOnly" "Yes" 3,
      entry "ReadOnlyTmpfs" "on" 4, entry "ReadOnly" "TRUE" 5]⟩
    let u : UnitFile := ⟨⟨"a.container"⟩, [g]⟩
    (∃ found, builtin.validate ⟨true, [u]⟩ u = .ok found ∧
      builtin.validate ⟨true, [u.withText "Container" 3 "oN"]⟩ (u.withText "Container" 3 "oN") =
        .ok found) ∧
    ∃ found, builtin.validate ⟨true, [u]⟩ u = .ok found ∧
      builtin.validate ⟨true, [u]⟩ (u.withText "Container" 1 "t") = .ok found := by
  intro entry g u
  let f : Field := ⟨"Container", "ReadOnly", .boolean, false⟩
  have hf : f ∈ Catalog.builtin.fields := by
    rw [Catalog.builtin_eq]
    decide
  have hagrees : Context.Agrees ⟨true, [u]⟩ ⟨true, [u.withText "Container" 3 "oN"]⟩ :=
    ⟨rfl, fun _ _ => rfl⟩
  constructor
  · have hnew : Spells true "oN" := by decide
    exact findings_of_spelling (u := u) (f := f) (g := g) (i := 3) hf rfl rfl rfl rfl
      (by decide) hnew (fun _ _ => by decide) hagrees
  · have hnew : Spells true "t" := by decide
    exact findings_of_spelling (u := u) (f := f) (g := g) (i := 1) hf rfl rfl rfl rfl
      (by decide) hnew
      (fun _ hlast => absurd rfl (hlast (entry "ReadOnly" "TRUE" 5) (by decide)))
      ⟨rfl, fun _ _ => rfl⟩

/-- **The letters are read as false.** For each key that rules take views of there is a unit file in
which the last value of the key spells truth with a word, and the linter finds something else if it
is a letter. -/
theorem letters_change_findings :
    let unit : String → String → List (String × String) → UnitFile := fun path group lines =>
      ⟨⟨path⟩, [⟨group, 1, lines.zipIdx.map fun (line, i) =>
        ⟨line.1, 0, ⟨line.1, line.2, ⟨i + 2, line.1.length + 1⟩⟩⟩⟩]⟩
    let image := ("Image", "quay.io/x/y")
    let u := unit "a.container" "Container" [image, ("ReadOnly", "yes"), ("ReadOnlyTmpfs", "yes")]
    let w := unit "a.container" "Container" [image, ("ReadOnlyTmpfs", "yes")]
    let n := unit "a.network" "Network" [("DNS", "10.0.0.1"), ("DisableDNS", "yes")]
    (∀ name ∈ RuleTable.viewed, ∃ f ∈ Catalog.builtinFields, f.name = name ∧ f.mode = .boolean) ∧
    (Spells true "yes" ∧ Spells true "y") ∧
    (builtin.validate ⟨false, [u]⟩ u = .ok [] ∧
      builtin.validate ⟨false, [u]⟩ (u.withText "Container" 1 "y") =
        .ok [⟨"container", .invalidValue, ⟨4, 14⟩, "ReadOnlyTmpfs=true requires ReadOnly=true"⟩]) ∧
    (builtin.validate ⟨false, [w]⟩ w =
        .ok [⟨"container", .invalidValue, ⟨3, 14⟩, "ReadOnlyTmpfs=true requires ReadOnly=true"⟩] ∧
      builtin.validate ⟨false, [w]⟩ (w.withText "Container" 1 "y") = .ok []) ∧
    builtin.validate ⟨false, [n]⟩ n =
        .ok [⟨"network", .invalidValue, ⟨2, 4⟩, "key DNS cannot be used with DisableDNS=true"⟩] ∧
      builtin.validate ⟨false, [n]⟩ (n.withText "Network" 1 "y") = .ok [] := by
  rw [builtin_eq]
  decide +kernel

end Linter

end UnitLint
