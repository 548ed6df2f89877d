import UnitLint.Proofs.Lint.Validators
import UnitLint.Proofs.Rules.Binding

/-! # What findings depend on

What is found in a unit depends on its type, on the group named after that type, and on the file
names of the run where references are checked; it depends on nothing else
(`Linter.findings_of_own_group`). -/

namespace UnitLint

/-! ### Unit files and contexts -/

theorem UnitType.ofPath?_congr {p p' : Path} (h : p.fileName? = p'.fileName?) :
    ofPath? p = ofPath? p' := by
  unfold ofPath? Path.extension?
  rw [h]

theorem UnitFile.group?_filter (path : Path) (groups : List Group) (name : String) :
    (UnitFile.mk path groups).group? name = (groups.filter (·.name == name)).head? :=
  (List.head?_filter ..).symm

namespace Context

variable {c c' : Context}

theorem Agrees.refl (c : Context) : c.Agrees c := ⟨rfl, fun _ _ => rfl⟩

theorem agrees_of_fileNames (hrefs : c.checkReferences = c'.checkReferences)
    (hnames : ∀ name, name ∈ c.fileNames ↔ name ∈ c'.fileNames) : c.Agrees c' := by
  refine ⟨hrefs, fun _ name => ?_⟩
  unfold hasUnit
  rw [Bool.eq_iff_iff, List.contains_iff_mem, List.contains_iff_mem]
  exact hnames name

theorem agrees_of_perm {checkReferences : Bool} {sources sources' : List Source}
    (h : sources.Perm sources') :
    Agrees ⟨checkReferences, Linter.units sources⟩ ⟨checkReferences, Linter.units sources'⟩ := by
  refine agrees_of_fileNames rfl fun name => ?_
  have hunits : (Linter.units sources).Perm (Linter.units sources') := h.filterMap _
  have hnames : ((Linter.units sources).map (·.fileName)).Perm
      ((Linter.units sources').map (·.fileName)) := hunits.map _
  exact hnames.mem_iff

end Context

/-! ### Linters -/

namespace Linter

variable {catalog : Catalog} {linter : Linter}

theorem validate_congr (h : ofCatalog catalog = .ok linter) {c c' : Context} {u u' : UnitFile}
    (htype : u.unitType? = u'.unitType?)
    (hgroup : ∀ t, u.unitType? = some t → u.group? t.group = u'.group? t.group)
    (hc : c.Agrees c') : linter.validate c u = linter.validate c' u' := by
  have hsame : linter.validatorFor? u' = linter.validatorFor? u := by
    unfold validatorFor?
    rw [htype]
  cases hv : linter.validatorFor? u with
  | none => rw [validate_of_none hv, validate_of_none (hsame.trans hv)]
  | some v =>
    obtain ⟨t, ht, hbind⟩ := exists_table h hv
    have hwithin := (RuleTable.within_of_bind (RuleTable.within_of_mem_builtin ht) hbind).2
    have hown : u.group? v.group = u'.group? v.group :=
      hgroup v.unitType (unitType_of_validatorFor? hv)
    rw [validate_of_some hv, validate_of_some (hsame.trans hv)]
    exact Validator.validate_congr hown hc hwithin

/-- **Findings follow from a unit's own group and from file names.** Over a catalog that has every
field that the rules need, validating gives the same findings, or the same failure of a scalar view,
for two units of one type whose groups named after that type are equal, or are missing in both, in
two contexts that answer alike. So it matters neither what other groups there are, nor in which
directory the unit is, nor what the other units contain, nor in which order the sources are read. -/
theorem findings_of_own_group (h : ofCatalog catalog = .ok linter) :
    (∀ (c c' : Context) (u u' : UnitFile), u.unitType? = u'.unitType? →
      (∀ t, u.unitType? = some t → u.group? t.group = u'.group? t.group) →
      c.checkReferences = c'.checkReferences →
      (c.checkReferences = true → ∀ name, c.hasUnit name = c'.hasUnit name) →
      linter.validate c u = linter.validate c' u') ∧
    (∀ (c : Context) (path : Path) (groups groups' : List Group),
      (∀ t, UnitType.ofPath? path = some t →
        groups.filter (·.name == t.group) = groups'.filter (·.name == t.group)) →
      linter.validate c ⟨path, groups⟩ = linter.validate c ⟨path, groups'⟩) ∧
    (∀ (c : Context) (path path' : Path) (groups : List Group),
      path.fileName? = path'.fileName? →
      linter.validate c ⟨path, groups⟩ = linter.validate c ⟨path', groups⟩) ∧
    (∀ (c c' : Context) (u : UnitFile), c.checkReferences = c'.checkReferences →
      (∀ name, name ∈ c.fileNames ↔ name ∈ c'.fileNames) →
      linter.validate c u = linter.validate c' u) ∧
    ∀ (checkReferences : Bool) (sources sources' : List Source) (u : UnitFile),
      sources.Perm sources' →
      linter.validate ⟨checkReferences, units sources⟩ u =
        linter.validate ⟨checkReferences, units sources'⟩ u := by
  refine ⟨?alike, ?groups, ?directory, ?names, ?order⟩
  case alike =>
    intro c c' u u' htype hgroup hrefs hunits
    exact validate_congr h htype hgroup ⟨hrefs, hunits⟩
  case groups =>
    intro c path groups groups' hgroups
    refine validate_congr h rfl (fun t ht => ?_) (.refl c)
    rw [UnitFile.group?_filter, UnitFile.group?_filter, hgroups t ht]
  case directory =>
    intro c path path' groups hname
    exact validate_congr h (UnitType.ofPath?_congr hname) (fun _ _ => rfl) (.refl c)
  case names =>
    intro c c' u hrefs hnames
    exact validate_congr h rfl (fun _ _ => rfl) (Context.agrees_of_fileNames hrefs hnames)
  case order =>
    intro checkReferences sources sources' u hperm
    exact validate_congr h rfl (fun _ _ => rfl) (Context.agrees_of_perm hperm)

/-- A container that moves to another directory and gets another group, in a run whose files come
in another order and have other contents. -/
theorem findings_of_own_group_moved :
    builtin.validate ⟨true, [⟨⟨"web.container"⟩, []⟩, ⟨⟨"db.network"⟩, []⟩]⟩
        ⟨⟨"web.container"⟩,
          [⟨"Container", 0, [⟨"Network", 0, ⟨"Network", "db.network", ⟨1, 8⟩⟩⟩]⟩]⟩ =
      builtin.validate
        ⟨true, [⟨⟨"etc/db.network"⟩, [⟨"Network", 0, []⟩]⟩, ⟨⟨"etc/web.container"⟩, []⟩]⟩
        ⟨⟨"etc/web.container"⟩,
          [⟨"Container", 0, [⟨"Network", 0, ⟨"Network", "db.network", ⟨1, 8⟩⟩⟩]⟩,
            ⟨"Install", 2, []⟩]⟩ := by
  refine (findings_of_own_group ofCatalog_builtin).1 _ _ _ _ (by decide) ?group rfl ?names
  case group =>
    intro t ht
    have hcontainer : t = .container := by
      have hfirst : UnitFile.unitType? ⟨⟨"web.container"⟩,
          [⟨"Container", 0, [⟨"Network", 0, ⟨"Network", "db.network", ⟨1, 8⟩⟩⟩]⟩]⟩ =
          some .container := by decide
      rw [hfirst] at ht
      exact (Option.some.inj ht).symm
    subst hcontainer
    decide
  case names =>
    intro _ name
    have hnames : Context.fileNames ⟨true, [⟨⟨"web.container"⟩, []⟩, ⟨⟨"db.network"⟩, []⟩]⟩ =
        ["web.container", "db.network"] := by decide
    have hnames' : Context.fileNames ⟨true,
        [⟨⟨"etc/db.network"⟩, [⟨"Network", 0, []⟩]⟩, ⟨⟨"etc/web.container"⟩, []⟩]⟩ =
        ["db.network", "web.container"] := by decide
    rw [Context.hasUnit, Context.hasUnit, hnames, hnames']
    simp [Bool.or_comm]

end Linter

end UnitLint
