import UnitLint.Proofs.Lint.Validators
import UnitLint.Proofs.Rules.Passes

/-! # Linters over a catalog

There is a linter over a catalog if and only if the catalog has every field that the built-in tables
name, and otherwise the first field that is looked up and not there is reported
(`Linter.exists_ofCatalog_iff`, `Linter.isFirst_of_ofCatalog_error`). Its validators have the rules of
their tables and those that types call for, and more fields in the catalog change none of them
(`Linter.ofCatalog_exact`). -/

namespace UnitLint

namespace RuleTable

/-- The fields that the built-in tables name, each as group and key. -/
def builtinNames : List (String × String) :=
  builtin.flatMap fun t => t.names.map fun key => (t.unitType.group, key)

/-- The fields that binding the built-in tables looks up, in order. -/
def builtinLookups : List (String × String) :=
  builtin.flatMap fun t => t.lookups.map fun key => (t.unitType.group, key)

/-- What is needed before any rule is bound is named by some rule. -/
theorem mem_builtinLookups_iff {name : String × String} :
    name ∈ builtinLookups ↔ name ∈ builtinNames := by
  have hneeded : ∀ t ∈ builtin, ∀ key ∈ t.needed, key ∈ t.names := by decide
  simp only [builtinLookups, builtinNames, List.mem_flatMap, List.mem_map, lookups, List.mem_append]
  refine exists_congr fun t => and_congr_right fun ht => exists_congr fun key => ?_
  rw [or_iff_right_of_imp (hneeded t ht key)]

end RuleTable

namespace Linter

open RuleTable (builtinNames builtinLookups typeRules)

section Lookups

variable {catalog : Catalog}

theorem failAlike_ofCatalog (catalog : Catalog) : FailAlike (ofCatalog catalog)
    (builtinLookups.mapM fun name => catalog.require name.1 name.2) := by
  refine (failAlike_map _ _).trans (failAlike_mapM_flatMap fun t _ => ?_)
  rw [List.mapM_map]
  exact t.failAlike_bind catalog

theorem exists_ofCatalog_iff : (∃ linter, ofCatalog catalog = .ok linter) ↔
    ∀ name ∈ builtinNames, (catalog.field? name.1 name.2).isSome = true := by
  rw [(failAlike_ofCatalog catalog).exists_ok_iff, exists_mapM_iff]
  simp only [Catalog.require_eq_ok_iff, RuleTable.mem_builtinLookups_iff, Option.isSome_iff_exists]

/-- **What is missing** is the first of the fields that are looked up and that the catalog lacks. -/
theorem isFirst_of_ofCatalog_error {e : CatalogError} (h : ofCatalog catalog = .error e) :
    ∃ name, e = .unknownField name.1 name.2 ∧
      IsFirst (fun name => catalog.field? name.1 name.2 = none) builtinLookups name := by
  obtain ⟨name, hname, hfirst⟩ := isFirst_of_mapM_error ((failAlike_ofCatalog catalog e).mp h)
  refine ⟨name, (Catalog.require_eq_error_iff.mp hname).2, hfirst.congr fun name => ?_⟩
  simp [Catalog.require_eq_error_iff]

end Lookups

variable {fields more : List Field} {linter linter' : Linter}

theorem forall₂_bind {catalog : Catalog} (h : ofCatalog catalog = .ok linter) :
    List.Forall₂ (fun t v => t.bind catalog = .ok v) RuleTable.builtin linter.validators :=
  forall₂_of_mapM (mapM_bind h)

/-- The built-in tables leave the rules for types to the fields. -/
theorem filter_isTypeRule (h : ofCatalog (Catalog.ofFields fields) = .ok linter) :
    ∀ v ∈ linter.validators, ∀ f ∈ v.fields,
      f.rules.filter Rule.isTypeRule = typeRules f.field := by
  have htables : ∀ t ∈ RuleTable.builtin, ∀ entry ∈ t.entries, ∀ r ∈ entry.2,
      r.isTypeRule = false := by decide
  intro v hv f hf
  obtain ⟨t, ht, hbind⟩ := exists_of_mem_mapM (mapM_bind h) hv
  exact (RuleTable.exact_of_bind hbind).filter_isTypeRule (htables t ht) hf

/-- **More fields** leave those that there were as they are. -/
theorem exists_of_extends (h : ofCatalog (Catalog.ofFields fields) = .ok linter)
    (hextends : (Catalog.ofFields more).Extends (Catalog.ofFields fields)) :
    ∃ linter', ofCatalog (Catalog.ofFields more) = .ok linter' ∧
      List.Forall₂ (fun v w => w.unitType = v.unitType ∧ v.fields ⊆ w.fields)
        linter.validators linter'.validators := by
  have hnames := exists_ofCatalog_iff.mp ⟨linter, h⟩
  have hmore : ∀ name ∈ builtinNames,
      ((Catalog.ofFields more).field? name.1 name.2).isSome = true := by
    intro name hname
    obtain ⟨f, hf⟩ := Option.isSome_iff_exists.mp (hnames name hname)
    exact Option.isSome_iff_exists.mpr ⟨f, hextends.field?_eq_some hf⟩
  obtain ⟨linter', h'⟩ := exists_ofCatalog_iff.mpr hmore
  refine ⟨linter', h', forall₂_join (fun t v w hv hw => ?_) (forall₂_bind h) (forall₂_bind h')⟩
  have hexact := RuleTable.exact_of_bind hv
  have hexact' := RuleTable.exact_of_bind hw
  exact ⟨hexact'.unitType.trans hexact.unitType.symm,
    RuleTable.subset_of_extends hextends hexact hexact'⟩

/-- **The rule tables are bound exactly.** Over the catalog of any list of fields there is a linter if
and only if the catalog has every field that a built-in table names, as a key that rules are attached
to or as an argument of a rule. If there is none, the field that is reported is named by a table and
not in the catalog, and it is the first such one that is looked up.

If there is one, each validator has the fields of its group in the order of the catalog, each with
the rules of the table for its key in order, and then the one that its type calls for; no other of
its rules is one for types. Over a catalog with more fields there is a linter too, and its validators
have the fields of these, with the same rules. That is so wherever fields with other names are added
to the list. Lastly, to list the boolean and integer fields of a validator and to attach a rule to
the key of each cannot fail, and gives the same validators. -/
theorem ofCatalog_exact (fields : List Field) :
    ((∃ linter, ofCatalog (Catalog.ofFields fields) = .ok linter) ↔
      ∀ name ∈ builtinNames, ((Catalog.ofFields fields).field? name.1 name.2).isSome = true) ∧
    (∀ e, ofCatalog (Catalog.ofFields fields) = .error e →
      ∃ name ∈ builtinNames, e = .unknownField name.1 name.2 ∧
        (Catalog.ofFields fields).field? name.1 name.2 = none ∧
        IsFirst (fun name => (Catalog.ofFields fields).field? name.1 name.2 = none) builtinLookups
          name) ∧
    (∀ linter, ofCatalog (Catalog.ofFields fields) = .ok linter →
      List.Forall₂ (fun t v => t.Exact (Catalog.ofFields fields) v) RuleTable.builtin
        linter.validators ∧
      (∀ v ∈ linter.validators, ∀ f ∈ v.fields,
        f.rules.filter Rule.isTypeRule = typeRules f.field) ∧
      ∀ more, (Catalog.ofFields more).Extends (Catalog.ofFields fields) →
        ∃ linter', ofCatalog (Catalog.ofFields more) = .ok linter' ∧
          List.Forall₂ (fun v w => w.unitType = v.unitType ∧ v.fields ⊆ w.fields)
            linter.validators linter'.validators) ∧
    (∀ more, (more.filter fun f => f.name ∈ fields.map Field.name) = fields →
      (Catalog.ofFields more).Extends (Catalog.ofFields fields)) ∧
    RuleTable.builtin.mapM (RuleTable.bindInPasses (Catalog.ofFields fields)) =
      RuleTable.builtin.mapM (RuleTable.bind (Catalog.ofFields fields)) := by
  refine ⟨exists_ofCatalog_iff, fun e h => ?_, fun linter h => ⟨(forall₂_bind h).imp fun t v => RuleTable.exact_of_bind,
      filter_isTypeRule h, fun more => exists_of_extends h⟩,
    fun more => Catalog.extends_ofFields, mapM_congr fun t _ => t.bindInPasses_eq fields⟩
  obtain ⟨name, he, hfirst⟩ := isFirst_of_ofCatalog_error h
  exact ⟨name, RuleTable.mem_builtinLookups_iff.mp hfirst.mem, he, hfirst.1, hfirst⟩

/-- Two more fields, one of them first and one last, and two fields less, of which the one that is
reported is looked up first. -/
theorem ofCatalog_exact_changed :
    let fields := Catalog.builtinFields
    let more : List Field := ⟨"Container", "Extra", .boolean, false⟩ ::
      (fields ++ [⟨"Mount", "Where", .int, false⟩])
    let less := fields.filter fun f => f.name ∉ [("Container", "ReadOnly"), ("Container", "Pod")]
    (∃ linter', ofCatalog (Catalog.ofFields more) = .ok linter' ∧
      List.Forall₂ (fun v w => w.unitType = v.unitType ∧ v.fields ⊆ w.fields)
        builtin.validators linter'.validators) ∧
    ofCatalog (Catalog.ofFields less) = .error (.unknownField "Container" "Pod") ∧
      ∃ name ∈ builtinNames, CatalogError.unknownField "Container" "Pod" =
        .unknownField name.1 name.2 := by
  intro fields more less
  obtain ⟨-, -, hlinter, hmore, -⟩ := ofCatalog_exact fields
  obtain ⟨-, -, hextends⟩ := hlinter builtin ofCatalog_builtin
  have hadded : (more.filter fun f => f.name ∈ fields.map Field.name) = fields := by
    have hfields : (fields.filter fun f => f.name ∈ fields.map Field.name) = fields :=
      List.filter_eq_self.mpr fun f hf => decide_eq_true (List.mem_map_of_mem hf)
    rw [List.filter_cons_of_neg (by decide), List.filter_append, hfields,
      List.filter_cons_of_neg (by decide)]
    exact List.append_nil fields
  have hnodup : (less.map Field.name).Nodup := by
    have hbuiltin : (Catalog.builtin.fields.map Field.name).Nodup := Catalog.distinct_ofFields fields
    rw [Catalog.builtin_eq] at hbuiltin
    exact hbuiltin.sublist (List.filter_sublist.map Field.name)
  have hless : ofCatalog (Catalog.ofFields less) = .error (.unknownField "Container" "Pod") := by
    rw [Catalog.ofFields_of_nodup hnodup]
    decide
  obtain ⟨-, herror, -⟩ := ofCatalog_exact less
  obtain ⟨name, hname, he, -⟩ := herror _ hless
  exact ⟨hextends more (hmore more hadded), hless, name, hname, he⟩

end Linter

end UnitLint
