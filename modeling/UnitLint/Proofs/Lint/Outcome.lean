import UnitLint.Proofs.Check.Context
import UnitLint.Proofs.Lint.OwnGroup
import UnitLint.Proofs.Lint.Report
import UnitLint.Proofs.UnitFile.Reading

/-! # What a run reports

The outcome of a path is that of the sources with this path or an equal one, and of no others: the
last of them that parses counts, or, if none does, the last (`Settles`). So a run whose sources have
pairwise unequal paths reports for each source what it comes to on its own among the units of the
run, and it does not matter in which order the sources are given (`report_by_path`). -/

namespace UnitLint.Linter

variable {linter : Linter} {context : Context} {checkReferences : Bool} {sources : List Source}
  {path : Path} {report : Report}

/-! ### Sources with equal paths -/

theorem path_of_parse {text : String} {u : UnitFile} (h : parse path text = .ok u) :
    u.path = path := by
  obtain ⟨-, rfl⟩ := parse_eq_ok_iff.mp h
  rfl

/-- The sources whose paths are equal to a path. -/
def alike (path : Path) (sources : List Source) : List Source :=
  sources.filter (·.path.key == path.key)

theorem mem_alike {s : Source} : s ∈ alike path sources ↔ s ∈ sources ∧ s.path.key = path.key := by
  unfold alike
  rw [List.mem_filter, beq_iff_eq]

theorem alike_eq_singleton (h : (sources.map (·.path.key)).Nodup) {s : Source} (hs : s ∈ sources) :
    alike s.path sources = [s] := by
  unfold alike
  induction sources with
  | nil => cases hs
  | cons t sources ih =>
    obtain ⟨ht, hsources⟩ := List.nodup_cons.mp h
    rcases List.mem_cons.mp hs with rfl | hs
    · have hnone : sources.filter (·.path.key == s.path.key) = [] := by
        refine List.filter_eq_nil_iff.mpr fun t' ht' hkey => ht ?_
        exact List.mem_map.mpr ⟨t', ht', beq_iff_eq.mp hkey⟩
      rw [List.filter_cons, if_pos (beq_self_eq_true _), hnone]
    · have hne : ¬ (t.path.key == s.path.key) = true := by
        intro hkey
        exact ht (List.mem_map.mpr ⟨s, hs, (beq_iff_eq.mp hkey).symm⟩)
      rw [List.filter_cons, if_neg hne, ih hsources hs]

theorem units_alike (path : Path) (sources : List Source) :
    units (alike path sources) = (units sources).filter (·.path.key == path.key) := by
  unfold units alike
  rw [List.filterMap_filter, List.filter_filterMap]
  refine List.filterMap_congr fun s _ => ?_
  cases h : parse s.path s.text with
  | error errors => simp [Except.toOption]
  | ok u => simp [Except.toOption, Option.filter, path_of_parse h]

theorem failures_alike (path : Path) (sources : List Source) :
    (alike path sources).filterMap failure? =
      (sources.filterMap failure?).filter (·.1.key == path.key) := by
  unfold alike
  rw [List.filterMap_filter, List.filter_filterMap]
  refine List.filterMap_congr fun s _ => ?_
  unfold failure?
  cases parse s.path s.text with
  | error errors => simp [Option.filter]
  | ok u => simp

/-! ### Outcomes -/

theorem outcome_eq_ok_iff {u : UnitFile} {o : Path × FileReport} :
    linter.outcome context u = .ok o ↔
      o.1 = u.path ∧ o.2.parseErrors = [] ∧ linter.validate context u = .ok o.2.findings := by
  obtain ⟨p, errors, findings⟩ := o
  unfold outcome
  rw [bind_eq_ok_iff]
  constructor
  · rintro ⟨found, hfound, h⟩
    cases h
    exact ⟨rfl, rfl, hfound⟩
  · rintro ⟨rfl, rfl, h⟩
    exact ⟨findings, h, rfl⟩

theorem lint_eq_ok_iff : linter.lint checkReferences sources = .ok report ↔
    ∃ outcomes, (units sources).mapM (linter.outcome ⟨checkReferences, units sources⟩) =
      .ok outcomes ∧ report = .ofOutcomes (sources.filterMap failure? ++ outcomes) := by
  unfold lint
  rw [bind_eq_ok_iff]
  constructor
  · rintro ⟨outcomes, houtcomes, h⟩
    cases h
    exact ⟨outcomes, houtcomes, rfl⟩
  · rintro ⟨outcomes, houtcomes, rfl⟩
    exact ⟨outcomes, houtcomes, rfl⟩

/-- A run gives a report if each unit can be validated. -/
theorem exists_lint_iff : (∃ report, linter.lint checkReferences sources = .ok report) ↔
    ∀ u ∈ units sources,
      ∃ found, linter.validate ⟨checkReferences, units sources⟩ u = .ok found := by
  constructor
  · rintro ⟨report, h⟩ u hu
    obtain ⟨outcomes, houtcomes, -⟩ := lint_eq_ok_iff.mp h
    obtain ⟨o, ho⟩ := exists_mapM_iff.mp ⟨outcomes, houtcomes⟩ u hu
    exact ⟨_, (outcome_eq_ok_iff.mp ho).2.2⟩
  · intro h
    have houtcomes : ∀ u ∈ units sources,
        ∃ o, linter.outcome ⟨checkReferences, units sources⟩ u = .ok o :=
      fun u hu => exists_bind (h u hu) fun found => ⟨_, rfl⟩
    exact exists_bind (exists_mapM_iff.mpr houtcomes) fun outcomes => ⟨_, rfl⟩

/-- What sources with equal paths come to: the findings in the last unit among them, or, if there is
none, the errors in the last source. -/
def Settles (linter : Linter) (context : Context) (ss : List Source) (r : FileReport) : Prop :=
  match (units ss).getLast? with
  | some u => r.parseErrors = [] ∧ linter.validate context u = .ok r.findings
  | none => r.findings = [] ∧ ∃ s ∈ ss.getLast?, parse s.path s.text = .error r.parseErrors

/-- If the last unit does not settle the outcome, the last source does. -/
theorem settles_of_last {ss : List Source} (hne : ss ≠ []) {outcomes : List (Path × FileReport)}
    (h : List.Forall₂ (fun u o => linter.outcome context u = .ok o) (units ss) outcomes) :
    ∃ o, (ss.filterMap failure? ++ outcomes).getLast? = some o ∧ Settles linter context ss o.2 := by
  unfold Settles
  rw [List.getLast?_append]
  rcases forall₂_getLast? h with ⟨hunits, houtcomes⟩ | ⟨u, o, hunits, houtcomes, hu⟩
  · rw [hunits, houtcomes]
    obtain ⟨ss, s, rfl⟩ := (List.eq_nil_or_concat ss).resolve_left hne
    have hs : (units [s]).getLast? = none := by
      rw [List.concat_eq_append, units, List.filterMap_append, List.getLast?_append,
        Option.or_eq_none_iff] at hunits
      exact hunits.1
    rw [List.concat_eq_append, List.filterMap_append, List.getLast?_append, List.getLast?_concat]
    cases hparse : parse s.path s.text with
    | ok u => simp [units, hparse, Except.toOption] at hs
    | error errors =>
      refine ⟨(s.path, ⟨errors, []⟩), ?_, rfl, s, rfl, hparse⟩
      simp [failure?, hparse]
  · rw [hunits, houtcomes]
    exact ⟨o, rfl, (outcome_eq_ok_iff.mp hu).2⟩

/-- **The outcome of a path** is that of the sources alike. -/
theorem settles_file? (h : linter.lint checkReferences sources = .ok report)
    (hne : alike path sources ≠ []) : ∃ r, report.file? path = some r ∧
      Settles linter ⟨checkReferences, units sources⟩ (alike path sources) r := by
  obtain ⟨outcomes, houtcomes, rfl⟩ := lint_eq_ok_iff.mp h
  have hpair : List.Forall₂
      (fun u o => linter.outcome ⟨checkReferences, units sources⟩ u = .ok o)
      (units (alike path sources)) (outcomes.filter (·.1.key == path.key)) := by
    rw [units_alike]
    refine List.rel_filter (fun u o hu => ?_) (forall₂_of_mapM houtcomes)
    have hpath := (outcome_eq_ok_iff.mp hu).1
    simp only [hpath]
  obtain ⟨o, ho, hsettles⟩ := settles_of_last hne hpair
  refine ⟨o.2, ?_, hsettles⟩
  rw [Report.file?_ofOutcomes, List.filter_append, ← failures_alike, ho]
  rfl

/-- Every file of a report is that of a source. -/
theorem exists_source_of_mem (h : linter.lint checkReferences sources = .ok report)
    {f : Path × FileReport} (hf : f ∈ report.files) : ∃ s ∈ sources, s.path = f.1 := by
  obtain ⟨outcomes, houtcomes, rfl⟩ := lint_eq_ok_iff.mp h
  obtain ⟨o, ho, hpath⟩ := Report.exists_mem_of_mem_ofOutcomes hf
  rw [← hpath]
  rcases List.mem_append.mp ho with ho | ho
  · obtain ⟨s, hs, hfailure⟩ := List.mem_filterMap.mp ho
    refine ⟨s, hs, ?_⟩
    unfold failure? at hfailure
    split at hfailure <;> cases hfailure
    rfl
  · obtain ⟨u, hu, houtcome⟩ := exists_of_mem_mapM houtcomes ho
    obtain ⟨s, hs, hparse⟩ := List.mem_filterMap.mp hu
    refine ⟨s, hs, ?_⟩
    rw [(outcome_eq_ok_iff.mp houtcome).1]
    cases hok : parse s.path s.text with
    | error errors =>
      rw [hok] at hparse
      cases hparse
    | ok u' =>
      rw [hok] at hparse
      obtain rfl := Option.some.inj hparse
      exact (path_of_parse hok).symm

theorem ascending_of_lint (h : linter.lint checkReferences sources = .ok report) :
    Report.Ascending report.files := by
  obtain ⟨outcomes, -, rfl⟩ := lint_eq_ok_iff.mp h
  exact Report.ascending_ofOutcomes _

theorem settles_of_mem (h : linter.lint checkReferences sources = .ok report)
    {f : Path × FileReport} (hf : f ∈ report.files) :
    Settles linter ⟨checkReferences, units sources⟩ (alike f.1 sources) f.2 := by
  obtain ⟨s, hs, hpath⟩ := exists_source_of_mem h hf
  have hmem : s ∈ alike f.1 sources := mem_alike.mpr ⟨hs, by rw [hpath]⟩
  obtain ⟨r, hr, hsettles⟩ := settles_file? h (List.ne_nil_of_mem hmem)
  have hfile : report.file? f.1 = some f.2 :=
    (Report.file?_eq_some_iff (ascending_of_lint h)).mpr ⟨f, hf, rfl, rfl⟩
  obtain rfl := Option.some.inj (hfile.symm.trans hr)
  exact hsettles

/-! ### Sources with unequal paths -/

/-- What a source comes to on its own. -/
def settle (linter : Linter) (context : Context) (s : Source) : Except ScalarError FileReport :=
  match parse s.path s.text with
  | .ok u => do return ⟨[], ← linter.validate context u⟩
  | .error errors => .ok ⟨errors, []⟩

theorem settles_singleton_iff {s : Source} {r : FileReport} :
    Settles linter context [s] r ↔ linter.settle context s = .ok r := by
  obtain ⟨errors, findings⟩ := r
  unfold Settles settle
  cases hparse : parse s.path s.text with
  | ok u =>
    simp only [units, hparse, Except.toOption, List.filterMap_cons, List.filterMap_nil,
      List.getLast?_singleton]
    rw [bind_eq_ok_iff]
    constructor
    · rintro ⟨rfl, h⟩
      exact ⟨findings, h, rfl⟩
    · rintro ⟨found, hfound, h⟩
      cases h
      exact ⟨rfl, hfound⟩
  | error errors' =>
    simp [units, hparse, Except.toOption, and_comm, eq_comm]

/-- **Each source has its own outcome** if no two have equal paths. -/
theorem mem_files_iff (h : linter.lint checkReferences sources = .ok report)
    (hne : (sources.map (·.path.key)).Nodup) {f : Path × FileReport} : f ∈ report.files ↔
      ∃ s ∈ sources, s.path = f.1 ∧
        linter.settle ⟨checkReferences, units sources⟩ s = .ok f.2 := by
  constructor
  · intro hf
    obtain ⟨s, hs, hpath⟩ := exists_source_of_mem h hf
    have hsettles := settles_of_mem h hf
    rw [← hpath, alike_eq_singleton hne hs, settles_singleton_iff] at hsettles
    exact ⟨s, hs, hpath, hsettles⟩
  · rintro ⟨s, hs, hpath, hsettle⟩
    have halike := alike_eq_singleton hne hs
    obtain ⟨r, hr, hsettles⟩ := settles_file? h (by rw [halike]; exact List.cons_ne_nil s [])
    rw [halike, settles_singleton_iff, hsettle] at hsettles
    obtain rfl := Except.ok.inj hsettles
    obtain ⟨g, hg, hkey, houtcome⟩ := (Report.file?_eq_some_iff (ascending_of_lint h)).mp hr
    -- the file that is found has the path of the source as it was written
    obtain ⟨s', hs', hpath'⟩ := exists_source_of_mem h hg
    obtain rfl := List.inj_on_of_nodup_map hne hs' hs (by rw [hpath', hkey])
    have hfg : f = g := Prod.ext (hpath.symm.trans hpath') houtcome.symm
    rwa [hfg]

theorem validate_context {c c' : Context} (hc : c.Agrees c') (u : UnitFile) :
    linter.validate c u = linter.validate c' u := by
  cases hv : linter.validatorFor? u with
  | none => rw [validate_of_none hv, validate_of_none hv]
  | some v => rw [validate_of_some hv, validate_of_some hv, v.validate_context hc]

theorem settle_context {c c' : Context} (hc : c.Agrees c') (s : Source) :
    linter.settle c s = linter.settle c' s := by
  unfold settle
  cases parse s.path s.text with
  | ok u => simp only [validate_context hc]
  | error errors => rfl

theorem lint_perm {sources' : List Source} (hperm : sources.Perm sources')
    (h : linter.lint checkReferences sources = .ok report)
    (hne : (sources.map (·.path.key)).Nodup) :
    linter.lint checkReferences sources' = .ok report := by
  have hc : Context.Agrees ⟨checkReferences, units sources⟩ ⟨checkReferences, units sources'⟩ :=
    Context.agrees_of_perm hperm
  have hne' : (sources'.map (·.path.key)).Nodup := (hperm.map _).nodup_iff.mp hne
  have hunits : (units sources).Perm (units sources') := hperm.filterMap _
  obtain ⟨report', h'⟩ : ∃ report', linter.lint checkReferences sources' = .ok report' := by
    rw [exists_lint_iff]
    intro u hu
    rw [← validate_context hc]
    exact exists_lint_iff.mp ⟨report, h⟩ u (hunits.mem_iff.mpr hu)
  have hmem : ∀ f, f ∈ report'.files ↔ f ∈ report.files := by
    intro f
    rw [mem_files_iff h hne, mem_files_iff h' hne']
    simp only [hperm.mem_iff, settle_context hc]
  have hfiles := (ascending_of_lint h').eq_of_mem_iff (ascending_of_lint h) hmem
  rw [h']
  exact congrArg (fun files => Except.ok (Report.mk files)) hfiles

/-! ### Reports -/

/-- **A report goes by paths.** A run gives a report if every unit among its sources can be
validated. The files of the report are in the order of their paths, no two of which are equal; every
source has a file with a path equal to its own, and every file comes to what the sources alike come
to. If no two sources have equal paths, the files are the sources, each with what it comes to on its
own, and the same report is given for the sources in any order. -/
theorem report_by_path (linter : Linter) (checkReferences : Bool) (sources : List Source) :
    ((∃ report, linter.lint checkReferences sources = .ok report) ↔
      ∀ u ∈ units sources,
        ∃ found, linter.validate ⟨checkReferences, units sources⟩ u = .ok found) ∧
    ∀ report, linter.lint checkReferences sources = .ok report →
      report.files.Pairwise (fun f g => f.1.key < g.1.key) ∧
      (∀ s ∈ sources, ∃ f ∈ report.files, f.1.key = s.path.key) ∧
      (∀ f ∈ report.files, (∃ s ∈ sources, s.path = f.1) ∧
        Settles linter ⟨checkReferences, units sources⟩ (alike f.1 sources) f.2) ∧
      ((sources.map (·.path.key)).Nodup →
        (∀ f, f ∈ report.files ↔ ∃ s ∈ sources, s.path = f.1 ∧
          linter.settle ⟨checkReferences, units sources⟩ s = .ok f.2) ∧
        ∀ sources', sources.Perm sources' →
          linter.lint checkReferences sources' = .ok report) := by
  refine ⟨exists_lint_iff, fun report h => ⟨ascending_of_lint h, fun s hs => ?_, fun f hf => ?_,
    fun hne => ⟨fun f => mem_files_iff h hne, fun sources' hperm => lint_perm hperm h hne⟩⟩⟩
  · have hmem : s ∈ alike s.path sources := mem_alike.mpr ⟨hs, rfl⟩
    obtain ⟨r, hr, -⟩ := settles_file? h (List.ne_nil_of_mem hmem)
    obtain ⟨f, hf, hkey, -⟩ := (Report.file?_eq_some_iff (ascending_of_lint h)).mp hr
    exact ⟨f, hf, hkey⟩
  · exact ⟨exists_source_of_mem h hf, settles_of_mem h hf⟩

/-- A unit counts before a later source of an equal path that does not parse, and a pod and a file
that does not parse are reported alike in both orders. -/
theorem report_by_path_reordered :
    let pod : Source := ⟨⟨"x/a.pod"⟩, "[Pod]
Volume=b.volume
"⟩
    let alike : Source := ⟨⟨"x//a.pod"⟩, "[Pod]
Volume
"⟩
    let volume : Source := ⟨⟨"b.volume"⟩, "[Volume
"⟩
    let missing : FileReport :=
      ⟨[], [⟨"pod", .invalidReference, ⟨2, 7⟩, "requested volume unit b.volume was not found"⟩]⟩
    let malformed : FileReport := ⟨[⟨⟨1, 0⟩, none, none, .unrecognizedLine⟩], []⟩
    (builtin.lint true [pod, alike] = .ok ⟨[(alike.path, missing)]⟩ ∧
      Settles builtin ⟨true, units [pod, alike]⟩ (Linter.alike alike.path [pod, alike]) missing) ∧
    builtin.lint true [pod, volume] = .ok ⟨[(volume.path, malformed), (pod.path, missing)]⟩ ∧
      builtin.lint true [volume, pod] = .ok ⟨[(volume.path, malformed), (pod.path, missing)]⟩ := by
  intro pod alike volume missing malformed
  constructor
  · have h : builtin.lint true [pod, alike] = .ok ⟨[(alike.path, missing)]⟩ := by
      rw [builtin_eq]
      decide +kernel
    obtain ⟨-, -, hfiles, -⟩ := (report_by_path builtin true [pod, alike]).2 _ h
    exact ⟨h, (hfiles _ (List.mem_singleton.mpr rfl)).2⟩
  · have h : builtin.lint true [pod, volume] =
        .ok ⟨[(volume.path, malformed), (pod.path, missing)]⟩ := by
      rw [builtin_eq]
      decide +kernel
    obtain ⟨-, -, -, hdistinct⟩ := (report_by_path builtin true [pod, volume]).2 _ h
    exact ⟨h, (hdistinct (by decide)).2 _ (List.Perm.swap ..)⟩

end UnitLint.Linter
