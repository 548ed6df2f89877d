import UnitLint.Cli.Run
import UnitLint.Proofs.Cli.Collection
import UnitLint.Proofs.Cli.FileSystem
import UnitLint.Proofs.Lint.Errors
import UnitLint.Proofs.Lint.Views

/-! # The exit status

A run that is not asked for help or for the version ends in one of three ways. It ends with status 2
and prints nothing on standard output if its arguments are rejected or some path that it collects
has no text. Otherwise there is a report, and the status is 1 or 0: whether some file has errors
(`exit_status`). Neither the format nor colour has a say in that. -/

namespace UnitLint.Cli

variable {fs : FileSystem} {color : Bool} {time : String} {args : List String} {config : Config}
  {sources : List Source}

/-! ### Arguments -/

/-- The arguments that ask for help or for the version. -/
def informational : List String := ["-h", "--help", "-V", "--version"]

theorem mem_informational_of_stop {config : Config} {arg : String} {command : Command}
    (h : readArgument config arg = .stop (.ok command)) : arg ∈ informational := by
  revert h
  fun_cases readArgument config arg with
  | case1 hhelp =>
    intro _
    rcases Bool.or_eq_true_iff.mp hhelp with h | h <;> simp [beq_iff_eq.mp h, informational]
  | case2 _ hversion =>
    intro _
    rcases Bool.or_eq_true_iff.mp hversion with h | h <;> simp [beq_iff_eq.mp h, informational]
  | _ => exact nofun

theorem lint_of_readArguments {config : Config} {args : List String} {command : Command}
    (hargs : ∀ arg ∈ args, arg ∉ informational) (h : readArguments config args = .ok command) :
    ∃ config', command = .lint config' := by
  have hfinish : ∀ {config : Config}, finish config = .ok command →
      ∃ config', command = .lint config' := by
    intro config h
    unfold finish at h
    split at h <;> cases h
    exact ⟨config, rfl⟩
  fun_induction readArguments config args with
  | case1 config => exact hfinish h
  | case2 config arg args config' hnext ih =>
    exact ih (fun a ha => hargs a (List.mem_cons_of_mem arg ha)) h
  | case3 config arg args hpaths => exact hfinish h
  | case4 config arg args answer hstop =>
    rw [h] at hstop
    exact absurd (mem_informational_of_stop hstop) (hargs arg List.mem_cons_self)
  | case5 => cases h
  | case6 config arg hformat name rest format hname ih =>
    refine ih (fun a ha => hargs a ?_) h
    exact List.mem_cons_of_mem arg (List.mem_cons_of_mem name ha)
  | case7 => cases h

/-- The arguments are rejected. -/
def Rejected (color : Bool) (args : List String) : Prop := ∃ e, parseArguments color args = .error e

/-- The arguments ask for a run. -/
def Asks (color : Bool) (args : List String) (config : Config) : Prop :=
  parseArguments color args = .ok (.lint config)

theorem rejected_or_asks (color : Bool) (hargs : ∀ arg ∈ args, arg ∉ informational) :
    Rejected color args ∨ ∃ config, Asks color args config := by
  unfold Rejected Asks
  cases hparse : parseArguments color args with
  | error e => exact Or.inl ⟨e, rfl⟩
  | ok command =>
    obtain ⟨config, rfl⟩ := lint_of_readArguments hargs hparse
    exact Or.inr ⟨config, rfl⟩

theorem Asks.not_rejected (h : Asks color args config) : ¬ Rejected color args := by
  rintro ⟨e, he⟩
  unfold Asks at h
  rw [he] at h
  cases h

theorem Asks.unique {config' : Config} (h : Asks color args config)
    (h' : Asks color args config') : config = config' := by
  unfold Asks at h h'
  rw [h] at h'
  cases h'
  rfl

/-! ### The three ends of a run -/

/-- The sources are the collected paths with their texts. -/
def Collects (fs : FileSystem) (paths : List Path) (sources : List Source) : Prop :=
  List.Forall₂ (fun p s => s.path = p ∧ HasText fs p s.text) (paths.flatMap (collected fs)) sources

theorem run_of_rejected {e : ArgumentError} (h : parseArguments color args = .error e) :
    run fs color time args = .failure 2 e.message := by
  rw [run, evaluate, h]
  rfl

theorem run_of_error (h : Asks color args config) {e : ReadFailure}
    (he : collectSources fs config.paths = .error e) :
    run fs color time args = .failure 2 e.message := by
  unfold Asks at h
  rw [run, evaluate, h]
  dsimp only
  rw [runLint, he]
  rfl

/-- The built-in linter gives a report on all sources. -/
theorem exists_report (checkReferences : Bool) (sources : List Source) :
    ∃ report, Linter.builtin.lint checkReferences sources = .ok report := by
  have hvalidate := Linter.exists_validate Linter.ofCatalog_builtin Linter.scalarWhereViewed_builtin
  exact Linter.exists_lint_iff.mpr fun u _ => hvalidate _ u

theorem run_of_sources (h : Asks color args config) (hsources : Collects fs config.paths sources)
    (time : String) :
    ∃ report, Linter.builtin.lint config.checkReferences sources = .ok report ∧
      run fs color time args = ⟨exitStatus report, render config time report, ""⟩ := by
  obtain ⟨report, hreport⟩ := exists_report config.checkReferences sources
  refine ⟨report, hreport, ?_⟩
  unfold Asks at h
  rw [run, evaluate, h]
  dsimp only
  rw [runLint, collectSources_eq_ok_iff.mpr hsources]
  dsimp only
  rw [lintSources, hreport]
  rfl

theorem exists_sources_or_error (fs : FileSystem) (config : Config) :
    (∃ sources, Collects fs config.paths sources) ∨
      ∃ e, collectSources fs config.paths = .error e := by
  cases hcollect : collectSources fs config.paths with
  | error e => exact Or.inr ⟨e, rfl⟩
  | ok sources => exact Or.inl ⟨sources, collectSources_eq_ok_iff.mp hcollect⟩

theorem Collects.readable (h : Collects fs config.paths sources) :
    ¬ ∃ p ∈ config.paths.flatMap (collected fs), Unreadable fs p := by
  rw [← exists_error_iff, collectSources_eq_ok_iff.mpr h]
  rintro ⟨e, he⟩
  cases he

theorem Collects.unique {sources' : List Source} (h : Collects fs config.paths sources)
    (h' : Collects fs config.paths sources') : sources = sources' := by
  have hsources := collectSources_eq_ok_iff.mpr h
  rw [collectSources_eq_ok_iff.mpr h'] at hsources
  exact (Except.ok.inj hsources).symm

/-- Texts that a coherent file system leads to are the same at equal paths. -/
theorem Collects.coherent (h : Collects fs config.paths sources) (hfs : fs.Coherent) :
    Linter.Coherent sources := by
  have htext : ∀ s ∈ sources, HasText fs s.path s.text := by
    intro s hs
    have hread := collectSources_eq_ok_iff_mapM.mp (collectSources_eq_ok_iff.mpr h)
    obtain ⟨p, -, hp⟩ := exists_of_mem_mapM hread hs
    obtain ⟨rfl, htext⟩ := readSource_eq_ok_iff.mp hp
    exact htext
  intro s hs t ht hkey
  obtain ⟨regular, hs⟩ := htext s hs
  obtain ⟨regular', ht⟩ := htext t ht
  have hbytes := hfs _ _ hkey _ _ _ _ hs ht
  exact String.toList_injective (Text.Utf8.eq_of_encode_eq hbytes)

/-! ### The status -/

theorem exitStatus_le (r : Report) : exitStatus r ≤ 1 := by
  unfold exitStatus
  split
  · exact Nat.le_refl 1
  · exact Nat.zero_le 1

theorem exitStatus_eq_one_iff {r : Report} : exitStatus r = 1 ↔ ∃ f ∈ r.files, f.2.HasErrors := by
  rw [← Report.hasBlockingErrors_iff]
  unfold exitStatus
  split <;> simp_all

/-- Some file of the run has errors: what the sources with its path, or an equal one, come to. -/
def SomeErrors (checkReferences : Bool) (sources : List Source) : Prop :=
  ∃ s ∈ sources, ∃ r,
    Linter.Settles Linter.builtin ⟨checkReferences, Linter.units sources⟩
      (Linter.alike s.path sources) r ∧ r.HasErrors

/-- Where equal paths have equal texts, a file is what it is on its own among the units. -/
theorem someErrors_iff {checkReferences : Bool} (h : Linter.Coherent sources) :
    SomeErrors checkReferences sources ↔ ∃ s ∈ sources, ∃ r,
      Linter.builtin.settle ⟨checkReferences, Linter.units sources⟩ s = .ok r ∧ r.HasErrors := by
  unfold SomeErrors
  refine exists_congr fun s => and_congr_right fun hs => exists_congr fun r => ?_
  rw [Linter.settles_alike_iff Linter.ofCatalog_builtin h hs]

theorem status_of_sources (h : Asks color args config)
    (hsources : Collects fs config.paths sources) (time : String) :
    (run fs color time args).status ≤ 1 ∧
      ((run fs color time args).status = 1 ↔ SomeErrors config.checkReferences sources) := by
  obtain ⟨report, hreport, hrun⟩ := run_of_sources h hsources time
  rw [hrun]
  refine ⟨exitStatus_le report, ?_⟩
  rw [SomeErrors, ← Linter.exists_file_iff hreport FileReport.HasErrors]
  exact exitStatus_eq_one_iff

/-- Runs on the same paths that check references alike, or not, have the same status. -/
theorem status_congr {color' : Bool} {args' : List String} {config' : Config}
    (h : Asks color args config) (h' : Asks color' args' config')
    (hpaths : config.paths = config'.paths)
    (hrefs : config.checkReferences = config'.checkReferences) (time time' : String) :
    (run fs color time args).status = (run fs color' time' args').status := by
  rcases exists_sources_or_error fs config with ⟨sources, hsources⟩ | ⟨e, he⟩
  · have hsources' : Collects fs config'.paths sources := by rwa [← hpaths]
    obtain ⟨report, hreport, hrun⟩ := run_of_sources h hsources time
    obtain ⟨report', hreport', hrun'⟩ := run_of_sources h' hsources' time'
    rw [hrefs, hreport'] at hreport
    obtain rfl := Except.ok.inj hreport
    rw [hrun, hrun']
  · have he' : collectSources fs config'.paths = .error e := by rwa [← hpaths]
    rw [run_of_error h he, run_of_error h' he']

/-- The arguments are rejected, or some path that is collected has no text. -/
def Fails (fs : FileSystem) (color : Bool) (args : List String) : Prop :=
  Rejected color args ∨ ∃ config, Asks color args config ∧
    ∃ p ∈ config.paths.flatMap (collected fs), Unreadable fs p

theorem fails_or_collects (fs : FileSystem) (color : Bool)
    (hargs : ∀ arg ∈ args, arg ∉ informational) : Fails fs color args ∨
      ∃ config sources, Asks color args config ∧ Collects fs config.paths sources := by
  rcases rejected_or_asks color hargs with hrejected | ⟨config, hasks⟩
  · exact Or.inl (Or.inl hrejected)
  · rcases exists_sources_or_error fs config with ⟨sources, hsources⟩ | ⟨e, he⟩
    · exact Or.inr ⟨config, sources, hasks, hsources⟩
    · exact Or.inl (Or.inr ⟨config, hasks, exists_error_iff.mp ⟨e, he⟩⟩)

theorem run_of_fails (h : Fails fs color args) (time : String) :
    (run fs color time args).status = 2 ∧ (run fs color time args).output = "" := by
  rcases h with ⟨e, he⟩ | ⟨config, hasks, hunreadable⟩
  · rw [run_of_rejected he]
    exact ⟨rfl, rfl⟩
  · obtain ⟨e, he⟩ := exists_error_iff.mpr hunreadable
    rw [run_of_error hasks he]
    exact ⟨rfl, rfl⟩

theorem not_fails (h : Asks color args config) (hsources : Collects fs config.paths sources) :
    ¬ Fails fs color args := by
  rintro (hrejected | ⟨config', hasks, hunreadable⟩)
  · exact h.not_rejected hrejected
  · obtain rfl := h.unique hasks
    exact hsources.readable hunreadable

/-- **A run fails** with status 2 just if its arguments are rejected or some path has no text. -/
theorem status_eq_two_iff (hargs : ∀ arg ∈ args, arg ∉ informational) :
    (run fs color time args).status = 2 ↔ Fails fs color args := by
  refine ⟨fun h => ?_, fun h => (run_of_fails h time).1⟩
  rcases fails_or_collects fs color hargs with hfails | ⟨config, sources, hasks, hsources⟩
  · exact hfails
  · have hle := (status_of_sources hasks hsources time).1
    omega

/-- **A run finds errors** with status 1 just if some file has errors. -/
theorem status_eq_one_iff (hargs : ∀ arg ∈ args, arg ∉ informational) :
    (run fs color time args).status = 1 ↔ ∃ config sources, Asks color args config ∧
      Collects fs config.paths sources ∧ SomeErrors config.checkReferences sources := by
  constructor
  · intro h
    rcases fails_or_collects fs color hargs with hfails | ⟨config, sources, hasks, hsources⟩
    · rw [(run_of_fails hfails time).1] at h
      cases h
    · exact ⟨config, sources, hasks, hsources, (status_of_sources hasks hsources time).2.mp h⟩
  · rintro ⟨config, sources, hasks, hsources, herrors⟩
    exact (status_of_sources hasks hsources time).2.mpr herrors

theorem status_le_two (hargs : ∀ arg ∈ args, arg ∉ informational) :
    (run fs color time args).status ≤ 2 := by
  rcases fails_or_collects fs color hargs with hfails | ⟨config, sources, hasks, hsources⟩
  · rw [(run_of_fails hfails time).1]
  · exact Nat.le_succ_of_le (status_of_sources hasks hsources time).1

/-- **The exit status is exact**, unless help or the version is asked for. It is 2, and nothing is
printed on standard output, just if the arguments are rejected or some collected path has no text;
then the first such path is named. Otherwise it is 1 just if some collected file has syntax errors
or findings that are more than warnings, and else it is 0. It is the same in both formats and with
or without colour, and the counts of a report are those of its files. -/
theorem exit_status (fs : FileSystem) (color : Bool) (time : String) {args : List String}
    (hargs : ∀ arg ∈ args, arg ∉ informational) :
    ((run fs color time args).status = 2 ↔ Fails fs color args) ∧
    (Fails fs color args → (run fs color time args).output = "") ∧
    (∀ config, Asks color args config → Fails fs color args →
      ∃ e : ReadFailure, (run fs color time args).errors = e.message ++ "\n" ∧
        Names fs config.paths e) ∧
    ((run fs color time args).status = 1 ↔ ∃ config sources, Asks color args config ∧
      Collects fs config.paths sources ∧ SomeErrors config.checkReferences sources) ∧
    (fs.Coherent → ((run fs color time args).status = 1 ↔ ∃ config sources,
      Asks color args config ∧ Collects fs config.paths sources ∧ ∃ s ∈ sources, ∃ r,
        Linter.builtin.settle ⟨config.checkReferences, Linter.units sources⟩ s = .ok r ∧
          r.HasErrors)) ∧
    (run fs color time args).status ≤ 2 ∧
    (∀ color' time' args' config config', Asks color args config → Asks color' args' config' →
      config.paths = config'.paths → config.checkReferences = config'.checkReferences →
        (run fs color time args).status = (run fs color' time' args').status) ∧
    ∀ report : Report, report.summary.errors = (report.files.map (·.2.errorCount)).sum ∧
      report.summary.warnings = (report.files.map (·.2.warningCount)).sum := by
  refine ⟨status_eq_two_iff hargs, fun h => (run_of_fails h time).2, ?named,
    status_eq_one_iff hargs, ?coherent, status_le_two hargs, ?format, Report.summary_eq⟩
  case named =>
    intro config hasks hfails
    rcases exists_sources_or_error fs config with ⟨sources, hsources⟩ | ⟨e, he⟩
    · exact absurd hfails (not_fails hasks hsources)
    · exact ⟨e, by rw [run_of_error hasks he]; rfl, names_of_error he⟩
  case coherent =>
    intro hfs
    rw [status_eq_one_iff hargs]
    refine exists_congr fun config => exists_congr fun sources => and_congr_right fun _ =>
      and_congr_right fun hsources => ?_
    exact someErrors_iff (hsources.coherent hfs)
  case format =>
    intro color' time' args' config config' h h' hpaths hrefs
    exact status_congr h h' hpaths hrefs time time'

/-- A file that has a warning and one that does not parse, and then one whose bytes are no text. -/
theorem exit_status_files :
    let web : TreeEntry := .ofPath ⟨"etc/web.container"⟩
      (some (Text.Utf8.encode "[Container]\nImage=fedora\n".toList))
    let pod : TreeEntry := .ofPath ⟨"etc/a.pod"⟩ (some (Text.Utf8.encode "[Pod\n".toList))
    let binary : TreeEntry := .ofPath ⟨"etc/b.kube"⟩ (some [0x5B, 0xC0])
    let fs := TreeEntry.fileSystem [web, pod, binary]
    let args := ["--check-references", "etc//web.container", "etc/a.pod", "--format", "json"]
    (∀ arg ∈ args, arg ∉ informational) ∧
      (∃ config sources, Asks true args config ∧ Collects fs config.paths sources ∧
        ∃ s ∈ sources, ∃ r,
          Linter.builtin.settle ⟨config.checkReferences, Linter.units sources⟩ s = .ok r ∧
            r.HasErrors) ∧
      (∀ arg ∈ "etc/b.kube" :: args, arg ∉ informational) ∧
      Fails fs true ("etc/b.kube" :: args) := by
  intro web pod binary fs args
  let paths : List Path := [⟨"etc//web.container"⟩, ⟨"etc/a.pod"⟩]
  let sources : List Source :=
    [⟨⟨"etc//web.container"⟩, "[Container]\nImage=fedora\n"⟩, ⟨⟨"etc/a.pod"⟩, "[Pod\n"⟩]
  let found : Report := ⟨[
    (⟨"etc/a.pod"⟩, ⟨[⟨⟨1, 0⟩, none, none, .unrecognizedLine⟩], []⟩),
    (⟨"etc//web.container"⟩, ⟨[], [⟨"container", .ambiguousImageName, ⟨2, 6⟩,
      "image name 'fedora' is not fully qualified"⟩]⟩)]⟩
  have hargs : ∀ arg ∈ args, arg ∉ informational := by decide
  have hargs' : ∀ arg ∈ "etc/b.kube" :: args, arg ∉ informational := by decide
  have hasks : Asks true args ⟨paths, true, .json, true⟩ := by
    unfold Asks
    decide
  have hasks' : Asks true ("etc/b.kube" :: args) ⟨⟨"etc/b.kube"⟩ :: paths, true, .json, true⟩ := by
    unfold Asks
    decide
  have hsources : collectSources fs paths = .ok sources := by decide +kernel
  have hbinary : collectSources fs (⟨"etc/b.kube"⟩ :: paths) =
      .error (.file ⟨"etc/b.kube"⟩ notText) := by decide +kernel
  have hfound : Linter.builtin.lint true sources = .ok found := by
    rw [Linter.builtin_eq]
    decide +kernel
  have herrors : (run fs true "" args).status = 1 := by
    obtain ⟨report, hreport, hrun⟩ :=
      run_of_sources hasks (collectSources_eq_ok_iff.mp hsources) ""
    obtain rfl : report = found := Except.ok.inj (hreport.symm.trans hfound)
    rw [hrun]
    decide
  have hfails : (run fs true "" ("etc/b.kube" :: args)).status = 2 := by
    rw [run_of_error hasks' hbinary]
    rfl
  obtain ⟨-, -, -, -, hstatus, -⟩ := exit_status fs true "" hargs
  refine ⟨hargs, (hstatus (TreeEntry.coherent_fileSystem _)).mp herrors, hargs', ?_⟩
  exact (exit_status fs true "" hargs').1.mp hfails

end UnitLint.Cli
