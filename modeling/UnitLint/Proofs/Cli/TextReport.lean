import UnitLint.Cli.Elapsed
import UnitLint.Cli.TextReport
import UnitLint.Proofs.Cli.ExitStatus
import UnitLint.Proofs.Lint.Newline

/-! # The lines of a text report

Whatever the parts of a report are styled with, they have the line feeds of their texts. Places,
counts, names and times have none, so a line about an error or a finding has those of its message,
and of the path of its file. -/

namespace UnitLint.Cli

open Text

variable {color : Bool}

/-! ### Parts of lines -/

theorem newline_notMem_styled {style : Style} {text : String} (h : '\n' ∉ text.toList) :
    '\n' ∉ (styled color style text).toList := by
  have hcode : '\n' ∉ style.code.toList := by cases style <;> decide
  have hreset : '\n' ∉ styleReset.toList := by decide
  unfold styled
  split
  · simp [hcode, hreset, h]
  · exact h

theorem newline_notMem_location (l : Location) : '\n' ∉ l.text.toList := by
  simp [Location.text]

theorem newline_notMem_placeText {path : Path} (h : '\n' ∉ path.text.toList) (l : Location) :
    '\n' ∉ (placeText color path l).toList := by
  have hpath : '\n' ∉ (styled color .bold path.text).toList := newline_notMem_styled h
  simp [placeText, hpath, newline_notMem_location]

/-! ### Lines -/

theorem newline_notMem_parseErrorLine {path : Path} (hpath : '\n' ∉ path.text.toList)
    {e : ParseError} (h : '\n' ∉ e.fault.message.toList) :
    '\n' ∉ (parseErrorLine color path e).toList := by
  have hplace : '\n' ∉ (placeText color path e.location).toList :=
    newline_notMem_placeText hpath e.location
  have hkind : '\n' ∉ (styled color (severityStyle .error) "error[syntax]").toList :=
    newline_notMem_styled (by decide)
  simp [parseErrorLine, hplace, hkind, h]

theorem newline_notMem_findingLine {path : Path} (hpath : '\n' ∉ path.text.toList) {x : Finding}
    (h : '\n' ∉ x.message.toList) (hvalidator : '\n' ∉ x.validator.toList) :
    '\n' ∉ (findingLine color path x).toList := by
  have hplace : '\n' ∉ (placeText color path x.location).toList :=
    newline_notMem_placeText hpath x.location
  have hseverity : '\n' ∉ x.severity.name.toList := by cases x.severity <;> decide
  have hcategory : '\n' ∉ x.category.name.toList := by cases x.category <;> decide
  have hkind : '\n' ∉ (styled color (severityStyle x.severity)
      (x.severity.name ++ "[" ++ x.category.name ++ "]")).toList :=
    newline_notMem_styled (by simp [hseverity, hcategory])
  have hname : '\n' ∉ (styled color .dim ("(" ++ x.validator ++ ")")).toList :=
    newline_notMem_styled (by simp [hvalidator])
  simp [findingLine, hplace, hkind, hname, h]

theorem newline_notMem_summaryLine (r : Report) : '\n' ∉ (summaryLine color r).toList := by
  have hfiles : '\n' ∉
      (styled color .bold (toString r.files.length ++ " file(s) checked:")).toList :=
    newline_notMem_styled (by simp)
  have hcount : ∀ severity count, '\n' ∉ (countText color severity count).toList := by
    intro severity count
    have hname : '\n' ∉ severity.name.toList := by cases severity <;> decide
    exact newline_notMem_styled (by simp [hname])
  unfold summaryLine
  simp only [String.toList_append, List.mem_append, not_or]
  exact ⟨⟨⟨⟨hfiles, by decide⟩, hcount _ _⟩, by decide⟩, hcount _ _⟩

theorem newline_notMem_decimalText (count places : Nat) {unit : String}
    (h : '\n' ∉ unit.toList) : '\n' ∉ (decimalText count places unit).toList := by
  have hkept : ∀ n, '\n' ∉ ((Nat.toDigits 10 n).tail.reverse.dropWhile (· == '0')).reverse := by
    intro n hmem
    have hdropped := List.mem_reverse.mp hmem
    have htail := List.mem_reverse.mp ((List.dropWhile_suffix _).subset hdropped)
    exact newline_notMem_decimal n (List.mem_of_mem_tail htail)
  unfold decimalText
  dsimp only
  split
  · simp [h]
  · simp [h, hkept]

theorem newline_notMem_elapsedText (nanoseconds : Nat) :
    '\n' ∉ (elapsedText nanoseconds).toList := by
  unfold elapsedText
  split_ifs <;> exact newline_notMem_decimalText _ _ (by decide)

/-- The lines of a text report, where none breaks. -/
theorem splitOn_textReport {time : String} {r : Report}
    (h : ∀ l ∈ textLines color time r, '\n' ∉ l.toList) :
    (textReport color time r).toList.splitOn '\n' =
      (textLines color time r).map String.toList ++ [[]] := by
  have htext : (textReport color time r).toList =
      ((textLines color time r).map String.toList).flatMap (· ++ ['\n']) := by
    simp [textReport, String.toList_join, List.flatMap_map]
  rw [htext]
  refine splitOn_terminated fun l hl => ?_
  obtain ⟨line, hline, rfl⟩ := List.mem_map.mp hl
  exact h line hline

/-! ### Reports of the built-in linter -/

theorem newline_notMem_fileLines {checkReferences : Bool} {sources : List Source} {report : Report}
    (h : Linter.builtin.lint checkReferences sources = .ok report)
    (hpaths : ∀ s ∈ sources, '\n' ∉ s.path.text.toList) {f : Path × FileReport}
    (hf : f ∈ report.files) (hmessages : ∀ x ∈ f.2.findings, '\n' ∉ x.message.toList) :
    ∀ l ∈ fileLines color f.1 f.2, '\n' ∉ l.toList := by
  obtain ⟨s, hs, hpath⟩ := Linter.exists_source_of_mem h hf
  have hpath := hpath ▸ hpaths s hs
  intro l hl
  rcases List.mem_append.mp hl with hl | hl
  · obtain ⟨e, he, rfl⟩ := List.mem_map.mp hl
    exact newline_notMem_parseErrorLine hpath (Linter.newline_notMem_of_mem_parseErrors h hf he)
  · obtain ⟨x, hx, rfl⟩ := List.mem_map.mp hl
    exact newline_notMem_findingLine hpath (hmessages x hx)
      (Linter.newline_notMem_validator_of_mem h hf hx)

theorem newline_notMem_textLines {checkReferences : Bool} {sources : List Source} {report : Report}
    (h : Linter.builtin.lint checkReferences sources = .ok report)
    (hpaths : ∀ s ∈ sources, '\n' ∉ s.path.text.toList)
    (hmessages : ∀ f ∈ report.files, ∀ x ∈ f.2.findings, '\n' ∉ x.message.toList)
    (nanoseconds : Nat) :
    ∀ l ∈ textLines color (elapsedText nanoseconds) report, '\n' ∉ l.toList := by
  intro l hl
  rcases List.mem_append.mp hl with hl | hl
  · obtain ⟨f, hf, hl⟩ := List.mem_flatMap.mp hl
    exact newline_notMem_fileLines h hpaths hf (hmessages f hf) l hl
  · have htime := newline_notMem_elapsedText nanoseconds
    simp only [List.mem_cons, List.not_mem_nil, or_false] at hl
    rcases hl with rfl | rfl | rfl
    · decide
    · exact newline_notMem_summaryLine report
    · exact newline_notMem_styled (by simp [htime])

/-- **A text report has a line for each error and finding**, but where it is about a broken integer.
The built-in linter gives a report on all sources, and no message of a syntax error in it has a line
feed. Those of findings that have one are about broken integers, and all of these have one. If there
are none, and no path has a line feed, the lines of the text are one for each syntax error and one
for each finding, in the order of the files, and after them a blank line, the counts, and the time.
-/
theorem text_report_lines {sources : List Source}
    (hpaths : ∀ s ∈ sources, '\n' ∉ s.path.text.toList) (checkReferences color : Bool)
    (nanoseconds : Nat) : ∃ report, Linter.builtin.lint checkReferences sources = .ok report ∧
      (∀ f ∈ report.files, ∀ e ∈ f.2.parseErrors, '\n' ∉ e.fault.message.toList) ∧
      (∀ f ∈ report.files, ∀ x, x ∈ f.2.findings ∧ '\n' ∈ x.message.toList ↔
        Linter.BreaksLine sources f.1 x) ∧
      ((∀ f ∈ report.files, ∀ x, ¬ Linter.BreaksLine sources f.1 x) →
        (textReport color (elapsedText nanoseconds) report).toList.splitOn '\n' =
          (report.files.flatMap (fun f => f.2.parseErrors.map (parseErrorLine color f.1) ++
              f.2.findings.map (findingLine color f.1)) ++
            ["", summaryLine color report,
              styled color .dim ("  elapsed " ++ elapsedText nanoseconds)]).map String.toList ++
          [[]]) := by
  obtain ⟨report, hreport⟩ := exists_report checkReferences sources
  have hbreaks : ∀ f ∈ report.files, ∀ x, x ∈ f.2.findings ∧ '\n' ∈ x.message.toList ↔
      Linter.BreaksLine sources f.1 x := fun f hf x => Linter.newline_mem_file_iff hreport hf
  refine ⟨report, hreport, fun f hf e he => ?_, hbreaks, fun hnone => ?_⟩
  · exact Linter.newline_notMem_of_mem_parseErrors hreport hf he
  · refine splitOn_textReport (newline_notMem_textLines hreport hpaths ?_ nanoseconds)
    exact fun f hf x hx hnewline => hnone f hf x ((hbreaks f hf x).mp ⟨hx, hnewline⟩)

/-- An integer field without an integer, and a file that does not parse. -/
theorem text_report_lines_files :
    let container : Source := ⟨⟨"a.container"⟩, "[Container]
Image=quay.io/x/y
PidsLimit=many
"⟩
    let pod : Source := ⟨⟨"b.pod"⟩, "[Pod]
PodName
"⟩
    (∀ s ∈ [container, pod], '\n' ∉ s.path.text.toList) ∧
      ∃ report, Linter.builtin.lint false [container, pod] = .ok report ∧
        (textReport false (elapsedText 1500) report).toList.splitOn '\n' =
          ["a.container:3:10: error[invalid-value] invalid integer 'many' for key PidsLimit (container)",
            "b.pod:2:0: error[syntax] line is not a key-value pair or group",
            "",
            "2 file(s) checked:  2 error(s)  0 warning(s)",
            "  elapsed 1.5µs"].map String.toList ++ [[]] := by
  intro container pod
  let found : Report := ⟨[
    (⟨"a.container"⟩, ⟨[], [⟨"container", .invalidValue, ⟨3, 10⟩,
      "invalid integer 'many' for key PidsLimit"⟩]⟩),
    (⟨"b.pod"⟩, ⟨[⟨⟨2, 0⟩, some "Pod", none, .unrecognizedLine⟩], []⟩)]⟩
  have hpaths : ∀ s ∈ [container, pod], '\n' ∉ s.path.text.toList := by decide
  have hfound : Linter.builtin.lint false [container, pod] = .ok found := by
    rw [Linter.builtin_eq]
    decide +kernel
  have hplain : ∀ f ∈ found.files, ∀ x ∈ f.2.findings, '\n' ∉ x.message.toList := by
    decide
  obtain ⟨report, hreport, -, hbreaks, hlines⟩ := text_report_lines hpaths false false 1500
  obtain rfl : report = found := Except.ok.inj (hreport.symm.trans hfound)
  refine ⟨hpaths, found, hreport, (hlines fun f hf x hx => ?_).trans
    (congrArg (fun ls : List String => ls.map String.toList ++ [[]]) (by decide))⟩
  obtain ⟨hmem, hnewline⟩ := (hbreaks f hf x).mpr hx
  exact hplain f hf x hmem hnewline

/-- A finding about a broken integer takes up two lines. -/
theorem text_report_lines_broken : ¬ ∀ sources : List Source,
    (∀ s ∈ sources, '\n' ∉ s.path.text.toList) → ∀ (checkReferences color : Bool)
      (nanoseconds : Nat) (report : Report),
      Linter.builtin.lint checkReferences sources = .ok report →
        (textReport color (elapsedText nanoseconds) report).toList.splitOn '\n' =
          (report.files.flatMap (fun f => f.2.parseErrors.map (parseErrorLine color f.1) ++
              f.2.findings.map (findingLine color f.1)) ++
            ["", summaryLine color report,
              styled color .dim ("  elapsed " ++ elapsedText nanoseconds)]).map String.toList ++
          [[]] := by
  intro h
  have hfound : Linter.builtin.lint false [⟨⟨"a.container"⟩, "[Container]
Image=quay.io/x/y
PidsLimit=a\\
b
"⟩] = .ok ⟨[(⟨"a.container"⟩, ⟨[], [⟨"container", .invalidValue, ⟨3, 10⟩,
        "invalid integer 'a\\\nb' for key PidsLimit"⟩]⟩)]⟩ := by
    rw [Linter.builtin_eq]
    decide +kernel
  have hlines := h _ (by decide) false false 0 _ hfound
  revert hlines
  decide +kernel

end UnitLint.Cli
