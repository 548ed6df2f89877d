import Mathlib.Tactic.SplitIfs
import UnitLint.Cli.Arguments

/-! # The two ways to give a format

Arguments after which the reading goes on matter to those after them only by the configuration that
they lead to (`readArguments_append`). A format is given in one argument, after its mark, or in an
argument of its own. The one argument may have the mark again and again, and counts as what comes
after all of them; so the two ways agree just if the format does not itself start with the mark
(`format_ways_agree_iff`). -/

namespace UnitLint.Cli

variable {config config' : Config} {args rest : List String} {color : Bool}

/-! ### Reading on -/

/-- The arguments are read from the first configuration, and the reading goes on after them from the
second one. -/
inductive GoesOn : Config → List String → Config → Prop where
  | done (config : Config) : GoesOn config [] config
  | next {config config' config'' : Config} {arg : String} {args : List String}
      (h : readArgument config arg = .next config') (more : GoesOn config' args config'') :
      GoesOn config (arg :: args) config''
  | format {config config' : Config} {arg name : String} {args : List String} {format : Format}
      (h : readArgument config arg = .format) (hname : Format.ofName name = .ok format)
      (more : GoesOn { config with format := format } args config') :
      GoesOn config (arg :: name :: args) config'

section Argument

variable {arg : String}

theorem readArguments_next (h : readArgument config arg = .next config') (rest : List String) :
    readArguments config (arg :: rest) = readArguments config' rest := by
  conv => lhs; unfold readArguments
  rw [h]

theorem readArguments_stop {answer : Except ArgumentError Command}
    (h : readArgument config arg = .stop answer) (rest : List String) :
    readArguments config (arg :: rest) = answer := by
  unfold readArguments
  rw [h]

theorem readArguments_paths (h : readArgument config arg = .paths) (rest : List String) :
    readArguments config (arg :: rest) =
      finish { config with paths := config.paths ++ rest.map Path.mk } := by
  unfold readArguments
  rw [h]

theorem readArguments_format (h : readArgument config arg = .format) (name : String)
    (rest : List String) : readArguments config (arg :: name :: rest) =
      match Format.ofName name with
      | .ok format => readArguments { config with format := format } rest
      | .error e => .error e := by
  cases hname : Format.ofName name <;> simp only [readArguments, h, hname]

theorem eq_of_readArgument_format (h : readArgument config arg = .format) : arg = "--format" := by
  revert h
  fun_cases readArgument config arg with
  | case6 _ _ _ _ _ hformat => exact fun _ => beq_iff_eq.mp hformat
  | _ => exact nofun

end Argument

/-- **Arguments are read one after another.** -/
theorem readArguments_append (h : GoesOn config args config') (rest : List String) :
    readArguments config (args ++ rest) = readArguments config' rest := by
  induction h with
  | done config => rfl
  | next h more ih => rw [List.cons_append, readArguments_next h, ih]
  | format h hname more ih =>
    rw [List.cons_append, List.cons_append, readArguments_format h, hname]
    exact ih

/-- How arguments are read, whatever comes after them: the reading goes on, or has ended, or takes
all that comes as paths, or waits for a format. -/
inductive ReadsTo (config : Config) (args : List String) : Prop where
  | goesOn {config' : Config} (h : GoesOn config args config')
  | ended {answer : Except ArgumentError Command}
      (h : ∀ rest, readArguments config (args ++ rest) = answer)
  | paths {config' : Config} (h : ∀ rest, readArguments config (args ++ rest) =
      finish { config' with paths := config'.paths ++ rest.map Path.mk })
  | pending {front : List String} {config' : Config} (h : GoesOn config front config')
      (hargs : args = front ++ ["--format"])

/-- Arguments are read as they are after the first of them. -/
theorem ReadsTo.of_tail (first : List String)
    (hgoes : ∀ {args config''}, GoesOn config' args config'' →
      GoesOn config (first ++ args) config'')
    (hread : ∀ rest, readArguments config (first ++ rest) = readArguments config' rest)
    (h : ReadsTo config' args) : ReadsTo config (first ++ args) := by
  cases h with
  | goesOn h => exact .goesOn (hgoes h)
  | ended h => exact .ended fun rest => by rw [List.append_assoc, hread, h rest]
  | paths h => exact .paths fun rest => by rw [List.append_assoc, hread, h rest]
  | pending h hargs => exact .pending (hgoes h) (by rw [hargs, List.append_assoc])

/-- **All arguments are read** in one of these ways. -/
theorem readsTo (config : Config) (args : List String) : ReadsTo config args := by
  fun_induction readArguments config args with
  | case1 config => exact .goesOn (.done config)
  | case2 config arg args config' hnext ih =>
    exact ih.of_tail [arg] (.next hnext) (readArguments_next hnext)
  | case3 config arg args hpaths =>
    let config' : Config := { config with paths := config.paths ++ args.map Path.mk }
    have hread : ∀ rest, readArguments config (arg :: args ++ rest) =
        finish { config' with paths := config'.paths ++ rest.map Path.mk } := by
      intro rest
      rw [List.cons_append, readArguments_paths hpaths, List.map_append, ← List.append_assoc]
    exact .paths hread
  | case4 config arg args answer hstop => exact .ended fun rest => readArguments_stop hstop _
  | case5 config arg hformat =>
    exact .pending (.done config) (by rw [eq_of_readArgument_format hformat]; rfl)
  | case6 config arg hformat name rest format hname ih =>
    refine ih.of_tail [arg, name] (.format hformat hname) fun more => ?_
    rw [List.cons_append, List.cons_append, List.nil_append, readArguments_format hformat, hname]
  | case7 config arg hformat name rest e hname =>
    have hread : ∀ more, readArguments config (arg :: name :: rest ++ more) = .error e := by
      intro more
      rw [List.cons_append, List.cons_append, readArguments_format hformat, hname]
    exact .ended hread

/-! ### Marks -/

theorem afterMarks_append (s : List Char) : afterMarks (formatMark ++ s) = afterMarks s := by
  have hprefix : formatMark.isPrefixOf (formatMark ++ s) = true :=
    List.isPrefixOf_iff_prefix.mpr (List.prefix_append formatMark s)
  rw [afterMarks, if_pos hprefix, List.drop_left]

theorem afterMarks_eq_self {s : List Char} (h : ¬ formatMark <+: s) : afterMarks s = s := by
  rw [afterMarks, if_neg (mt List.isPrefixOf_iff_prefix.mp h)]

/-- A text is some marks, and after them a text that does not start with one. -/
theorem exists_marks (s : List Char) : ∃ n,
    s = (List.replicate n formatMark).flatten ++ afterMarks s ∧ ¬ formatMark <+: afterMarks s := by
  fun_induction afterMarks s with
  | case1 s h ih =>
    obtain ⟨n, hs, hafter⟩ := ih
    obtain ⟨t, rfl⟩ := List.isPrefixOf_iff_prefix.mp h
    rw [List.drop_left] at hs hafter ⊢
    refine ⟨n + 1, ?_, hafter⟩
    rw [List.replicate_succ, List.flatten_cons, List.append_assoc, ← hs]
  | case2 s h =>
    exact ⟨0, rfl, mt List.isPrefixOf_iff_prefix.mpr h⟩

/-! ### Formats -/

/-- A format in an argument of its own. -/
theorem readArguments_apart (config : Config) (name : String) (rest : List String) :
    readArguments config ("--format" :: name :: rest) =
      if name = "text" then readArguments { config with format := .text } rest
      else if name = "json" then readArguments { config with format := .json } rest
      else .error (.invalidFormat name) := by
  have hread : readArgument config "--format" = .format := rfl
  rw [readArguments_format hread]
  unfold Format.ofName
  simp only [beq_iff_eq]
  split_ifs <;> rfl

theorem toList_mark_append (name : String) :
    ("--format=" ++ name).toList = formatMark ++ name.toList := by
  unfold formatMark
  exact String.toList_append

/-- An argument with a mark is none of those that do not start with it. -/
theorem mark_append_beq (name : String) {option : String} (h : ¬ formatMark <+: option.toList) :
    ("--format=" ++ name == option) = false := by
  rw [beq_eq_false_iff_ne]
  intro heq
  exact h ⟨name.toList, by rw [← heq, toList_mark_append]⟩

theorem readArgument_joined (config : Config) (name : String) :
    readArgument config ("--format=" ++ name) =
      match Format.ofName (String.ofList (afterMarks name.toList)) with
      | .ok format => .next { config with format := format }
      | .error e => .stop (.error e) := by
  have hprefix : formatMark.isPrefixOf (formatMark ++ name.toList) = true :=
    List.isPrefixOf_iff_prefix.mpr (List.prefix_append formatMark name.toList)
  have hoptions : ∀ option ∈ ["-h", "--help", "-V", "--version", "--color", "--no-color",
      "--check-references", "--format", "--"], ¬ formatMark <+: option.toList := by decide
  have hbeq : ∀ option ∈ ["-h", "--help", "-V", "--version", "--color", "--no-color",
      "--check-references", "--format", "--"], ("--format=" ++ name == option) = false :=
    fun option hoption => mark_append_beq name (hoptions option hoption)
  simp only [List.forall_mem_cons] at hbeq
  obtain ⟨h1, h2, h3, h4, h5, h6, h7, h8, h9, -⟩ := hbeq
  cases hname : Format.ofName (String.ofList (afterMarks name.toList)) <;>
    simp only [readArgument, h1, h2, h3, h4, h5, h6, h7, h8, h9, toList_mark_append, hprefix,
      afterMarks_append, hname, Bool.or_self, Bool.false_eq_true, if_false, if_true]

/-- A format in one argument with its mark. -/
theorem readArguments_joined (config : Config) (name : String) (rest : List String) :
    readArguments config (("--format=" ++ name) :: rest) =
      readArguments config ("--format" :: String.ofList (afterMarks name.toList) :: rest) := by
  have hread := readArgument_joined config name
  have hapart : readArgument config "--format" = .format := rfl
  rw [readArguments_format hapart]
  cases hname : Format.ofName (String.ofList (afterMarks name.toList)) with
  | ok format =>
    rw [hname] at hread
    exact readArguments_next hread rest
  | error e =>
    rw [hname] at hread
    exact readArguments_stop hread rest

/-- A path at the end is taken. -/
theorem exists_readArguments_path (config : Config) :
    ∃ config', readArguments config ["a.pod"] = .ok (.lint config') := by
  have hnext : readArgument config "a.pod" =
      .next { config with paths := config.paths ++ [⟨"a.pod"⟩] } := rfl
  rw [readArguments_next hnext, readArguments, finish]
  simp

/-- Two formats of which just one starts with the mark are not read alike. -/
theorem readArguments_apart_ne {name value : String} (hname : formatMark <+: name.toList)
    (hvalue : ¬ formatMark <+: value.toList) (config : Config) :
    readArguments config ["--format", value, "a.pod"] ≠
      readArguments config ["--format", name, "a.pod"] := by
  have htext : name ≠ "text" := by
    rintro rfl
    exact absurd hname (by decide)
  have hjson : name ≠ "json" := by
    rintro rfl
    exact absurd hname (by decide)
  rw [readArguments_apart, readArguments_apart, if_neg htext, if_neg hjson]
  split_ifs with hvtext hvjson
  · obtain ⟨config', h⟩ := exists_readArguments_path { config with format := .text }
    rw [h]
    nofun
  · obtain ⟨config', h⟩ := exists_readArguments_path { config with format := .json }
    rw [h]
    nofun
  · intro h
    cases h
    exact hvalue hname

/-- **The two ways to give a format** agree just if the format does not start with the mark of the
first. In an argument of its own, a format is taken if it is text or JSON, and is rejected
otherwise, whatever comes before and after it. In one argument with its mark, it counts as what
comes after all marks that it starts with, given in an argument of its own. -/
theorem format_ways_agree_iff (h : GoesOn ⟨[], false, .text, color⟩ args config) (name : String) :
    ((∀ rest, parseArguments color (args ++ ("--format=" ++ name) :: rest) =
        parseArguments color (args ++ "--format" :: name :: rest)) ↔
      ¬ formatMark <+: name.toList) ∧
    (∀ rest, parseArguments color (args ++ "--format" :: name :: rest) =
      if name = "text" then readArguments { config with format := .text } rest
      else if name = "json" then readArguments { config with format := .json } rest
      else .error (.invalidFormat name)) ∧
    ∃ (n : Nat) (value : String),
      name.toList = (List.replicate n formatMark).flatten ++ value.toList ∧
      ¬ formatMark <+: value.toList ∧
      ∀ rest, parseArguments color (args ++ ("--format=" ++ name) :: rest) =
        parseArguments color (args ++ "--format" :: value :: rest) := by
  have hread : ∀ rest, parseArguments color (args ++ rest) = readArguments config rest :=
    readArguments_append h
  obtain ⟨n, hmarks, hafter⟩ := exists_marks name.toList
  simp only [hread]
  refine ⟨⟨fun hagree hprefix => ?_, fun hprefix rest => ?_⟩, readArguments_apart config name, n,
    String.ofList (afterMarks name.toList), ?_, ?_, readArguments_joined config name⟩
  · have hsame := hagree ["a.pod"]
    rw [readArguments_joined] at hsame
    exact readArguments_apart_ne hprefix (by rwa [String.toList_ofList]) config hsame
  · rw [readArguments_joined, afterMarks_eq_self hprefix, String.ofList_toList]
  · rw [String.toList_ofList]
    exact hmarks
  · rwa [String.toList_ofList]

/-- A format after other arguments, one of them an earlier format. -/
theorem format_ways_agree_iff_json :
    let args := ["--no-color", "--format", "text", "a.pod"]
    GoesOn ⟨[], false, .text, true⟩ args ⟨[⟨"a.pod"⟩], false, .text, false⟩ ∧
      ∀ rest, parseArguments true (args ++ "--format=json" :: rest) =
        parseArguments true (args ++ "--format" :: "json" :: rest) := by
  intro args
  have hgoes : GoesOn ⟨[], false, .text, true⟩ args ⟨[⟨"a.pod"⟩], false, .text, false⟩ :=
    .next rfl (.format rfl rfl (.next rfl (.done _)))
  exact ⟨hgoes, (format_ways_agree_iff hgoes "json").1.mpr (by decide)⟩

/-- With the mark once more, a format is taken that is rejected in an argument of its own. -/
theorem repeated_mark_is_taken : ¬ ∀ (color : Bool) (args rest : List String) (config : Config)
    (name : String), GoesOn ⟨[], false, .text, color⟩ args config →
      parseArguments color (args ++ ("--format=" ++ name) :: rest) =
        parseArguments color (args ++ "--format" :: name :: rest) := by
  intro h
  have hsame : readArguments ⟨[], false, .text, false⟩ [("--format=" ++ "--format=json"), "a.pod"] =
      readArguments ⟨[], false, .text, false⟩ ["--format", "--format=json", "a.pod"] :=
    h false [] ["a.pod"] _ "--format=json" (.done _)
  have hvalue : afterMarks "--format=json".toList = "json".toList :=
    (afterMarks_append "json".toList).trans (afterMarks_eq_self (by decide))
  rw [readArguments_joined, hvalue, String.ofList_toList] at hsame
  exact readArguments_apart_ne (by decide) (by decide) _ hsame

end UnitLint.Cli
