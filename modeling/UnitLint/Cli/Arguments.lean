import UnitLint.Path

/-! # Command-line arguments

The arguments are read one after another; later options win over earlier ones. Asking for help or
for the version ends the reading at once, and so does the first argument that cannot be taken. After
`--` all arguments are paths. -/

namespace UnitLint.Cli

/-- How a report is printed. -/
inductive Format where
  | text
  | json
  deriving DecidableEq, Repr

/-- What a run is to do. -/
structure Config where
  paths : List Path
  checkReferences : Bool
  format : Format
  color : Bool
  deriving DecidableEq, Repr

/-- What the arguments ask for. -/
inductive Command where
  | help
  | version
  | lint (config : Config)
  deriving DecidableEq, Repr

/-- Why arguments cannot be taken. -/
inductive ArgumentError where
  | missingFormat
  | invalidFormat (value : String)
  | unknownOption (option : String)
  | noPaths
  deriving DecidableEq, Repr

/-- The name and version of the program. -/
def version : String := "quadlint 0.1.0"

/-- The help on the program. -/
def help : String := String.intercalate "\n" [
  version,
  "",
  "Usage:",
  "  quadlint [OPTIONS] <PATH>...",
  "",
  "Paths may be unit files or directories; directories are scanned one level",
  "deep for .container, .volume, .kube, .network, .image, .build and .pod files.",
  "",
  "Options:",
  "--check-references      Verify that referenced units are among the inputs",
  "--format <text|json>    Output format (default: text)",
  "--color                 Force ANSI color output",
  "--no-color              Disable ANSI color output",
  "-h, --help              Show this help",
  "-V, --version           Show version",
  "",
  "Environment:",
  "QUADLINT_LOG            Log filter for diagnostics on stderr (default: warn)",
  "",
  "Exit status:",
  "  0 no errors (warnings allowed), 1 errors found, 2 usage or I/O error"]

/-- The wording of an argument error. -/
def ArgumentError.message : ArgumentError → String
  | missingFormat => "error: --format expects a value"
  | invalidFormat value =>
    "error: invalid --format '" ++ value ++ "' (expected text or json)"
  | unknownOption option => "error: unknown option '" ++ option ++ "'"
  | noPaths => "error: no unit files given\n\n" ++ help

/-- The format of a name. -/
def Format.ofName (name : String) : Except ArgumentError Format :=
  if name == "text" then .ok .text
  else if name == "json" then .ok .json
  else .error (.invalidFormat name)

/-- What stands before the value of a format given in one argument. -/
def formatMark : List Char := "--format=".toList

/-- The text without the marks at its start, however often they are repeated. -/
def afterMarks (s : List Char) : List Char :=
  if formatMark.isPrefixOf s then afterMarks (s.drop formatMark.length) else s
termination_by s.length
decreasing_by
  have := (List.isPrefixOf_iff_prefix.mp ‹_›).length_le
  have : 0 < formatMark.length := by decide
  rw [List.length_drop]
  omega

/-- What a single argument does to the reading of those after it. -/
inductive Reading where
  /-- Goes on with a new configuration. -/
  | next (config : Config)
  /-- Takes the next argument as the format. -/
  | format
  /-- Takes all other arguments as paths. -/
  | paths
  /-- Ends the reading. -/
  | stop (answer : Except ArgumentError Command)

/-- Reads a single argument. -/
def readArgument (config : Config) (arg : String) : Reading :=
  if arg == "-h" || arg == "--help" then .stop (.ok .help)
  else if arg == "-V" || arg == "--version" then .stop (.ok .version)
  else if arg == "--color" then .next { config with color := true }
  else if arg == "--no-color" then .next { config with color := false }
  else if arg == "--check-references" then .next { config with checkReferences := true }
  else if arg == "--format" then .format
  else if arg == "--" then .paths
  else if formatMark.isPrefixOf arg.toList then
    match Format.ofName (String.ofList (afterMarks arg.toList)) with
    | .ok format => .next { config with format := format }
    | .error e => .stop (.error e)
  else if arg.toList.head? == some '-' then .stop (.error (.unknownOption arg))
  else .next { config with paths := config.paths ++ [⟨arg⟩] }

/-- The command of a configuration, which must have a path. -/
def finish (config : Config) : Except ArgumentError Command :=
  if config.paths.isEmpty then .error .noPaths else .ok (.lint config)

/-- Reads arguments on top of a configuration. -/
def readArguments (config : Config) : List String → Except ArgumentError Command
  | [] => finish config
  | arg :: args =>
    match readArgument config arg with
    | .next config' => readArguments config' args
    | .paths => finish { config with paths := config.paths ++ args.map Path.mk }
    | .stop answer => answer
    | .format =>
      match args with
      | [] => .error .missingFormat
      | name :: rest =>
        match Format.ofName name with
        | .ok format => readArguments { config with format := format } rest
        | .error e => .error e

/-- What the arguments ask for, where colour is used if nothing is said about it and `color` is
true. -/
def parseArguments (color : Bool) (args : List String) : Except ArgumentError Command :=
  readArguments ⟨[], false, .text, color⟩ args

end UnitLint.Cli
