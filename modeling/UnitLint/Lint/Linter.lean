import UnitLint.Catalog.Builtin
import UnitLint.Rules.Builtin
import UnitLint.UnitFile.Parser

/-! # Linting

A linter parses every source of a run, and then validates the units among them, each in the context
of all. The report has one outcome for each path. A source that does not parse has its syntax errors
as outcome, a unit its findings; of two sources with equal paths a unit counts before a source that
does not parse, and the later before the earlier. -/

namespace UnitLint

/-- The validators of the built-in rule tables over some catalog. -/
structure Linter where
  validators : List Validator
  deriving DecidableEq, Repr

/-- The text of a file. -/
structure Source where
  path : Path
  text : String
  deriving DecidableEq, Repr

/-- The outcome for one file. -/
structure FileReport where
  parseErrors : List ParseError
  findings : List Finding
  deriving DecidableEq, Repr

/-- Whether nothing is wrong with a file. -/
def FileReport.isClean (r : FileReport) : Bool := r.parseErrors.isEmpty && r.findings.isEmpty

/-- How many things are wrong in a run; syntax errors count as errors. -/
structure Summary where
  errors : Nat
  warnings : Nat
  deriving DecidableEq, Repr

/-- Whether there are errors. -/
def Summary.hasBlockingErrors (s : Summary) : Bool := 0 < s.errors

/-- The outcomes of a run, in the order of the paths, which are pairwise unequal. -/
structure Report where
  files : List (Path × FileReport)
  deriving DecidableEq, Repr

namespace Report

/-- The outcomes with one more. An outcome for an equal path is replaced, and its path stays as it
was written. -/
def put (path : Path) (outcome : FileReport) :
    List (Path × FileReport) → List (Path × FileReport)
  | [] => [(path, outcome)]
  | f :: fs =>
    if path.key == f.1.key then (f.1, outcome) :: fs
    else if path.key < f.1.key then (path, outcome) :: f :: fs
    else f :: put path outcome fs

/-- The report of outcomes, the later ones of which count before the earlier. -/
def ofOutcomes (outcomes : List (Path × FileReport)) : Report :=
  ⟨outcomes.foldl (fun files o => put o.1 o.2 files) []⟩

/-- The outcome for a path. -/
def file? (r : Report) (path : Path) : Option FileReport :=
  (r.files.find? (·.1.key == path.key)).map (·.2)

/-- How many findings of a severity there are. -/
def count (r : Report) (severity : Severity) : Nat :=
  (r.files.flatMap (·.2.findings)).countP (·.severity == severity)

/-- The counts of a report. -/
def summary (r : Report) : Summary where
  errors := (r.files.flatMap (·.2.parseErrors)).length + r.count .error
  warnings := r.count .warning

end Report

namespace Linter

/-- The linter over a catalog, or the first field that its rules need and the catalog lacks. -/
def ofCatalog (catalog : Catalog) : Except CatalogError Linter := do
  return ⟨← RuleTable.builtin.mapM (RuleTable.bind catalog)⟩

/-- The linter over the built-in catalog, which has every field that the rules need. -/
def builtin : Linter := (ofCatalog Catalog.builtin).toOption.getD ⟨[]⟩

/-- The findings about a unit; a unit of no known type has none. -/
def validate (linter : Linter) (context : Context) (u : UnitFile) :
    Except ScalarError (List Finding) :=
  match u.unitType? with
  | none => .ok []
  | some t =>
    match linter.validators.find? (·.unitType == t) with
    | none => .ok []
    | some v => v.validate context u

/-- The units among the sources. -/
def units (sources : List Source) : List UnitFile :=
  sources.filterMap fun s => (parse s.path s.text).toOption

/-- The outcome of a source that does not parse. -/
def failure? (s : Source) : Option (Path × FileReport) :=
  match parse s.path s.text with
  | .ok _ => none
  | .error errors => some (s.path, ⟨errors, []⟩)

/-- The outcome of a unit. -/
def outcome (linter : Linter) (context : Context) (u : UnitFile) :
    Except ScalarError (Path × FileReport) := do
  return (u.path, ⟨[], ← linter.validate context u⟩)

/-- The report on a run. -/
def lint (linter : Linter) (checkReferences : Bool) (sources : List Source) :
    Except ScalarError Report := do
  let context : Context := ⟨checkReferences, units sources⟩
  let outcomes ← context.units.mapM (linter.outcome context)
  return .ofOutcomes (sources.filterMap failure? ++ outcomes)

end Linter

end UnitLint
