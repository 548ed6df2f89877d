import UnitLint.Json.Printer
import UnitLint.Lint.Linter

/-! # Reports as JSON

A report is an object with its files and its counts. The members of every object are in the order of
their names. -/

namespace UnitLint.Cli

/-- A text that may be missing. -/
def optionalJson : Option String → Json String
  | none => .null
  | some s => .string s

/-- A syntax error as JSON. -/
def parseErrorJson (e : ParseError) : Json String :=
  .object [
    ("column", .nat e.location.column),
    ("group", optionalJson e.group),
    ("key", optionalJson e.key),
    ("line", .nat e.location.line),
    ("message", .string e.fault.message)]

/-- A location as JSON. -/
def locationJson (l : Location) : Json String :=
  .object [("column", .nat l.column), ("line", .nat l.line)]

/-- A finding as JSON. -/
def findingJson (f : Finding) : Json String :=
  .object [
    ("category", .string f.category.name),
    ("location", locationJson f.location),
    ("message", .string f.message),
    ("severity", .string f.severity.name),
    ("validator", .string f.validator)]

/-- The outcome for a path as JSON. -/
def fileJson (path : Path) (r : FileReport) : Json String :=
  .object [
    ("findings", .array (r.findings.map findingJson)),
    ("parseErrors", .array (r.parseErrors.map parseErrorJson)),
    ("path", .string path.text)]

/-- The counts as JSON. -/
def summaryJson (s : Summary) : Json String :=
  .object [
    ("errors", .nat s.errors),
    ("has_blocking_errors", .bool s.hasBlockingErrors),
    ("warnings", .nat s.warnings)]

/-- A report as JSON. -/
def reportJson (r : Report) : Json String :=
  .object [
    ("files", .array (r.files.map fun f => fileJson f.1 f.2)),
    ("summary", summaryJson r.summary)]

/-- The text of a report as JSON. -/
def jsonReport (r : Report) : String := (reportJson r).pretty ++ "\n"

end UnitLint.Cli
