import UnitLint.Lint.Linter

/-! # Reports as text

A report has a line for each syntax error and each finding, in the order of the files; after a blank
line come the counts, and then the time that the run took. With colour, each part is styled by what
it is. -/

namespace UnitLint.Cli

/-- The ways in which a part of a line is styled. -/
inductive Style where
  | bold
  | red
  | green
  | yellow
  | dim
  deriving DecidableEq, Repr

/-- The sequence that turns a style on. -/
def Style.code : Style → String
  | bold => "\x1b[1m"
  | red => "\x1b[31m"
  | green => "\x1b[32m"
  | yellow => "\x1b[33m"
  | dim => "\x1b[2m"

/-- The sequence that turns every style off. -/
def styleReset : String := "\x1b[0m"

/-- A text in a style, if there is colour. -/
def styled (color : Bool) (style : Style) (text : String) : String :=
  if color then style.code ++ text ++ styleReset else text

/-- The style of a severity. -/
def severityStyle : Severity → Style
  | .error => .red
  | .warning => .yellow

/-- The style of a count of findings of a severity. -/
def countStyle (severity : Severity) (count : Nat) : Style :=
  match severity, count with
  | .error, 0 => .green
  | .warning, 0 => .dim
  | _, _ => severityStyle severity

/-- How a line about a place in a file starts. -/
def placeText (color : Bool) (path : Path) (l : Location) : String :=
  styled color .bold path.text ++ ":" ++ l.text ++ ": "

/-- The line of a syntax error. -/
def parseErrorLine (color : Bool) (path : Path) (e : ParseError) : String :=
  placeText color path e.location ++ styled color (severityStyle .error) "error[syntax]" ++ " " ++
    e.fault.message

/-- The line of a finding. -/
def findingLine (color : Bool) (path : Path) (f : Finding) : String :=
  placeText color path f.location ++
    styled color (severityStyle f.severity) (f.severity.name ++ "[" ++ f.category.name ++ "]") ++
    " " ++ f.message ++ " " ++ styled color .dim ("(" ++ f.validator ++ ")")

/-- The lines of a file. -/
def fileLines (color : Bool) (path : Path) (r : FileReport) : List String :=
  r.parseErrors.map (parseErrorLine color path) ++ r.findings.map (findingLine color path)

/-- A count of findings of a severity. -/
def countText (color : Bool) (severity : Severity) (count : Nat) : String :=
  styled color (countStyle severity count)
    (toString count ++ " " ++ severity.name ++ "(s)")

/-- The line of the counts. -/
def summaryLine (color : Bool) (r : Report) : String :=
  styled color .bold (toString r.files.length ++ " file(s) checked:") ++ "  " ++
    countText color .error r.summary.errors ++ "  " ++
    countText color .warning r.summary.warnings

/-- The lines of a report on a run that took the time. -/
def textLines (color : Bool) (time : String) (r : Report) : List String :=
  r.files.flatMap (fun f => fileLines color f.1 f.2) ++
    ["", summaryLine color r, styled color .dim ("  elapsed " ++ time)]

/-- The text of a report on a run that took the time. -/
def textReport (color : Bool) (time : String) (r : Report) : String :=
  String.join ((textLines color time r).map (· ++ "\n"))

end UnitLint.Cli
