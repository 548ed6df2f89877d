import UnitLint.Cli.Arguments
import UnitLint.Cli.JsonReport
import UnitLint.Cli.Sources
import UnitLint.Cli.TextReport

/-! # Running the program

The exit status is 0 if there are no errors, 1 if there are, and 2 if the arguments cannot be taken
or a path cannot be read; nothing is printed on standard output in the last case. -/

namespace UnitLint.Cli

/-- What a run of the program leaves: its exit status and what it printed. -/
structure Outcome where
  status : Nat
  output : String
  errors : String
  deriving DecidableEq, Repr

/-- A run that prints a line and succeeds. -/
def Outcome.line (text : String) : Outcome := ⟨0, text ++ "\n", ""⟩

/-- A run that fails with a message. -/
def Outcome.failure (status : Nat) (message : String) : Outcome := ⟨status, "", message ++ "\n"⟩

/-- What a run comes to before anything is printed: its end, or a report to print. -/
inductive Result where
  | ended (outcome : Outcome)
  | reported (config : Config) (report : Report)
  deriving DecidableEq, Repr

/-- Lints the sources. The built-in linter takes no scalar view that a field does not have. -/
def lintSources (config : Config) (sources : List Source) : Result :=
  match Linter.builtin.lint config.checkReferences sources with
  | .ok r => .reported config r
  | .error e => .ended (.failure 101 e.message)

/-- Collects the sources and lints them. -/
def runLint (fs : FileSystem) (config : Config) : Result :=
  match collectSources fs config.paths with
  | .ok sources => lintSources config sources
  | .error e => .ended (.failure 2 e.message)

/-- Does what the arguments ask for. Colour is the rule if `color` is true. -/
def evaluate (fs : FileSystem) (color : Bool) (args : List String) : Result :=
  match parseArguments color args with
  | .error e => .ended (.failure 2 e.message)
  | .ok .help => .ended (.line help)
  | .ok .version => .ended (.line version)
  | .ok (.lint config) => runLint fs config

/-- The text of a report in a format, where linting took the time. -/
def render (config : Config) (time : String) (r : Report) : String :=
  match config.format with
  | .text => textReport config.color time r
  | .json => jsonReport r

/-- The exit status for a report. -/
def exitStatus (r : Report) : Nat := if r.summary.hasBlockingErrors then 1 else 0

/-- The outcome of a result, where linting took the time. -/
def Result.outcome (time : String) : Result → Outcome
  | ended outcome => outcome
  | reported config r => ⟨exitStatus r, render config time r, ""⟩

/-- Runs the program, where linting takes the time. -/
def run (fs : FileSystem) (color : Bool) (time : String) (args : List String) : Outcome :=
  (evaluate fs color args).outcome time

end UnitLint.Cli
