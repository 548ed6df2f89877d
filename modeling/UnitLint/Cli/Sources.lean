import UnitLint.Cli.FileSystem
import UnitLint.Lint.Linter
import UnitLint.Text.Utf8

/-! # Collecting sources

Each path argument that leads to a directory stands for the regular files in it whose extension is
that of a unit type, sorted; any other path stands for itself. The texts are read after all paths
are known. -/

namespace UnitLint.Cli

/-- Why sources cannot be collected. -/
inductive ReadFailure where
  | directory (path : Path) (reason : Reason)
  | file (path : Path) (reason : Reason)
  deriving DecidableEq, Repr

/-- The wording of a failure to read. -/
def ReadFailure.message : ReadFailure → String
  | directory path reason =>
    "error: failed to read directory " ++ path.text ++ ": " ++ reason
  | file path reason => "error: failed to read " ++ path.text ++ ": " ++ reason

/-- The reason where the bytes of a file are no text. -/
def notText : Reason := "stream did not contain valid UTF-8"

/-- Whether a path leads to a regular file whose extension is that of a unit type. -/
def isUnitFile (fs : FileSystem) (path : Path) : Bool :=
  match fs path with
  | .ok (.file true _) => (UnitType.ofPath? path).isSome
  | _ => false

/-- The unit files in a directory of the given names, sorted by path. -/
def unitFilesIn (fs : FileSystem) (directory : Path) (names : List String) : List Path :=
  ((names.map directory.join).filter (isUnitFile fs)).mergeSort Path.before

/-- The paths that a path argument stands for. -/
def expand (fs : FileSystem) (path : Path) : Except ReadFailure (List Path) :=
  match fs path with
  | .ok (.directory (.ok names)) => .ok (unitFilesIn fs path names)
  | .ok (.directory (.error reason)) => .error (.directory path reason)
  | _ => .ok [path]

/-- The bytes that a path leads to. -/
def readBytes (fs : FileSystem) (path : Path) : Except Reason (List UInt8) := do
  match ← fs path with
  | .file _ bytes => bytes
  | .directory _ => throw "Is a directory (os error 21)"

/-- The source that a path leads to. -/
def readSource (fs : FileSystem) (path : Path) : Except ReadFailure Source :=
  match readBytes fs path with
  | .error reason => .error (.file path reason)
  | .ok bytes =>
    match Text.Utf8.decode? bytes with
    | none => .error (.file path notText)
    | some text => .ok ⟨path, String.ofList text⟩

/-- The sources of path arguments. -/
def collectSources (fs : FileSystem) (paths : List Path) : Except ReadFailure (List Source) := do
  let files ← paths.mapM (expand fs)
  files.flatten.mapM (readSource fs)

end UnitLint.Cli
