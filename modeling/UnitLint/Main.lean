import UnitLint.Cli.Elapsed
import UnitLint.Cli.Run

/-! # The program

Looks at the paths of the arguments, runs the program on what is there, and prints what it leaves.
-/

namespace UnitLint.Cli

/-- The words for a failure of the operating system. -/
def reasonOf : IO.Error → Reason
  | .noFileOrDirectory .. => notFound
  | .permissionDenied .. => "Permission denied (os error 13)"
  | e => toString e

/-- The answer of the operating system, or its words for why there is none. -/
def attempt {α : Type} (action : IO α) : IO (Except Reason α) := do
  try return .ok (← action) catch e => return .error (reasonOf e)

/-- A path as the operating system takes it. -/
def handleOf (path : Path) : IO.FS.DirEntry := ⟨path.text, ""⟩

/-- The bytes of the file at a path. -/
def bytesAt (path : Path) : IO (Except Reason (List UInt8)) :=
  attempt do return (← IO.FS.readBinFile (handleOf path).root).toList

/-- The names in the directory at a path. -/
def namesAt (path : Path) : IO (Except Reason (List String)) :=
  attempt do return ((← (handleOf path).root.readDir).map (·.fileName)).toList

/-- What a path leads to; `reads` says whether the bytes of a file are wanted. -/
def nodeAt (path : Path) (reads : IO.FS.FileType → Bool) : IO (Except Reason Node) := do
  match ← attempt (handleOf path).root.metadata with
  | .error reason => return .error reason
  | .ok found =>
    if found.type == .dir then return .ok (.directory (← namesAt path))
    else
      let bytes ← if reads found.type then bytesAt path else pure (.error notFound)
      return .ok (.file (found.type == .file) bytes)

/-- What a path argument leads to, and, if that is a directory, what the names in it lead to. -/
def nodesUnder (path : Path) : IO (List (Path × Except Reason Node)) := do
  let node ← nodeAt path fun _ => true
  match node with
  | .ok (.directory (.ok names)) =>
    let children ← names.mapM fun name => do
      let child := path.join name
      let wanted := (UnitType.ofPath? child).isSome
      return (child, ← nodeAt child fun type => wanted && type == .file)
    return (path, node) :: children
  | _ => return [(path, node)]

/-- The file system of what was found. -/
def fileSystemOf (found : List (Path × Except Reason Node)) : FileSystem := fun path =>
  match found.find? (·.1 == path) with
  | some (_, node) => node
  | none => .error notFound

/-- The paths that a run looks at. -/
def pathsOf (color : Bool) (args : List String) : List Path :=
  match parseArguments color args with
  | .ok (.lint config) => config.paths
  | _ => []

end UnitLint.Cli

open UnitLint.Cli in
/-- Runs the program on the arguments. -/
def main (args : List String) : IO UInt32 := do
  let output ← IO.getStdout
  let color ← output.isTty
  let found ← (pathsOf color args).mapM nodesUnder
  let start ← IO.monoNanosNow
  let result ← IO.lazyPure fun _ => evaluate (fileSystemOf found.flatten) color args
  let outcome := result.outcome (elapsedText ((← IO.monoNanosNow) - start))
  output.putStr outcome.output
  (← IO.getStderr).putStr outcome.errors
  return UInt32.ofNat outcome.status
