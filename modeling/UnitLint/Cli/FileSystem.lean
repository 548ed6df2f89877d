import UnitLint.Path

/-! # File systems

What paths lead to: a directory, which lists the names in it in any order, or a file, which holds
bytes. Where a path leads to nothing, or a directory or file cannot be read, the file system says
why. A small file system is described by a tree of the files in it. -/

namespace UnitLint.Cli

/-- Why something cannot be read, in the words of the file system. -/
abbrev Reason : Type := String

/-- What a path leads to. -/
inductive Node where
  /-- A directory, with the names in it. -/
  | directory (names : Except Reason (List String))
  /-- A file, which is regular or not, with the bytes in it. -/
  | file (regular : Bool) (bytes : Except Reason (List UInt8))

/-- What every path leads to. -/
abbrev FileSystem : Type := Path → Except Reason Node

/-- The reason where a path leads to nothing. -/
def notFound : Reason := "No such file or directory (os error 2)"

/-- The reason where a path goes through a file. -/
def notDirectory : Reason := "Not a directory (os error 20)"

/-! ### Trees -/

/-- A file or directory by its names from the current directory down; a directory has no bytes. -/
structure TreeEntry where
  names : List String
  bytes : Option (List UInt8)
  deriving DecidableEq, Repr

namespace TreeEntry

/-- The pieces of a path between its slashes. -/
def pieces (p : Path) : List String := (p.text.toList.splitOn '/').map String.ofList

/-- The entry at a path. -/
def ofPath (p : Path) (bytes : Option (List UInt8)) : TreeEntry :=
  ⟨(pieces p).filter fun s => s != "" && s != ".", bytes⟩

/-- The name in the directory of the given names on the way to an entry. -/
def childOf? (directory : List String) (e : TreeEntry) : Option String :=
  if directory.isPrefixOf e.names then e.names[directory.length]? else none

/-- The bytes of the file of the given names, if there is one. -/
def bytesOf? (entries : List TreeEntry) (names : List String) : Option (List UInt8) :=
  (entries.find? fun e => e.names == names).bind (·.bytes)

/-- Whether the names lead to a directory. -/
def isDirectory (entries : List TreeEntry) (names : List String) : Bool :=
  (bytesOf? entries names).isNone && (names.isEmpty || entries.any (names.isPrefixOf ·.names))

/-- The names that pieces of a path lead to from a directory. -/
def walk (entries : List TreeEntry) (names : List String) :
    List String → Except Reason (List String)
  | [] => .ok names
  | piece :: rest =>
    if isDirectory entries names then
      if piece == "" || piece == "." then walk entries names rest
      else if piece == ".." then walk entries names.dropLast rest
      else walk entries (names ++ [piece]) rest
    else if (bytesOf? entries names).isSome then .error notDirectory
    else .error notFound

/-- The file system of a tree: the current directory has the entries, and there is nothing else. -/
def fileSystem (entries : List TreeEntry) : FileSystem := fun path =>
  if path.text == "" || path.text.toList.head? == some '/' then .error notFound
  else do
    let names ← walk entries [] (pieces path)
    match bytesOf? entries names with
    | some bytes => return .file true (.ok bytes)
    | none =>
      if isDirectory entries names then
        return .directory (.ok (entries.filterMap (childOf? names)).eraseDups)
      else throw notFound

end TreeEntry

end UnitLint.Cli
