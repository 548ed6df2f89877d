import UnitLint.Cli.FileSystem
import UnitLint.Proofs.Failure
import UnitLint.Proofs.Path

/-! # Coherent file systems

A file system is coherent if equal paths lead to the same text, however they are written. What a
path leads to in a tree follows from its components (`TreeEntry.bytesOf?_of_fileSystem`), so the
file system of a tree is coherent (`TreeEntry.coherent_fileSystem`). -/

namespace UnitLint.Cli

/-! ### Coherent file systems -/

/-- Equal paths that lead to texts lead to the same one. -/
def FileSystem.Coherent (fs : FileSystem) : Prop :=
  ∀ p q : Path, p.key = q.key → ∀ regular regular' bytes bytes',
    fs p = .ok (.file regular (.ok bytes)) → fs q = .ok (.file regular' (.ok bytes')) →
      bytes = bytes'

/-! ### Trees -/

namespace TreeEntry

/-- The names that a component of a path leads to from a directory. -/
def descend (names : List String) : Path.Component → List String
  | .parent => names.dropLast
  | .name s => names ++ [String.ofList s]
  | _ => names

theorem ofList_beq (s : List Char) (text : String) :
    (String.ofList s == text) = (s == text.toList) := by
  rw [Bool.eq_iff_iff, beq_iff_eq, beq_iff_eq, ← String.toList_inj, String.toList_ofList]

/-- A walk along pieces of a path leads to where its components do. -/
theorem walk_eq {entries : List TreeEntry} {names names' : List String} {pieces : List (List Char)}
    (h : walk entries names (pieces.map String.ofList) = .ok names') :
    names' = (pieces.filterMap Path.Component.ofPiece?).foldl descend names := by
  induction pieces generalizing names with
  | nil =>
    rw [List.map_nil, walk] at h
    exact (Except.ok.inj h).symm
  | cons piece pieces ih =>
    rw [List.map_cons, walk] at h
    split at h
    · have hempty : (String.ofList piece == "") = piece.isEmpty := by
        rw [ofList_beq]
        cases piece <;> rfl
      have hdot : (String.ofList piece == ".") = (piece == ['.']) := ofList_beq piece "."
      have hdots : (String.ofList piece == "..") = (piece == ['.', '.']) := ofList_beq piece ".."
      rw [hempty, hdot, hdots] at h
      rw [List.filterMap_cons, Path.Component.ofPiece?]
      split at h
      · rename_i hskip
        rw [if_pos hskip]
        exact ih h
      · rename_i hskip
        rw [if_neg hskip]
        split at h
        · rename_i hparent
          rw [if_pos hparent]
          exact ih h
        · rename_i hparent
          rw [if_neg hparent]
          exact ih h
    · split at h <;> cases h

theorem foldl_descend_start (pieces : List (List Char)) (components : List Path.Component) :
    (Path.start pieces ++ components).foldl descend [] = components.foldl descend [] := by
  unfold Path.start
  split <;> rfl

/-- What a path leads to follows from its components. -/
theorem bytesOf?_of_fileSystem {entries : List TreeEntry} {p : Path} {regular : Bool}
    {bytes : List UInt8} (h : fileSystem entries p = .ok (.file regular (.ok bytes))) :
    bytesOf? entries (p.components.foldl descend []) = some bytes := by
  unfold fileSystem at h
  split at h
  · cases h
  · obtain ⟨names, hnames, h⟩ := bind_eq_ok_iff.mp h
    have hwalk := walk_eq hnames
    rw [Path.components, foldl_descend_start, ← hwalk]
    split at h
    · rename_i hbytes
      cases h
      exact hbytes
    · split at h <;> cases h

/-- **The file system of a tree is coherent.** -/
theorem coherent_fileSystem (entries : List TreeEntry) : (fileSystem entries).Coherent := by
  intro p q hkey regular regular' bytes bytes' hp hq
  have hbytes := bytesOf?_of_fileSystem hp
  rw [Path.components_eq_of_key_eq hkey, bytesOf?_of_fileSystem hq] at hbytes
  exact (Option.some.inj hbytes).symm

end TreeEntry

end UnitLint.Cli
