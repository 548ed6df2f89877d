import Mathlib.Data.List.Nodup
import UnitLint.Cli.Run
import UnitLint.Proofs.Cli.Collection
import UnitLint.Proofs.Cli.FileSystem
import UnitLint.Proofs.Distinct
import UnitLint.Proofs.Path

/-! # The order of directories

The names in a directory come in any order, and no name comes twice. A run does not depend on that
order: file systems that differ in nothing else have the same sources, or fail alike, and so the
same outcome (`collection_of_reordered`). -/

namespace UnitLint.Cli

variable {fs fs' : FileSystem} {path : Path} {paths : List Path} {names names' : List String}

/-! ### File systems that differ in the order of names -/

/-- Directories list names of entries, each once. -/
def FileSystem.ListsEntries (fs : FileSystem) : Prop :=
  ∀ path names, fs path = .ok (.directory (.ok names)) →
    names.Nodup ∧ ∀ name ∈ names, Path.IsEntry name

/-- The second file system is the first, but for the order of the names in directories. -/
def FileSystem.Reordered (fs fs' : FileSystem) : Prop :=
  ∀ path, fs' path = fs path ∨ ∃ names names', fs path = .ok (.directory (.ok names)) ∧
    fs' path = .ok (.directory (.ok names')) ∧ names.Perm names'

/-- The file system with the names in each directory listed backwards. -/
def FileSystem.backwards (fs : FileSystem) : FileSystem := fun path =>
  match fs path with
  | .ok (.directory (.ok names)) => .ok (.directory (.ok names.reverse))
  | found => found

theorem FileSystem.reordered_backwards (fs : FileSystem) : fs.Reordered fs.backwards := by
  intro path
  unfold backwards
  split
  · rename_i names hnames
    exact Or.inr ⟨names, names.reverse, hnames, rfl, names.reverse_perm.symm⟩
  · exact Or.inl rfl

/-- The directories of a tree whose names are names of entries list these. -/
theorem TreeEntry.listsEntries_fileSystem {entries : List TreeEntry}
    (h : ∀ e ∈ entries, ∀ name ∈ e.names, Path.IsEntry name) :
    (fileSystem entries).ListsEntries := by
  intro path names hpath
  unfold fileSystem at hpath
  split at hpath
  · cases hpath
  · obtain ⟨walked, -, hpath⟩ := bind_eq_ok_iff.mp hpath
    split at hpath
    · cases hpath
    · split at hpath
      · cases hpath
        refine ⟨nodup_eraseDups _, fun name hname => ?_⟩
        obtain ⟨e, he, hchild⟩ := List.mem_filterMap.mp (List.mem_eraseDups.mp hname)
        unfold childOf? at hchild
        split at hchild
        · exact h e he name (List.mem_of_getElem? hchild)
        · cases hchild
      · cases hpath

/-! ### Unit files in a directory -/

/-- The path leads to a regular file with the extension of a unit type. -/
def IsUnitFile (fs : FileSystem) (path : Path) : Prop :=
  (∃ bytes, fs path = .ok (.file true bytes)) ∧ ∃ t, UnitType.ofPath? path = some t

theorem isUnitFile_iff : isUnitFile fs path = true ↔ IsUnitFile fs path := by
  unfold isUnitFile IsUnitFile
  rw [← Option.isSome_iff_exists]
  split
  · rename_i bytes hfile
    simp [hfile]
  · rename_i hnot
    refine iff_of_false nofun ?_
    rintro ⟨⟨bytes, hfile⟩, -⟩
    exact hnot bytes hfile

theorem mem_unitFilesIn_iff {p : Path} : p ∈ unitFilesIn fs path names ↔
    ∃ name ∈ names, p = path.join name ∧ IsUnitFile fs p := by
  rw [unitFilesIn, List.mem_mergeSort, List.mem_filter, List.mem_map, isUnitFile_iff]
  constructor
  · rintro ⟨⟨name, hname, rfl⟩, hunit⟩
    exact ⟨name, hname, rfl, hunit⟩
  · rintro ⟨name, hname, rfl, hunit⟩
    exact ⟨⟨name, hname, rfl⟩, hunit⟩

/-- The unit files in a directory come in the order of their paths. -/
theorem ordered_unitFilesIn (fs : FileSystem) (path : Path) (names : List String) :
    (unitFilesIn fs path names).Pairwise fun p q => p.before q = true :=
  List.pairwise_mergeSort Path.before_trans Path.before_total _

theorem eq_of_mem_unitFilesIn (hnames : ∀ name ∈ names, Path.IsEntry name) {p q : Path}
    (hp : p ∈ unitFilesIn fs path names) (hq : q ∈ unitFilesIn fs path names)
    (hkey : p.key = q.key) : p = q := by
  obtain ⟨name, hname, rfl, -⟩ := mem_unitFilesIn_iff.mp hp
  obtain ⟨name', hname', rfl, -⟩ := mem_unitFilesIn_iff.mp hq
  rw [Path.join_injective (hnames name hname) (hnames name' hname') hkey]

theorem nodup_unitFilesIn (hnodup : names.Nodup) (hnames : ∀ name ∈ names, Path.IsEntry name) :
    (unitFilesIn fs path names).Nodup := by
  have hjoined : (names.map path.join).Nodup :=
    List.Nodup.map_on (fun name hname name' hname' heq =>
      Path.join_injective (hnames name hname) (hnames name' hname') (congrArg Path.key heq)) hnodup
  exact (List.mergeSort_perm _ _).nodup_iff.mpr (hjoined.filter _)

/-- No unit file in a directory comes twice, however it is written. -/
theorem ascending_unitFilesIn (hnodup : names.Nodup) (hnames : ∀ name ∈ names, Path.IsEntry name) :
    (unitFilesIn fs path names).Pairwise fun p q => p.key < q.key := by
  have hboth := (ordered_unitFilesIn fs path names).and (nodup_unitFilesIn hnodup hnames)
  refine hboth.imp_of_mem fun {p q} hp hq hpq => lt_of_le_of_ne (Path.before_iff.mp hpq.1) ?_
  exact fun hkey => hpq.2 (eq_of_mem_unitFilesIn hnames hp hq hkey)

/-- **The order of the names in a directory** does not matter. -/
theorem unitFilesIn_of_perm (hnames : ∀ name ∈ names, Path.IsEntry name)
    (hperm : names.Perm names') : unitFilesIn fs path names' = unitFilesIn fs path names := by
  have hfound : (unitFilesIn fs path names').Perm (unitFilesIn fs path names) :=
    (List.mergeSort_perm _ _).trans
      (((hperm.symm.map path.join).filter _).trans (List.mergeSort_perm _ _).symm)
  refine hfound.eq_of_pairwise (fun p q hp hq hpq hqp => ?_) (ordered_unitFilesIn fs path names')
    (ordered_unitFilesIn fs path names)
  exact eq_of_mem_unitFilesIn hnames (hfound.subset hp) hq
    (le_antisymm (Path.before_iff.mp hpq) (Path.before_iff.mp hqp))

/-! ### What a path argument stands for -/

/-- What a path argument stands for. -/
inductive StandsFor (fs : FileSystem) (path : Path) : List Path → Prop
  /-- For the unit files in a directory, in the order of their paths and each once. -/
  | directory {names : List String} {found : List Path}
      (listed : fs path = .ok (.directory (.ok names)))
      (ascending : found.Pairwise fun p q => p.key < q.key)
      (unitFiles : ∀ p, p ∈ found ↔ ∃ name ∈ names, p = path.join name ∧ IsUnitFile fs p) :
      StandsFor fs path found
  /-- For itself, where no directory is listed. -/
  | itself (unlisted : ∀ names, fs path ≠ .ok (.directory (.ok names))) : StandsFor fs path [path]

theorem standsFor_collected (hfs : fs.ListsEntries) (path : Path) :
    StandsFor fs path (collected fs path) := by
  unfold collected
  split
  · rename_i names hnames
    obtain ⟨hnodup, hentries⟩ := hfs path names hnames
    exact .directory hnames (ascending_unitFilesIn hnodup hentries) fun _ => mem_unitFilesIn_iff
  · rename_i hother
    exact .itself hother

/-! ### Collections -/

section Reordered

variable (h : fs.Reordered fs')
include h

/-- Files are where they were. -/
theorem FileSystem.Reordered.file_iff {regular : Bool} {bytes : Except Reason (List UInt8)} :
    fs' path = .ok (.file regular bytes) ↔ fs path = .ok (.file regular bytes) := by
  rcases h path with hsame | ⟨names, names', hfs, hfs', -⟩
  · rw [hsame]
  · rw [hfs, hfs']
    exact iff_of_false nofun nofun

theorem FileSystem.Reordered.isUnitFile_eq : isUnitFile fs' = isUnitFile fs := by
  funext path
  rw [Bool.eq_iff_iff, isUnitFile_iff, isUnitFile_iff]
  simp only [IsUnitFile, h.file_iff]

theorem FileSystem.Reordered.readSource_eq : readSource fs' = readSource fs := by
  funext path
  have hbytes : readBytes fs' path = readBytes fs path := by
    unfold readBytes
    rcases h path with hsame | ⟨names, names', hfs, hfs', -⟩
    · rw [hsame]
    · rw [hfs, hfs']
      rfl
  rw [readSource, readSource, hbytes]

theorem FileSystem.Reordered.unitFilesIn_eq : unitFilesIn fs' = unitFilesIn fs := by
  funext path names
  rw [unitFilesIn, unitFilesIn, h.isUnitFile_eq]

theorem FileSystem.Reordered.expand_eq (hfs : fs.ListsEntries) : expand fs' = expand fs := by
  funext path
  rcases h path with hsame | ⟨names, names', hnames, hnames', hperm⟩
  · rw [expand, expand, hsame, h.unitFilesIn_eq]
  · unfold expand
    rw [hnames, hnames', h.unitFilesIn_eq]
    dsimp only
    rw [unitFilesIn_of_perm (hfs path names hnames).2 hperm]

theorem FileSystem.Reordered.collectSources_eq (hfs : fs.ListsEntries) (paths : List Path) :
    collectSources fs' paths = collectSources fs paths := by
  rw [collectSources, collectSources, h.expand_eq hfs, h.readSource_eq]

theorem FileSystem.Reordered.evaluate_eq (hfs : fs.ListsEntries) (color : Bool)
    (args : List String) : evaluate fs' color args = evaluate fs color args := by
  have hlint : runLint fs' = runLint fs := by
    funext config
    rw [runLint, runLint, h.collectSources_eq hfs]
  rw [evaluate, evaluate, hlint]

end Reordered

/-- **A run does not depend on the order of directories.** The sources are those of the path
arguments, one argument after the other. One that cannot be read fails the whole collection, and
the failure names the first of them, after the directories that cannot be listed. Whatever the
order of names, the sources, the failure and the outcome are the same. -/
theorem collection_of_reordered (hfs : fs.ListsEntries) (h : fs.Reordered fs')
    (paths : List Path) :
    collectSources fs' paths = collectSources fs paths ∧
      (∀ path ∈ paths, StandsFor fs path (collected fs path)) ∧
      (∀ sources, collectSources fs paths = .ok sources ↔
        List.Forall₂ (fun p s => s.path = p ∧ HasText fs p s.text) (paths.flatMap (collected fs))
          sources) ∧
      ((∃ e, collectSources fs paths = .error e) ↔
        ∃ p ∈ paths.flatMap (collected fs), Unreadable fs p) ∧
      (∀ e, collectSources fs paths = .error e → Names fs paths e) ∧
      ∀ color args, evaluate fs' color args = evaluate fs color args ∧
        ∀ time, run fs' color time args = run fs color time args := by
  refine ⟨h.collectSources_eq hfs paths, fun path _ => standsFor_collected hfs path,
    fun sources => collectSources_eq_ok_iff, exists_error_iff, fun e => names_of_error,
    fun color args => ?_⟩
  have hevaluate := h.evaluate_eq hfs color args
  refine ⟨hevaluate, fun time => ?_⟩
  rw [run, run, hevaluate]

/-- A directory with two unit files and a file that is none. -/
def etcTree : List TreeEntry :=
  [⟨["etc", "a.container"], some (Text.Utf8.encode "[Container]\n".toList)⟩,
    ⟨["etc", "b.pod"], some (Text.Utf8.encode "[Pod]\n".toList)⟩,
    ⟨["etc", "notes.txt"], some []⟩]

theorem collection_of_reordered_etcTree :
    (TreeEntry.fileSystem etcTree).ListsEntries ∧
      (TreeEntry.fileSystem etcTree).Reordered (TreeEntry.fileSystem etcTree).backwards ∧
      collectSources (TreeEntry.fileSystem etcTree).backwards [⟨"etc"⟩] =
        .ok [⟨⟨"etc/a.container"⟩, "[Container]\n"⟩, ⟨⟨"etc/b.pod"⟩, "[Pod]\n"⟩] := by
  have hnames : ∀ e ∈ etcTree, ∀ name ∈ e.names, name.toList ≠ [] ∧ '/' ∉ name.toList ∧
      name.toList ≠ ['.'] ∧ name.toList ≠ ['.', '.'] := by decide
  have hlists : (TreeEntry.fileSystem etcTree).ListsEntries :=
    TreeEntry.listsEntries_fileSystem fun e he name hname =>
      have ⟨h, h', h'', h'''⟩ := hnames e he name hname
      ⟨h, h', h'', h'''⟩
  have hreordered := FileSystem.reordered_backwards (TreeEntry.fileSystem etcTree)
  have hlisted : TreeEntry.fileSystem etcTree ⟨"etc"⟩ =
      .ok (.directory (.ok ["a.container", "b.pod", "notes.txt"])) := rfl
  have hcollected : collected (TreeEntry.fileSystem etcTree) ⟨"etc"⟩ =
      [⟨"etc/a.container"⟩, ⟨"etc/b.pod"⟩] := by
    have hunits : (["a.container", "b.pod", "notes.txt"].map (Path.join ⟨"etc"⟩)).filter
        (isUnitFile (TreeEntry.fileSystem etcTree)) = [⟨"etc/a.container"⟩, ⟨"etc/b.pod"⟩] := by
      decide
    rw [collected, hlisted]
    dsimp only
    rw [unitFilesIn, hunits]
    exact List.mergeSort_of_pairwise (by decide)
  obtain ⟨hsame, -, hsources, -⟩ := collection_of_reordered hlists hreordered [⟨"etc"⟩]
  refine ⟨hlists, hreordered, hsame.trans ((hsources _).mpr ?_)⟩
  rw [List.flatMap_singleton, hcollected]
  exact .cons ⟨rfl, true, rfl⟩ (.cons ⟨rfl, true, rfl⟩ .nil)

end UnitLint.Cli
