import UnitLint.Cli.Sources
import UnitLint.Proofs.Failure
import UnitLint.Proofs.Text.WellFormed

/-! # Collecting sources

The paths that are collected have a text each, or the collection fails. If it succeeds, it gives
these paths with their texts, in order (`collectSources_eq_ok_iff`). If it fails, one of them has no
text (`exists_error_iff`), and a path is named: the first directory whose names cannot be listed, as
directories come before files, or else the first path that has no text (`names_of_error`). -/

namespace UnitLint.Cli

open Text

variable {fs : FileSystem} {path : Path} {paths : List Path} {sources : List Source}

/-! ### Texts -/

/-- The path leads to a file that can be read, and its bytes are those of the text. -/
def HasText (fs : FileSystem) (path : Path) (text : String) : Prop :=
  ∃ regular, fs path = .ok (.file regular (.ok (Utf8.encode text.toList)))

/-- The path leads to no text. -/
def Unreadable (fs : FileSystem) (path : Path) : Prop := ∀ text, ¬ HasText fs path text

/-- The path leads to a directory whose names cannot be listed. -/
def Unlisted (fs : FileSystem) (path : Path) : Prop :=
  ∃ reason, fs path = .ok (.directory (.error reason))

theorem readBytes_eq_ok_iff {bytes : List UInt8} :
    readBytes fs path = .ok bytes ↔ ∃ regular, fs path = .ok (.file regular (.ok bytes)) := by
  unfold readBytes
  rw [bind_eq_ok_iff]
  constructor
  · rintro ⟨node, hnode, h⟩
    cases node with
    | file regular found =>
      obtain rfl : found = .ok bytes := h
      exact ⟨regular, hnode⟩
    | directory => cases h
  · rintro ⟨regular, h⟩
    exact ⟨_, h, rfl⟩

theorem hasText_iff {text : String} :
    HasText fs path text ↔ readBytes fs path = .ok (Utf8.encode text.toList) :=
  readBytes_eq_ok_iff.symm

theorem readSource_eq_ok_iff {s : Source} :
    readSource fs path = .ok s ↔ s.path = path ∧ HasText fs path s.text := by
  rw [hasText_iff]
  unfold readSource
  constructor
  · intro h
    split at h
    · cases h
    · rename_i bytes hbytes
      split at h
      · cases h
      · rename_i text htext
        cases h
        refine ⟨rfl, ?_⟩
        rw [hbytes, Utf8.decode?_eq_some_iff.mp htext, String.toList_ofList]
  · obtain ⟨path', text⟩ := s
    rintro ⟨rfl, htext⟩
    have hdecode : Utf8.decode? (Utf8.encode text.toList) = some text.toList :=
      Utf8.decode?_eq_some_iff.mpr rfl
    rw [htext]
    dsimp only
    rw [hdecode]
    dsimp only
    rw [String.ofList_toList]

theorem readSource_error {e : ReadFailure} (h : readSource fs path = .error e) :
    ∃ reason, e = .file path reason := by
  unfold readSource at h
  split at h
  · exact ⟨_, (Except.error.inj h).symm⟩
  · split at h
    · exact ⟨_, (Except.error.inj h).symm⟩
    · cases h

theorem exists_readSource_error_iff :
    (∃ e, readSource fs path = .error e) ↔ Unreadable fs path := by
  constructor
  · rintro ⟨e, he⟩ text htext
    have hok : readSource fs path = .ok ⟨path, text⟩ := readSource_eq_ok_iff.mpr ⟨rfl, htext⟩
    rw [he] at hok
    cases hok
  · intro h
    cases hread : readSource fs path with
    | error e => exact ⟨e, rfl⟩
    | ok s => exact absurd (readSource_eq_ok_iff.mp hread).2 (h s.text)

/-! ### Collected paths -/

/-- The paths that a path argument stands for: the unit files in a directory that is listed, or
itself. -/
def collected (fs : FileSystem) (path : Path) : List Path :=
  match fs path with
  | .ok (.directory (.ok names)) => unitFilesIn fs path names
  | _ => [path]

theorem expand_eq_ok_iff {found : List Path} :
    expand fs path = .ok found ↔ ¬ Unlisted fs path ∧ collected fs path = found := by
  unfold expand collected Unlisted
  split <;> simp_all

theorem expand_error {e : ReadFailure} (h : expand fs path = .error e) :
    ∃ reason, e = .directory path reason := by
  unfold expand at h
  split at h
  · cases h
  · exact ⟨_, (Except.error.inj h).symm⟩
  · cases h

theorem exists_expand_error_iff : (∃ e, expand fs path = .error e) ↔ Unlisted fs path := by
  unfold expand Unlisted
  split <;> simp_all

/-- A directory that cannot be listed stands for itself, and has no text. -/
theorem unreadable_of_unlisted (h : Unlisted fs path) :
    path ∈ collected fs path ∧ Unreadable fs path := by
  obtain ⟨reason, h⟩ := h
  refine ⟨?_, ?_⟩
  · rw [collected, h]
    exact List.mem_cons_self
  · rintro text ⟨regular, htext⟩
    rw [h] at htext
    cases htext

theorem mapM_expand_eq_ok_iff {files : List (List Path)} : paths.mapM (expand fs) = .ok files ↔
    (∀ p ∈ paths, ¬ Unlisted fs p) ∧ paths.map (collected fs) = files := by
  induction paths generalizing files with
  | nil => simp [pure, Except.pure]
  | cons path paths ih =>
    rw [List.mapM_cons, bind_eq_ok_iff, List.forall_mem_cons, List.map_cons]
    constructor
    · rintro ⟨found, hfound, h⟩
      obtain ⟨files', hfiles', h⟩ := bind_eq_ok_iff.mp h
      obtain ⟨hlisted, rfl⟩ := expand_eq_ok_iff.mp hfound
      obtain ⟨hall, rfl⟩ := ih.mp hfiles'
      cases h
      exact ⟨⟨hlisted, hall⟩, rfl⟩
    · rintro ⟨⟨hlisted, hall⟩, rfl⟩
      exact ⟨_, expand_eq_ok_iff.mpr ⟨hlisted, rfl⟩,
        bind_eq_ok_iff.mpr ⟨_, ih.mpr ⟨hall, rfl⟩, rfl⟩⟩

/-! ### Collections -/

/-- If all that is collected can be read, every directory has been listed. -/
theorem collectSources_eq_ok_iff_mapM : collectSources fs paths = .ok sources ↔
    (paths.flatMap (collected fs)).mapM (readSource fs) = .ok sources := by
  unfold collectSources
  rw [bind_eq_ok_iff]
  constructor
  · rintro ⟨files, hfiles, h⟩
    obtain ⟨-, rfl⟩ := mapM_expand_eq_ok_iff.mp hfiles
    rwa [← List.flatMap_def] at h
  · intro h
    have hlisted : ∀ p ∈ paths, ¬ Unlisted fs p := by
      intro p hp hunlisted
      obtain ⟨hmem, hunreadable⟩ := unreadable_of_unlisted hunlisted
      have hread := exists_mapM_iff.mp ⟨sources, h⟩ p (List.mem_flatMap.mpr ⟨p, hp, hmem⟩)
      obtain ⟨s, hs⟩ := hread
      exact hunreadable s.text (readSource_eq_ok_iff.mp hs).2
    refine ⟨_, mapM_expand_eq_ok_iff.mpr ⟨hlisted, rfl⟩, ?_⟩
    rwa [← List.flatMap_def]

/-- **A collection that succeeds** gives the collected paths with their texts, in order. -/
theorem collectSources_eq_ok_iff : collectSources fs paths = .ok sources ↔
    List.Forall₂ (fun p s => s.path = p ∧ HasText fs p s.text) (paths.flatMap (collected fs))
      sources := by
  rw [collectSources_eq_ok_iff_mapM, mapM_eq_ok_iff]
  simp only [readSource_eq_ok_iff]

/-- **A collection fails** just if some collected path has no text. -/
theorem exists_error_iff : (∃ e, collectSources fs paths = .error e) ↔
    ∃ p ∈ paths.flatMap (collected fs), Unreadable fs p := by
  have hsucceeds : (∃ sources, collectSources fs paths = .ok sources) ↔
      ∀ p ∈ paths.flatMap (collected fs), ∃ s, readSource fs p = .ok s := by
    simp only [collectSources_eq_ok_iff_mapM]
    exact exists_mapM_iff
  have hfails : ∀ {α : Type} (x : Except ReadFailure α),
      (∃ e, x = .error e) ↔ ¬ ∃ a, x = .ok a := by
    intro α x
    cases x <;> simp
  simp only [hfails, hsucceeds, ← exists_readSource_error_iff]
  push Not
  rfl

/-- The failure names the first directory that cannot be listed or, if there is none, the first
collected path that has no text. -/
def Names (fs : FileSystem) (paths : List Path) (e : ReadFailure) : Prop :=
  (∃ p reason, e = .directory p reason ∧ IsFirst (Unlisted fs) paths p) ∨
    (∀ p ∈ paths, ¬ Unlisted fs p) ∧
      ∃ p reason, e = .file p reason ∧
        IsFirst (Unreadable fs) (paths.flatMap (collected fs)) p

/-- **A collection that fails names a path.** -/
theorem names_of_error {e : ReadFailure} (h : collectSources fs paths = .error e) :
    Names fs paths e := by
  unfold collectSources at h
  rcases bind_eq_error_iff.mp h with hfiles | ⟨files, hfiles, h⟩
  · obtain ⟨p, hp, hfirst⟩ := isFirst_of_mapM_error hfiles
    obtain ⟨reason, rfl⟩ := expand_error hp
    exact Or.inl ⟨p, reason, rfl, hfirst.congr fun _ => exists_expand_error_iff⟩
  · obtain ⟨hlisted, rfl⟩ := mapM_expand_eq_ok_iff.mp hfiles
    rw [← List.flatMap_def] at h
    obtain ⟨p, hp, hfirst⟩ := isFirst_of_mapM_error h
    obtain ⟨reason, rfl⟩ := readSource_error hp
    exact Or.inr ⟨hlisted, p, reason, rfl, hfirst.congr fun _ => exists_readSource_error_iff⟩

end UnitLint.Cli
