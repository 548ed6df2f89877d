import Mathlib.Data.List.Basic
import Mathlib.Data.List.Lex
import UnitLint.Path

/-! # Equal paths

Paths are compared by numbers, and these are equal just if the paths have the same components. So
all that is read off the components of a path is the same for equal paths. A name in a directory is
one more component of its path (`components_join`), so the paths of the names in a directory differ
as the names do, and there is just one way to put them in order. -/

namespace UnitLint.Path

theorem Component.key_injective : ∀ c d : Component, c.key = d.key → c = d
  | .root, .root, _ | .current, .current, _ | .parent, .parent, _ => rfl
  | .name s, .name s', h => by
    have hinjective : Function.Injective Char.toNat :=
      fun _ _ h => Char.ext (UInt32.toNat_inj.mp h)
    rw [List.map_injective_iff.mpr hinjective (List.cons.inj h).2]

theorem components_eq_of_key_eq {p q : Path} (h : p.key = q.key) : p.components = q.components :=
  List.map_injective_iff.mpr Component.key_injective h

theorem fileName?_eq_of_key_eq {p q : Path} (h : p.key = q.key) : p.fileName? = q.fileName? := by
  rw [fileName?, fileName?, components_eq_of_key_eq h]

/-! ### Names in a directory -/

/-- A name as a directory lists it: it is not empty, has no slash, and is not one of the two that
stand for the directory and its parent. -/
structure IsEntry (name : String) : Prop where
  ne_nil : name.toList ≠ []
  no_slash : '/' ∉ name.toList
  ne_current : name.toList ≠ ['.']
  ne_parent : name.toList ≠ ['.', '.']

variable {directory : Path} {name name' : String}

theorem IsEntry.ofPiece? (h : IsEntry name) :
    Component.ofPiece? name.toList = some (.name name.toList) := by
  simp [Component.ofPiece?, h.ne_nil, h.ne_current, h.ne_parent]

/-- How a path starts follows from its first piece, unless that is empty and there are no others. -/
theorem start_cons {first : List Char} {pieces : List (List Char)}
    (h : first = [] → pieces ≠ []) : start (first :: pieces) =
      if first = [] then [.root] else if first = ['.'] then [.current] else [] := by
  rcases pieces with _ | ⟨second, more⟩
  · have hne : first ≠ [] := fun hnil => h hnil rfl
    unfold start
    split <;> simp_all
  · unfold start
    split <;> simp_all

theorem start_concat {pieces : List (List Char)} (hne : pieces ≠ []) (last last' : List Char) :
    start (pieces ++ [last]) = start (pieces ++ [last']) := by
  obtain ⟨first, pieces, rfl⟩ := List.exists_cons_of_ne_nil hne
  rw [List.cons_append, List.cons_append, start_cons (by simp), start_cons (by simp)]

theorem start_concat_of_ne {pieces : List (List Char)} (hne : pieces ≠ []) (hpieces : pieces ≠ [[]])
    (last : List Char) : start (pieces ++ [last]) = start pieces := by
  obtain ⟨first, pieces, rfl⟩ := List.exists_cons_of_ne_nil hne
  have hmore : first = [] → pieces ≠ [] := by
    rintro rfl rfl
    exact hpieces rfl
  rw [List.cons_append, start_cons (by simp), start_cons hmore]

theorem splitOn_slash_name {s : List Char} (h : IsEntry name) :
    (s ++ '/' :: name.toList).splitOn '/' = s.splitOn '/' ++ [name.toList] := by
  rw [List.splitOn_append_cons_self, List.splitOn_eq_singleton h.no_slash]

/-- The components of pieces before a name. -/
theorem filterMap_concat (pieces : List (List Char)) (h : IsEntry name) :
    (pieces ++ [name.toList]).filterMap Component.ofPiece? =
      pieces.filterMap Component.ofPiece? ++ [.name name.toList] := by
  rw [List.filterMap_append, List.filterMap_cons_some h.ofPiece?, List.filterMap_nil]

theorem components_eq {p : Path} {pieces : List (List Char)}
    (h : p.text.toList.splitOn '/' = pieces) :
    p.components = start pieces ++ pieces.filterMap Component.ofPiece? := by
  rw [components, h]

/-- A name after a slash is one more component. -/
theorem components_slash_name {p q : Path} {front : List Char} (h : IsEntry name)
    (hp : p.text.toList = front ++ '/' :: name.toList) (hq : q.text.toList = front ++ ['/']) :
    p.components = q.components ++ [.name name.toList] := by
  have hsplit : p.text.toList.splitOn '/' = front.splitOn '/' ++ [name.toList] := by
    rw [hp, splitOn_slash_name h]
  have hsplit' : q.text.toList.splitOn '/' = front.splitOn '/' ++ [[]] := by
    rw [hq, List.splitOn_append_cons_self, List.splitOn_nil]
  rw [components_eq hsplit, components_eq hsplit', filterMap_concat _ h, List.filterMap_append,
    start_concat (List.splitOn_ne_nil _ _) name.toList []]
  simp [Component.ofPiece?]

/-- **A name in a directory** is one more component. -/
theorem components_join (directory : Path) (h : IsEntry name) :
    (directory.join name).components = directory.components ++ [.name name.toList] := by
  obtain ⟨text⟩ := directory
  by_cases hempty : text.toList = []
  · obtain rfl := String.toList_eq_nil_iff.mp hempty
    have hsplit : name.toList.splitOn '/' = [name.toList] := List.splitOn_eq_singleton h.no_slash
    have hstart : start [name.toList] = [] := by
      rw [start_cons fun hnil => absurd hnil h.ne_nil, if_neg h.ne_nil, if_neg h.ne_current]
    have hjoin : (join ⟨""⟩ name).text.toList.splitOn '/' = [name.toList] := by
      rw [← hsplit]
      simp [join]
    rw [components_eq hjoin, hstart, List.filterMap_cons_some h.ofPiece?]
    rfl
  · have htext : text ≠ "" := mt String.toList_eq_nil_iff.mpr hempty
    by_cases hend : text.toList.getLast? = some '/'
    · obtain ⟨front, hfront⟩ := List.getLast?_eq_some_iff.mp hend
      refine components_slash_name h ?_ hfront
      simp [join, hfront]
    · have hjoin : (join ⟨text⟩ name).text.toList.splitOn '/' =
          text.toList.splitOn '/' ++ [name.toList] := by
        rw [← splitOn_slash_name h]
        simp [join, hend, htext]
      have hpieces : text.toList.splitOn '/' ≠ [[]] := by
        intro hnil
        have hback : ['/'].intercalate (text.toList.splitOn '/') = text.toList :=
          List.intercalate_splitOn '/'
        rw [hnil] at hback
        exact hempty hback.symm
      rw [components_eq hjoin, components_eq rfl, filterMap_concat _ h,
        start_concat_of_ne (List.splitOn_ne_nil _ _) hpieces, List.append_assoc]

theorem join_injective (h : IsEntry name) (h' : IsEntry name')
    (hkey : (directory.join name).key = (directory.join name').key) : name = name' := by
  have hcomponents := components_eq_of_key_eq hkey
  rw [components_join directory h, components_join directory h'] at hcomponents
  have hnames : Component.name name.toList = .name name'.toList := by simpa using hcomponents
  exact String.toList_injective (Component.name.inj hnames)

/-! ### Order -/

theorem before_iff {p q : Path} : p.before q = true ↔ p.key ≤ q.key := by
  simp [before]

theorem before_trans (p q r : Path) (hpq : p.before q = true) (hqr : q.before r = true) :
    p.before r = true :=
  before_iff.mpr ((before_iff.mp hpq).trans (before_iff.mp hqr))

theorem before_total (p q : Path) : (p.before q || q.before p) = true := by
  rw [Bool.or_eq_true, before_iff, before_iff]
  exact le_total p.key q.key

end UnitLint.Path
