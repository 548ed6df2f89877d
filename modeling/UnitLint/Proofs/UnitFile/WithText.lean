import UnitLint.UnitFile.Basic

/-! # Another text for a value

A unit file in which one value is written in another way has the same groups, and in them the same
entries but for that value (`Group.entries_withText`). -/

namespace UnitLint

/-- The entry with another text as its value. -/
def Entry.withText (e : Entry) (text : String) : Entry :=
  { e with value := { e.value with text := text } }

/-- The group with another text as the value of the entry at a position. -/
def Group.withText (g : Group) (i : Nat) (text : String) : Group :=
  { g with entries := g.entries.modify i (·.withText text) }

/-- The unit file with another text as the value of the entry at a position of a group. -/
def UnitFile.withText (u : UnitFile) (group : String) (i : Nat) (text : String) : UnitFile :=
  { u with groups := u.groups.map fun g => if g.name == group then g.withText i text else g }

namespace Group

variable {g : Group} {i : Nat} {e : Entry} (he : g.entries[i]? = some e)
include he

theorem entries_eq : g.entries = g.entries.take i ++ e :: g.entries.drop (i + 1) := by
  obtain ⟨hi, rfl⟩ := List.getElem?_eq_some_iff.mp he
  rw [← List.drop_eq_getElem_cons hi, List.take_append_drop]

theorem entries_withText (text : String) : (g.withText i text).entries =
    g.entries.take i ++ e.withText text :: g.entries.drop (i + 1) := by
  obtain ⟨hi, rfl⟩ := List.getElem?_eq_some_iff.mp he
  exact List.modify_eq_take_cons_drop hi

end Group

/-- The values of a key are those before an entry, its own if it has the key, and those after. -/
theorem map_filter_split (before after : List Entry) (e : Entry) (key : String) :
    ((before ++ e :: after).filter (·.key == key)).map (·.value) =
      (before.filter (·.key == key)).map (·.value) ++
        ((if e.key == key then [e.value] else []) ++
          (after.filter (·.key == key)).map (·.value)) := by
  rw [List.filter_append, List.map_append, List.filter_cons]
  cases e.key == key <;> rfl

namespace UnitFile

variable {u : UnitFile} {group : String}

theorem group?_withText (i : Nat) (text name : String) : (u.withText group i text).group? name =
    (u.group? name).map fun g => if g.name == group then g.withText i text else g := by
  unfold group? withText
  rw [List.find?_map]
  congr 2
  funext g
  show ((if g.name == group then g.withText i text else g).name == name) = _
  split <;> rfl

theorem name_of_group? {g : Group} {name : String} (h : u.group? name = some g) : g.name = name := by
  have hfound := List.find?_some (show u.groups.find? (·.name == name) = some g from h)
  exact beq_iff_eq.mp hfound

theorem group?_withText_of_ne {name : String} (h : name ≠ group) (i : Nat) (text : String) :
    (u.withText group i text).group? name = u.group? name := by
  rw [group?_withText]
  cases hg : u.group? name with
  | none => rfl
  | some g => rw [Option.map_some, name_of_group? hg, if_neg (by simpa using h)]

theorem group?_withText_self {g : Group} (hg : u.group? group = some g) (i : Nat) (text : String) :
    (u.withText group i text).group? group = some (g.withText i text) := by
  rw [group?_withText, hg, Option.map_some, name_of_group? hg, if_pos (beq_self_eq_true _)]

variable {g : Group} (hg : u.group? group = some g) {i : Nat} {e : Entry}
  (he : g.entries[i]? = some e)
include hg he

/-- The values of a key are those before the entry, its own if it has the key, and those after it.
-/
theorem valuesOf_split (text key : String) : ∃ before,
    let after := ((g.entries.drop (i + 1)).filter (·.key == key)).map (·.value)
    u.valuesOf group key = before ++ ((if e.key == key then [e.value] else []) ++ after) ∧
      (u.withText group i text).valuesOf group key =
        before ++ ((if e.key == key then [(e.withText text).value] else []) ++ after) := by
  refine ⟨((g.entries.take i).filter (·.key == key)).map (·.value), ?_, ?_⟩
  · rw [← map_filter_split, ← Group.entries_eq he, valuesOf, hg]
    rfl
  · have hkey : (e.key == key) = ((e.withText text).key == key) := rfl
    rw [hkey, ← map_filter_split, ← Group.entries_withText he, valuesOf, group?_withText_self hg]
    rfl

/-- Other keys keep their values. -/
theorem valuesOf_withText_of_ne {group' key : String} (text : String)
    (h : (group', key) ≠ (group, e.key)) :
    u.valuesOf group' key = (u.withText group i text).valuesOf group' key := by
  by_cases hgroup : group' = group
  · have hne : (e.key == key) = false := beq_eq_false_iff_ne.mpr fun hkey => h (by rw [hgroup, hkey])
    obtain ⟨before, hold, hnew⟩ := valuesOf_split hg he text key
    rw [hgroup, hold, hnew, hne]
    rfl
  · rw [valuesOf, valuesOf, group?_withText_of_ne hgroup]

/-- The last value of the key is that of a later entry, or else of this one. -/
theorem getLast?_valuesOf (text : String) :
    let later := ((g.entries.drop (i + 1)).filter (·.key == e.key)).map (·.value)
    (u.valuesOf group e.key).getLast? = some (later.getLast?.getD e.value) ∧
      ((u.withText group i text).valuesOf group e.key).getLast? =
        some (later.getLast?.getD (e.withText text).value) := by
  intro later
  have hlist : ∀ (before : List Value) (v : Value),
      (before ++ ([v] ++ later)).getLast? = some (later.getLast?.getD v) := by
    intro before v
    rw [List.singleton_append, List.getLast?_append, List.getLast?_cons]
    rfl
  obtain ⟨before, hold, hnew⟩ := valuesOf_split hg he text e.key
  rw [hold, hnew, if_pos (beq_self_eq_true _), if_pos (beq_self_eq_true _)]
  exact ⟨hlist before e.value, hlist before (e.withText text).value⟩

end UnitFile

end UnitLint
