import UnitLint.Proofs.UnitFile.CallLog
import UnitLint.UnitFile.IndexedBuilder

/-! # The index of a builder

A builder that looks groups up by their positions does what one does that looks for their names, and
never misses a group. What it needs for that is that the index has each name at the position of its
group and no other name, and that there is a group at the position of the one opened last
(`IndexedBuilder.WellFormed`). Both steps keep this up and build the same file
(`builder_openGroup`, `exists_append`), so every call does, and the builder holds what the log of
the calls says (`IndexedBuilder.calls_refine_log`). -/

namespace UnitLint

namespace IndexedBuilder

/-- The index has the positions of the groups, and the current position is one of them. -/
structure WellFormed (b : IndexedBuilder) : Prop where
  index_iff : ∀ name i, b.index[name]? = some i ↔ b.groups[i]?.map Group.name = some name
  current_lt : ∀ i, b.current = some i → i < b.groups.length

/-- The builder without its index. -/
def builder (b : IndexedBuilder) : Builder := ⟨⟨b.path, b.groups⟩, b.currentName⟩

theorem wellFormed_empty (path : Path) : (empty path).WellFormed where
  index_iff name i := by simp [empty]
  current_lt i h := by cases h

theorem nextLine_builder (b : IndexedBuilder) : b.builder.nextLine = b.nextLine := rfl

theorem exists_current_openGroup (name : String) (line : Nat) (b : IndexedBuilder) :
    ∃ i, (b.openGroup name line).current = some i := by
  rw [openGroup]
  split
  next i _ => exact ⟨i, rfl⟩
  next => exact ⟨_, rfl⟩

namespace WellFormed

variable {b : IndexedBuilder} (h : b.WellFormed)
include h

theorem index_eq_some_iff {name : String} {i : Nat} :
    b.index[name]? = some i ↔ ∃ g, b.groups[i]? = some g ∧ g.name = name :=
  (h.index_iff name i).trans Option.map_eq_some_iff

/-- There is one position for each name. -/
theorem eq_of_name_eq {i j : Nat} {g k : Group} (hi : b.groups[i]? = some g)
    (hj : b.groups[j]? = some k) (hname : g.name = k.name) : i = j := by
  have hg := h.index_eq_some_iff.mpr ⟨g, hi, hname⟩
  have hk := h.index_eq_some_iff.mpr ⟨k, hj, rfl⟩
  exact Option.some.inj (hg.symm.trans hk)

theorem names_nodup : (b.groups.map (·.name)).Nodup :=
  nodup_of_positions (b.index[·]?) fun name i => by
    rw [h.index_iff, List.getElem?_map]

/-- A name that the index does not have is that of no group. -/
theorem name_ne {name : String} (hname : b.index[name]? = none) {g : Group} (hg : g ∈ b.groups) :
    g.name ≠ name := by
  rintro rfl
  obtain ⟨i, hi⟩ := List.mem_iff_getElem?.mp hg
  have hindex := h.index_eq_some_iff.mpr ⟨g, hi, rfl⟩
  rw [hname] at hindex
  cases hindex

/-- **Looking a name up in the index is looking for its group.** -/
theorem group?_eq (name : String) : b.group? name = b.builder.unit.group? name := by
  show b.index[name]?.bind (b.groups[·]?) = b.groups.find? (·.name == name)
  cases hfind : b.groups.find? (·.name == name) with
  | none =>
    cases hname : b.index[name]? with
    | none => rfl
    | some i =>
      obtain ⟨g, hg, rfl⟩ := h.index_eq_some_iff.mp hname
      have hne := List.find?_eq_none.mp hfind g (List.mem_of_getElem? hg)
      exact absurd (beq_self_eq_true g.name) hne
  | some g =>
    have hname : g.name = name := by simpa using List.find?_some hfind
    obtain ⟨i, hi⟩ := List.mem_iff_getElem?.mp (List.mem_of_find?_eq_some hfind)
    rw [h.index_eq_some_iff.mpr ⟨g, hi, hname⟩, Option.bind_some, hi]

theorem hasGroup_eq (name : String) : b.hasGroup name = b.builder.unit.hasGroup name := by
  rw [UnitFile.hasGroup, ← h.group?_eq, hasGroup, group?, Std.HashMap.contains_eq_isSome_getElem?]
  cases hname : b.index[name]? with
  | none => rfl
  | some i =>
    obtain ⟨g, hg, -⟩ := h.index_eq_some_iff.mp hname
    rw [Option.bind_some, hg]
    rfl

/-! ### Opening a group -/

/-- Opening a group keeps the index right. -/
theorem openGroup (name : String) (line : Nat) : (b.openGroup name line).WellFormed := by
  rw [IndexedBuilder.openGroup]
  split
  next i hi =>
    obtain ⟨g, hg, -⟩ := h.index_eq_some_iff.mp hi
    refine ⟨h.index_iff, fun j hj => ?_⟩
    obtain rfl := Option.some.inj hj
    exact (List.getElem?_eq_some_iff.mp hg).1
  next hnone =>
    refine ⟨fun other i => ?_, fun j hj => ?_⟩
    · have hlen : b.groups.length = (b.groups.map Group.name).length := List.length_map _ |>.symm
      show (b.index.insert name b.groups.length)[other]? = some i ↔
        (b.groups ++ [⟨name, line, []⟩])[i]?.map Group.name = some other
      rw [← List.getElem?_map, List.map_append, List.map_singleton, getElem?_concat_eq_some_iff,
        List.getElem?_map, ← h.index_iff, Std.HashMap.getElem?_insert, ← hlen]
      by_cases hname : name = other
      · subst hname
        simp [hnone, eq_comm]
      · simp [hname]
    · obtain rfl := Option.some.inj hj
      simp

theorem builder_openGroup (name : String) (line : Nat) :
    (b.openGroup name line).builder = b.builder.openGroup name line := by
  rw [IndexedBuilder.openGroup]
  split
  next i hi =>
    obtain ⟨g, hg, rfl⟩ := h.index_eq_some_iff.mp hi
    have hany : b.groups.any (·.name == g.name) = true :=
      List.any_eq_true.mpr ⟨g, List.mem_of_getElem? hg, beq_self_eq_true g.name⟩
    rw [Builder.openGroup, Builder.withGroup]
    simp [builder, currentName, hg, hany]
  next hnone =>
    have hany : b.groups.any (·.name == name) = false := by
      rw [List.any_eq_false]
      exact fun g hg hname => h.name_ne hnone hg (beq_iff_eq.mp hname)
    rw [Builder.openGroup, Builder.withGroup]
    simp [builder, currentName, hany]

/-! ### Appending an entry -/

/-- Appending at a position is appending to the group of the name found there. -/
theorem set_eq_withEntry {i : Nat} {g : Group} (hg : b.groups[i]? = some g) (entry : Entry) :
    b.groups.set i { g with entries := g.entries ++ [entry] } =
      Builder.withEntry g.name entry b.groups := by
  have hlength : (b.groups.set i { g with entries := g.entries ++ [entry] }).length =
      (Builder.withEntry g.name entry b.groups).length := by
    rw [Builder.withEntry, List.length_set, List.length_map]
  refine List.ext_getElem hlength fun j hj _ => ?_
  rw [List.length_set] at hj
  have hj' : b.groups[j]? = some b.groups[j] := List.getElem?_eq_getElem hj
  simp only [List.getElem_set, Builder.withEntry, List.getElem_map]
  by_cases hij : i = j
  · obtain rfl := hij
    obtain rfl := Option.some.inj (hg.symm.trans hj')
    rw [if_pos rfl, if_pos (beq_self_eq_true _)]
  · have hne : (b.groups[j].name == g.name) = false :=
      beq_eq_false_iff_ne.mpr fun hname => hij (h.eq_of_name_eq hg hj' hname.symm)
    rw [if_neg hij, hne, if_neg Bool.false_ne_true]

/-- **There is a group to append to**, and appending keeps the index right. -/
theorem exists_appendAt {i : Nat} (hi : b.current = some i) (entry : Entry) :
    ∃ b', b.appendAt i entry = some b' ∧ b'.WellFormed ∧ b'.builder = b.builder.append entry := by
  obtain ⟨g, hg⟩ : ∃ g, b.groups[i]? = some g :=
    ⟨_, List.getElem?_eq_getElem (h.current_lt i hi)⟩
  have hcurrent : b.builder.current = some g.name := by
    show b.currentName = _
    rw [currentName, hi, Option.bind_some, hg, Option.map_some]
  have hset := h.set_eq_withEntry hg entry
  have hnames : (Builder.withEntry g.name entry b.groups).map Group.name =
      b.groups.map Group.name := by
    rw [Builder.withEntry, List.map_map]
    refine List.map_congr_left fun g _ => ?_
    rw [Function.comp_apply]
    split <;> rfl
  refine ⟨_, by rw [appendAt, hg, Option.map_some, hset], ⟨fun name j => ?_, fun j hj => ?_⟩, ?_⟩
  · rw [h.index_iff, ← List.getElem?_map, ← List.getElem?_map, hnames]
  · rw [← List.length_map Group.name, hnames, List.length_map]
    exact h.current_lt j hj
  · rw [Builder.append, hcurrent]
    simp only [builder, currentName, ← List.getElem?_map, hnames]
    rw [hi, Option.bind_some, List.getElem?_map, hg, Option.map_some]

/-- **Appending never fails**, and builds what appending by name does. -/
theorem exists_append (entry : Entry) :
    ∃ b', b.append entry = some b' ∧ b'.WellFormed ∧ b'.builder = b.builder.append entry := by
  rw [IndexedBuilder.append]
  cases hcurrent : b.current with
  | some i => exact h.exists_appendAt hcurrent entry
  | none =>
    obtain ⟨i, hi⟩ := exists_current_openGroup "" 0 b
    obtain ⟨b', happend, hwell, hbuilder⟩ := (h.openGroup "" 0).exists_appendAt hi entry
    have hposition : (b.openGroup "" 0).current.getD 0 = i := by
      rw [hi]
      rfl
    refine ⟨b', (congrArg (appendAt · entry (b.openGroup "" 0)) hposition).trans happend, hwell, ?_⟩
    have hnone : b.builder.current = none := by
      show b.currentName = none
      rw [currentName, hcurrent]
      rfl
    rw [hbuilder, h.builder_openGroup, Builder.append, Builder.append, hnone]
    rfl

end WellFormed

/-! ### Calls -/

/-- What a call does to a builder. -/
def call (b : IndexedBuilder) : Call → Option IndexedBuilder
  | .act (.openGroup name line) => some (b.openGroup name line)
  | .act (.append entry) => b.append entry
  | .add group key text => b.add group key text

/-- The builder after some calls. -/
def calls (b : IndexedBuilder) (cs : List Call) : Option IndexedBuilder := cs.foldlM call b

/-- A call does what it does without the index. -/
theorem WellFormed.exists_call {b : IndexedBuilder} (h : b.WellFormed) (c : Call) :
    ∃ b', b.call c = some b' ∧ b'.WellFormed ∧ b'.builder = b.builder.call c := by
  cases c with
  | act a =>
    cases a with
    | openGroup name line => exact ⟨_, rfl, h.openGroup name line, h.builder_openGroup name line⟩
    | append entry => exact h.exists_append entry
  | add group key text =>
    obtain ⟨b', happend, hwell, hbuilder⟩ := (h.openGroup group b.nextLine).exists_append
      ⟨key, 0, ⟨key, text, ⟨(b.openGroup group b.nextLine).nextLine, key.length + 1⟩⟩⟩
    refine ⟨b', happend, hwell, ?_⟩
    rw [hbuilder, ← nextLine_builder, h.builder_openGroup, ← nextLine_builder]
    rfl

theorem WellFormed.exists_calls {b : IndexedBuilder} (h : b.WellFormed) (cs : List Call) :
    ∃ b', b.calls cs = some b' ∧ b'.WellFormed ∧ b'.builder = b.builder.calls cs := by
  induction cs generalizing b with
  | nil => exact ⟨b, rfl, h, rfl⟩
  | cons c cs ih =>
    obtain ⟨b', hcall, hwell, hbuilder⟩ := h.exists_call c
    obtain ⟨built, hcalls, hbuilt, heq⟩ := ih hwell
    refine ⟨built, ?_, hbuilt, ?_⟩
    · rw [calls, List.foldlM_cons, hcall]
      exact hcalls
    · rw [heq, hbuilder]
      rfl

/-- The builder has what the log says, and its index has where it is. -/
structure Refines (b : IndexedBuilder) (log : CallLog) : Prop extends b.WellFormed where
  /-- No two groups have one name. -/
  nodup : (b.groups.map (·.name)).Nodup
  /-- The name of the current group is the one opened last. -/
  currentName : b.currentName = log.opened.getLast?.map (·.1)
  /-- The groups come in the order in which they were first opened. -/
  names : b.groups.map (·.name) = (log.opened.map (·.1)).eraseDups
  /-- A group has the line with which it was first opened. -/
  line : ∀ g ∈ b.groups, log.opened.find? (·.1 == g.name) = some (g.name, g.line)
  /-- A group has the entries appended under its name. -/
  entries : ∀ g ∈ b.groups, g.entries = (log.appended.filter (·.1 == g.name)).map (·.2)
  /-- No entry was appended under another name. -/
  appended : ∀ p ∈ log.appended, p.1 ∈ b.groups.map (·.name)

/-- **A builder with an index holds what the log of the calls says.** No call fails. The groups are
those opened, each name once, in the order of the first openings and with the lines of these; the
entries of a group are those appended while it was open; the index has the position of every group.
The file is that of a builder without an index, and looking a group up finds the same. -/
theorem calls_refine_log (path : Path) (cs : List Call) :
    ∃ b, (empty path).calls cs = some b ∧ b.Refines (CallLog.ofCalls cs) ∧
      b.builder = (Builder.empty path).calls cs ∧ b.path = path ∧
      ∀ name, b.group? name = b.builder.unit.group? name ∧
        b.hasGroup name = b.builder.unit.hasGroup name := by
  obtain ⟨b, hcalls, hwell, hbuilder⟩ := (wellFormed_empty path).exists_calls cs
  have hlog : b.builder = Builder.ofLog path (CallLog.ofCalls cs) :=
    hbuilder.trans (Builder.calls_empty path cs)
  have hgroups : b.groups = (CallLog.ofCalls cs).groups := congrArg (·.unit.groups) hlog
  have hnames : b.groups.map (·.name) = (CallLog.ofCalls cs).names :=
    hgroups ▸ CallLog.map_name_groups _
  refine ⟨b, hcalls, ?_, hbuilder, congrArg (·.unit.path) hlog, fun name =>
    ⟨hwell.group?_eq name, hwell.hasGroup_eq name⟩⟩
  exact {
    toWellFormed := hwell
    nodup := hwell.names_nodup
    currentName := congrArg (·.current) hlog
    names := hnames
    line := fun g hg => CallLog.find?_opened_of_mem_groups (hgroups ▸ hg)
    entries := fun g hg => CallLog.entries_of_mem_groups (hgroups ▸ hg)
    appended := fun p hp => hnames ▸ CallLog.mem_names_of_mem_appended hp }

end IndexedBuilder

end UnitLint
