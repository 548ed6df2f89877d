import Mathlib.Data.List.Basic
import UnitLint.Proofs.UnitFile.History

/-! # The log of the calls to a builder

A log has the groups that were opened, each with the line given, and the entries that were appended,
each with the name of the group that was open. Nothing in it is merged or looked up. A builder holds
what its log says (`Builder.calls_empty`): a group for each name that was opened, where it was first
opened, with the line given there and the entries appended under the name.

Groups and logs are both known from the sections of a history, and so is the number of the next
line: as many lines as entries appended, and one for each name (`nextLine_ofSections`). -/

namespace UnitLint

/-- A call to a builder: an action, or a key and text to add to a group, on a line of its own. -/
inductive Call where
  | act (action : Action)
  | add (group key text : String)
  deriving DecidableEq, Repr

/-- The groups opened and the entries appended, in order. -/
structure CallLog where
  /-- The name and line of each group, as often as it was opened. -/
  opened : List (String × Nat)
  /-- Each entry, with the name of the group that was open. -/
  appended : List (String × Entry)
  deriving DecidableEq, Repr

namespace CallLog

/-- The log of no call. -/
def empty : CallLog := ⟨[], []⟩

/-- The name of the group opened last. -/
def current (log : CallLog) : Option String := log.opened.getLast?.map (·.1)

/-- The names of the groups opened, each once, in the order in which they were first opened. -/
def names (log : CallLog) : List String := (log.opened.map (·.1)).eraseDups

/-- A line for each entry appended and for each group, and one more. -/
def nextLine (log : CallLog) : Nat := log.appended.length + log.names.length + 1

/-- Logs an action. An entry that comes before any group opens the empty name at line 0. -/
def act (log : CallLog) : Action → CallLog
  | .openGroup name line => { log with opened := log.opened ++ [(name, line)] }
  | .append entry =>
    match log.current with
    | some name => { log with appended := log.appended ++ [(name, entry)] }
    | none => ⟨log.opened ++ [("", 0)], log.appended ++ [("", entry)]⟩

/-- Logs a call. -/
def call (log : CallLog) : Call → CallLog
  | .act action => log.act action
  | .add group key text =>
    let opened := log.act (.openGroup group log.nextLine)
    opened.act (.append ⟨key, 0, ⟨key, text, ⟨opened.nextLine, key.length + 1⟩⟩⟩)

/-- The log of some calls. -/
def ofCalls (calls : List Call) : CallLog := calls.foldl call empty

/-- The group of a name: the line where it was first opened, the entries appended under it. -/
def group (log : CallLog) (name : String) : Group where
  name := name
  line := ((log.opened.find? (·.1 == name)).map (·.2)).getD 0
  entries := (log.appended.filter (·.1 == name)).map (·.2)

/-- The groups of all names. -/
def groups (log : CallLog) : List Group := log.names.map log.group

theorem map_name_groups (log : CallLog) : log.groups.map (·.name) = log.names := by
  rw [groups, List.map_map]
  exact List.map_id _

/-- The line of a group is that of its first opening. -/
theorem find?_opened_of_mem_groups {log : CallLog} {g : Group} (h : g ∈ log.groups) :
    log.opened.find? (·.1 == g.name) = some (g.name, g.line) := by
  obtain ⟨name, hname, rfl⟩ := List.mem_map.mp h
  obtain ⟨p, hp, rfl⟩ := List.mem_map.mp (List.mem_eraseDups.mp hname)
  have hsome : (log.opened.find? (·.1 == p.1)).isSome = true :=
    List.find?_isSome.mpr ⟨p, hp, beq_self_eq_true p.1⟩
  obtain ⟨first, hfirst⟩ := Option.isSome_iff_exists.mp hsome
  have hfirst' : first.1 = p.1 := by simpa using List.find?_some hfirst
  show log.opened.find? (·.1 == p.1) =
    some (p.1, ((log.opened.find? (·.1 == p.1)).map (·.2)).getD 0)
  rw [hfirst, ← hfirst']
  rfl

/-- The entries of a group are those appended under its name. -/
theorem entries_of_mem_groups {log : CallLog} {g : Group} (h : g ∈ log.groups) :
    g.entries = (log.appended.filter (·.1 == g.name)).map (·.2) := by
  obtain ⟨name, -, rfl⟩ := List.mem_map.mp h
  rfl

/-! ### The log of a history -/

/-- The log of the actions that wrote some sections. -/
def ofSections (ss : List Group) : CallLog where
  opened := ss.map fun g => (g.name, g.line)
  appended := ss.flatMap fun g => g.entries.map (g.name, ·)

theorem current_ofSections (ss : List Group) :
    (ofSections ss).current = ss.getLast?.map (·.name) := by
  rw [current, ofSections, List.getLast?_map, Option.map_map]
  rfl

theorem names_ofSections (ss : List Group) :
    (ofSections ss).names = (ss.map (·.name)).eraseDups := by
  rw [names, ofSections, List.map_map]
  rfl

/-- Logging an action is writing it down. -/
theorem act_ofSections (ss : List Group) (a : Action) :
    (ofSections ss).act a = ofSections (Group.record ss a) := by
  cases a with
  | openGroup name line => simp [act, ofSections, Group.record]
  | append entry =>
    rw [act, current_ofSections, Group.record]
    rcases List.eq_nil_or_concat ss with rfl | ⟨ss, g, rfl⟩
    · rfl
    · rw [List.concat_eq_append, Group.appendLast_concat]
      simp [ofSections]

/-- The entries appended under a name are those of its sections. -/
theorem map_filter_appended (ss : List Group) (name : String) :
    ((ofSections ss).appended.filter (·.1 == name)).map (·.2) =
      (ss.filter (·.name == name)).flatMap (·.entries) := by
  induction ss with
  | nil => rfl
  | cons g ss ih =>
    show ((g.entries.map (g.name, ·) ++ (ofSections ss).appended).filter (·.1 == name)).map (·.2) = _
    rw [List.filter_append, List.map_append, ih, List.filter_map, List.map_map]
    by_cases h : (g.name == name) = true
    · have hall : g.entries.filter ((fun p : String × Entry => p.1 == name) ∘ (g.name, ·)) =
          g.entries := List.filter_eq_self.mpr fun _ _ => h
      rw [hall, List.filter_cons, if_pos h, List.flatMap_cons]
      exact congrArg (· ++ _) (List.map_id _)
    · have hnone : g.entries.filter ((fun p : String × Entry => p.1 == name) ∘ (g.name, ·)) = [] :=
        List.filter_eq_nil_iff.mpr fun _ _ => h
      rw [hnone, List.filter_cons, if_neg h]
      rfl

theorem group_ofSections (ss : List Group) (name : String) :
    (ofSections ss).group name = Group.gather name ss := by
  unfold group Group.gather
  rw [map_filter_appended, ofSections, List.find?_map, Option.map_map]
  rfl

/-- **The groups of a log are those of the sections.** -/
theorem groups_ofSections (ss : List Group) : (ofSections ss).groups = Group.gathered ss := by
  rw [groups, names_ofSections, Group.gathered]
  exact List.map_congr_left fun name _ => group_ofSections ss name

theorem mem_names_ofSections {ss : List Group} {p : String × Entry}
    (h : p ∈ (ofSections ss).appended) : p.1 ∈ (ofSections ss).names := by
  obtain ⟨g, hg, hp⟩ := List.mem_flatMap.mp h
  obtain ⟨e, -, rfl⟩ := List.mem_map.mp hp
  rw [names_ofSections, List.mem_eraseDups]
  exact List.mem_map.mpr ⟨g, hg, rfl⟩

/-! ### The number of the next line -/

/-- **The groups of a log have the entries appended**, no more and no fewer. -/
theorem perm_entries_groups (ss : List Group) :
    ((ofSections ss).groups.flatMap (·.entries)).Perm ((ofSections ss).appended.map (·.2)) := by
  have hentries : (ofSections ss).groups.flatMap (·.entries) =
      ((ofSections ss).names.flatMap fun name =>
        (ofSections ss).appended.filter (·.1 == name)).map (·.2) := by
    rw [groups, List.flatMap_map, List.map_flatMap]
    rfl
  rw [hentries]
  exact (perm_flatMap_filter (nodup_eraseDups _) fun _ => mem_names_ofSections).map _

theorem nextLine_ofSections (path : Path) (ss : List Group) :
    (Builder.ofSections path ss).nextLine = (ofSections ss).nextLine := by
  have hgroups : (Builder.ofSections path ss).unit.groups = (ofSections ss).groups :=
    (groups_ofSections ss).symm
  rw [Builder.nextLine, nextLine, hgroups, (perm_entries_groups ss).length_eq, List.length_map,
    groups, List.length_map]

end CallLog

/-! ### Builders -/

namespace Builder

/-- What a call does to a builder. -/
def call (b : Builder) : Call → Builder
  | .act action => action.apply b
  | .add group key text => b.add group key text

/-- The builder after some calls. -/
def calls (b : Builder) (cs : List Call) : Builder := cs.foldl call b

/-- The builder that holds the groups of a log. -/
def ofLog (path : Path) (log : CallLog) : Builder := ⟨⟨path, log.groups⟩, log.current⟩

theorem ofLog_ofSections (path : Path) (ss : List Group) :
    ofLog path (CallLog.ofSections ss) = ofSections path ss := by
  rw [ofLog, CallLog.groups_ofSections, CallLog.current_ofSections]
  rfl

/-- A call to a builder is logged under the sections that it writes. -/
theorem exists_call_ofSections (path : Path) (ss : List Group) (c : Call) : ∃ ts,
    (ofSections path ss).call c = ofSections path ts ∧
      (CallLog.ofSections ss).call c = CallLog.ofSections ts := by
  cases c with
  | act a =>
    exact ⟨Group.record ss a, apply_ofSections path ss a, CallLog.act_ofSections ss a⟩
  | add group key text =>
    let opened := ss ++ [⟨group, (CallLog.ofSections ss).nextLine, []⟩]
    let entry : Entry :=
      ⟨key, 0, ⟨key, text, ⟨(CallLog.ofSections opened).nextLine, key.length + 1⟩⟩⟩
    have hopen : (ofSections path ss).openGroup group (ofSections path ss).nextLine =
        ofSections path opened := by
      rw [CallLog.nextLine_ofSections]
      exact apply_ofSections path ss (.openGroup group (CallLog.ofSections ss).nextLine)
    refine ⟨Group.record opened (.append entry), ?_, ?_⟩
    · rw [call, add, hopen, CallLog.nextLine_ofSections]
      exact apply_ofSections path opened (.append entry)
    · rw [CallLog.call, CallLog.act_ofSections]
      exact CallLog.act_ofSections opened (.append entry)

theorem exists_sections (path : Path) (cs : List Call) : ∃ ss,
    (empty path).calls cs = ofSections path ss ∧ CallLog.ofCalls cs = CallLog.ofSections ss := by
  induction cs using List.reverseRecOn with
  | nil => exact ⟨[], rfl, rfl⟩
  | append_singleton cs c ih =>
    obtain ⟨ss, hbuilder, hlog⟩ := ih
    obtain ⟨ts, hcall, hcalled⟩ := exists_call_ofSections path ss c
    refine ⟨ts, ?_, ?_⟩
    · rw [calls, List.foldl_concat, ← calls, hbuilder, hcall]
    · rw [CallLog.ofCalls, List.foldl_concat, ← CallLog.ofCalls, hlog, hcalled]

/-- **A builder holds what its log says.** -/
theorem calls_empty (path : Path) (cs : List Call) :
    (empty path).calls cs = ofLog path (CallLog.ofCalls cs) := by
  obtain ⟨ss, hbuilder, hlog⟩ := exists_sections path cs
  rw [hbuilder, hlog, ofLog_ofSections]

end Builder

/-- An entry is appended under a name that was opened. -/
theorem CallLog.mem_names_of_mem_appended {cs : List Call} {p : String × Entry}
    (h : p ∈ (ofCalls cs).appended) : p.1 ∈ (ofCalls cs).names := by
  obtain ⟨ss, -, hlog⟩ := Builder.exists_sections ⟨""⟩ cs
  rw [hlog] at h ⊢
  exact mem_names_ofSections h

end UnitLint
