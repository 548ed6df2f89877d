import UnitLint.Proofs.UnitFile.Sections

/-! # The history of a builder

What a builder has been told is a list of actions, and these write sections one after another
(`record`). The file that a builder holds is known from its history alone: its groups are those that
the sections make up, and its current group is that of the last section (`run_empty`). -/

namespace UnitLint

/-- What a builder is told: to open a group, or to append an entry to the group opened last. -/
inductive Action where
  | openGroup (name : String) (line : Nat)
  | append (entry : Entry)
  deriving DecidableEq, Repr

namespace Group

/-- The sections with an entry at the end of the last one; a nameless one at line 0 if there is
none. -/
def appendLast (entry : Entry) : List Group → List Group
  | [] => [⟨"", 0, [entry]⟩]
  | [g] => [{ g with entries := g.entries ++ [entry] }]
  | g :: h :: gs => g :: appendLast entry (h :: gs)

theorem appendLast_append (entry : Entry) : ∀ (ss : List Group) {ts : List Group}, ts ≠ [] →
    appendLast entry (ss ++ ts) = ss ++ appendLast entry ts
  | [], _, _ => rfl
  | g :: ss, ts, h => by
    obtain ⟨k, ks, hk⟩ := List.exists_cons_of_ne_nil (List.append_ne_nil_of_right_ne_nil ss h)
    rw [List.cons_append, hk]
    show g :: appendLast entry (k :: ks) = g :: (ss ++ appendLast entry ts)
    rw [← hk, appendLast_append entry ss h]

theorem appendLast_concat (entry : Entry) (ss : List Group) (g : Group) :
    appendLast entry (ss ++ [g]) = ss ++ [{ g with entries := g.entries ++ [entry] }] :=
  appendLast_append entry ss (List.cons_ne_nil g [])

theorem appendLast_ne_nil (entry : Entry) : ∀ ss : List Group, appendLast entry ss ≠ []
  | [] => List.cons_ne_nil _ _
  | [_] => List.cons_ne_nil _ _
  | _ :: _ :: _ => List.cons_ne_nil _ _

/-- The sections after one more action. -/
def record (ss : List Group) : Action → List Group
  | .openGroup name line => ss ++ [⟨name, line, []⟩]
  | .append entry => appendLast entry ss

theorem record_append (ss : List Group) {ts : List Group} (h : ts ≠ []) (a : Action) :
    record (ss ++ ts) a = ss ++ record ts a := by
  cases a with
  | openGroup name line => exact List.append_assoc ss ts _
  | append entry => exact appendLast_append entry ss h

theorem record_ne_nil (ss : List Group) (a : Action) : record ss a ≠ [] := by
  cases a with
  | openGroup name line => exact List.append_ne_nil_of_right_ne_nil ss (List.cons_ne_nil _ _)
  | append entry => exact appendLast_ne_nil entry ss

/-- The actions on a section that is open do not touch those before it. -/
theorem foldl_record_append (ss : List Group) {ts : List Group} (h : ts ≠ [])
    (actions : List Action) :
    actions.foldl record (ss ++ ts) = ss ++ actions.foldl record ts := by
  induction actions generalizing ts with
  | nil => rfl
  | cons a actions ih =>
    rw [List.foldl_cons, List.foldl_cons, record_append ss h, ih (record_ne_nil ts a)]

/-- **A group that is opened starts sections of its own.** -/
theorem foldl_record_openGroup (ss : List Group) (name : String) (line : Nat)
    (actions : List Action) :
    (Action.openGroup name line :: actions).foldl record ss =
      ss ++ (Action.openGroup name line :: actions).foldl record [] := by
  rw [List.foldl_cons, List.foldl_cons]
  exact foldl_record_append ss (List.cons_ne_nil _ _) actions

/-- Entries appended one after another stand one after another. -/
theorem foldl_record_entries (ss : List Group) (g : Group) (es : List Entry) :
    (es.map Action.append).foldl record (ss ++ [g]) =
      ss ++ [{ g with entries := g.entries ++ es }] := by
  induction es generalizing g with
  | nil => rw [List.append_nil]; rfl
  | cons e es ih =>
    rw [List.map_cons, List.foldl_cons]
    show (es.map Action.append).foldl record (appendLast e (ss ++ [g])) = _
    rw [appendLast_concat, ih, List.append_assoc, List.singleton_append]

end Group

/-- The entries that an action appends. -/
def Action.entries : Action → List Entry
  | .openGroup _ _ => []
  | .append entry => [entry]

namespace Group

section Record

variable {β : Type} {f : Group → List β} {act : Action → List β}
  (hopen : ∀ name line, f ⟨name, line, []⟩ = act (.openGroup name line))
  (happend : ∀ (g : Group) e, f { g with entries := g.entries ++ [e] } = f g ++ act (.append e))
include hopen happend

/-- What an action adds to the last section is added to all of them. -/
theorem flatMap_record {ss : List Group} (h : ss ≠ []) (a : Action) :
    (record ss a).flatMap f = ss.flatMap f ++ act a := by
  obtain ⟨ss, g, rfl⟩ := (List.eq_nil_or_concat ss).resolve_left h
  rw [List.concat_eq_append]
  cases a with
  | openGroup name line =>
    show ((ss ++ [g]) ++ [Group.mk name line []]).flatMap f = _
    rw [List.flatMap_append, List.flatMap_singleton, hopen]
  | append e =>
    show (appendLast e (ss ++ [g])).flatMap f = _
    rw [appendLast_concat, List.flatMap_append, List.flatMap_append, List.flatMap_singleton,
      List.flatMap_singleton, happend, List.append_assoc]

/-- **What actions add section by section is what they add one after another.** -/
theorem flatMap_foldl_record {ss : List Group} (h : ss ≠ []) (actions : List Action) :
    (actions.foldl record ss).flatMap f = ss.flatMap f ++ actions.flatMap act := by
  induction actions generalizing ss with
  | nil => exact (List.append_nil _).symm
  | cons a actions ih =>
    rw [List.foldl_cons, ih (record_ne_nil ss a), flatMap_record hopen happend h,
      List.flatMap_cons, List.append_assoc]

end Record

/-! ### Groups and actions -/

/-- Opening a group adds a section without entries. -/
theorem gathered_openGroup (ss : List Group) (name : String) (line : Nat) :
    gathered (ss ++ [⟨name, line, []⟩]) = Builder.withGroup name line (gathered ss) := by
  have hentries : ∀ other, entriesIn [⟨name, line, []⟩] other = [] := by
    intro other
    rw [← gathered_singleton, entriesIn_gathered]
    by_cases h : other = name <;> simp [gather, h]
  have hmap : (gathered ss).map (fun g =>
      { g with entries := g.entries ++ entriesIn [⟨name, line, []⟩] g.name }) = gathered ss := by
    refine (List.map_congr_left fun g _ => ?_).trans (List.map_id _)
    rw [hentries, List.append_nil]
    rfl
  rw [gathered_append, gathered_singleton, join, hmap, Builder.withGroup]
  by_cases h : (gathered ss).any (·.name == name) = true
  · rw [if_pos h, List.filter_cons_of_neg (by simp [h]), List.filter_nil, List.append_nil]
  · rw [if_neg h, List.filter_cons_of_pos (by simpa using h), List.filter_nil]

/-- Appending to the last section appends to the group of its name. -/
theorem gathered_append_entry (ss : List Group) (g : Group) (entry : Entry) :
    gathered (ss ++ [{ g with entries := g.entries ++ [entry] }]) =
      Builder.withEntry g.name entry (gathered (ss ++ [g])) := by
  have hentries : ∀ other, entriesIn [{ g with entries := g.entries ++ [entry] }] other =
      entriesIn [g] other ++ if other = g.name then [entry] else [] := by
    intro other
    by_cases h : other = g.name
    · simp [entriesIn, h]
    · simp [entriesIn, h, Ne.symm h]
  rw [gathered_append, gathered_append, gathered_singleton, gathered_singleton, join, join,
    Builder.withEntry, List.map_append, List.map_map]
  congr 1
  · refine List.map_congr_left fun h _ => ?_
    rw [Function.comp_apply, hentries]
    by_cases hname : h.name = g.name
    · rw [if_pos hname, if_pos (by simpa using hname), List.append_assoc]
    · rw [if_neg hname, if_neg (by simpa using hname), List.append_nil]
  · by_cases h : (gathered ss).any (·.name == g.name) = true
    · rw [List.filter_cons_of_neg (by simp [h]), List.filter_cons_of_neg (by simp [h])]
      rfl
    · rw [List.filter_cons_of_pos (by simpa using h), List.filter_cons_of_pos (by simpa using h)]
      simp

end Group

/-! ### Builders -/

/-- What an action does to a builder. -/
def Action.apply (b : Builder) : Action → Builder
  | .openGroup name line => b.openGroup name line
  | .append entry => b.append entry

namespace Builder

/-- The builder after some actions. -/
def run (b : Builder) (actions : List Action) : Builder := actions.foldl Action.apply b

/-- The builder that holds the groups of some sections, the last of which is open. -/
def ofSections (path : Path) (ss : List Group) : Builder where
  unit := ⟨path, Group.gathered ss⟩
  current := ss.getLast?.map (·.name)

theorem apply_ofSections (path : Path) (ss : List Group) (a : Action) :
    a.apply (ofSections path ss) = ofSections path (Group.record ss a) := by
  cases a with
  | openGroup name line =>
    show (ofSections path ss).openGroup name line = ofSections path (ss ++ [⟨name, line, []⟩])
    unfold ofSections openGroup
    rw [Group.gathered_openGroup, List.getLast?_concat]
    rfl
  | append entry =>
    show (ofSections path ss).append entry = ofSections path (Group.appendLast entry ss)
    rcases List.eq_nil_or_concat ss with rfl | ⟨ss, g, rfl⟩
    · show _ = (⟨⟨path, Group.gathered [⟨"", 0, [entry]⟩]⟩, some ""⟩ : Builder)
      rw [Group.gathered_singleton]
      rfl
    · rw [List.concat_eq_append, Group.appendLast_concat, ofSections, ofSections,
        Group.gathered_append_entry]
      simp only [append, List.getLast?_concat, Option.map_some]

theorem run_ofSections (path : Path) (ss : List Group) (actions : List Action) :
    (ofSections path ss).run actions = ofSections path (actions.foldl Group.record ss) := by
  induction actions generalizing ss with
  | nil => rfl
  | cons a actions ih =>
    show (a.apply (ofSections path ss)).run actions = _
    rw [apply_ofSections, ih, List.foldl_cons]

/-- **A builder holds what its history writes.** -/
theorem run_empty (path : Path) (actions : List Action) :
    (empty path).run actions = ofSections path (actions.foldl Group.record []) :=
  run_ofSections path [] actions

theorem run_append (b : Builder) (first second : List Action) :
    b.run (first ++ second) = (b.run first).run second := List.foldl_append

end Builder

end UnitLint
