import Mathlib.Data.List.Flatten
import UnitLint.Proofs.UnitFile.Entry

/-! # What holds of a parsed file

The groups of a parsed file are those of its headers, each name once, and the line of a group is
that of its first header. The entries of a group come in the order of their lines, after that
header, and each takes up lines of its own (`spans_sections_ordered`), also where a later header
goes on with an earlier group. A key and a value are as the lines of the text leave them
(`wellFormed_of_parse`). -/

namespace UnitLint

open Text Statement

/-! ### Headers -/

/-- The name and line of the header that an action stands for, if any. -/
def Action.header : Action → List (String × Nat)
  | .openGroup name line => [(name, line)]
  | .append _ => []

/-- The name and line of a header. -/
def Statement.Located.header? (s : Located) : Option (String × Nat) :=
  match s.statement with
  | .header name => some (String.ofList name, s.line)
  | .entry _ _ _ | .unrecognized => none

theorem header_actions (s : Located) : s.actions.flatMap Action.header = s.header?.toList := by
  obtain ⟨line, indent, statement⟩ := s
  cases statement with
  | header name => rfl
  | entry left right more =>
    simp only [Located.actions]
    cases entry? line indent left (joinLines right more) <;> rfl
  | unrecognized => rfl

/-- The headers among statements are those of their sections. -/
theorem map_header_sections {ss : List Located} (h : HeaderFirst ss) :
    (sections ss).map (fun g => (g.name, g.line)) = ss.filterMap Located.header? := by
  have hheaders : (sections ss).flatMap (fun g => [(g.name, g.line)]) =
      (ss.flatMap Located.actions).flatMap Action.header :=
    flatMap_sections (fun _ _ => rfl) (fun _ _ => (List.append_nil _).symm) h
  rw [List.map_eq_flatMap, hheaders, List.flatMap_assoc, List.filterMap_eq_flatMap_toList]
  exact List.flatMap_congr fun s _ => header_actions s

theorem any_header?_eq (s : Located) (name : String) :
    (s.header?.any fun p => p.1 == name) = (s.statement == .header name.toList) := by
  obtain ⟨line, indent, statement⟩ := s
  cases statement with
  | header name' =>
    show (String.ofList name' == name) = (Statement.header name' == .header name.toList)
    rw [Bool.eq_iff_iff, beq_iff_eq, beq_iff_eq, Statement.header.injEq]
    constructor
    · rintro rfl
      exact String.toList_ofList.symm
    · rintro rfl
      exact String.ofList_toList
  | entry | unrecognized => rfl

/-- **The line of a group is that of its first header.** -/
theorem exists_first_header {path : Path} {text : String} {u : UnitFile}
    (h : parse path text = .ok u) {name : String} {g : Group} (hg : u.group? name = some g) :
    ∃ s, (ofText text.toList).find? (·.statement == .header name.toList) = some s ∧
      g.line = s.line := by
  obtain ⟨herrors, rfl⟩ := parse_eq_ok_iff.mp h
  have hheaders := map_header_sections (syntaxErrors_eq_nil_iff.mp herrors).2
  rw [UnitFile.group?, Group.find?_gathered] at hg
  split at hg
  · rename_i hname
    obtain rfl := Option.some.inj hg
    have hsome : ((sections (ofText text.toList)).find? (·.name == name)).isSome = true := by
      obtain ⟨k, hk, rfl⟩ := List.mem_map.mp hname
      exact List.find?_isSome.mpr ⟨k, hk, beq_self_eq_true _⟩
    obtain ⟨k, hk⟩ := Option.isSome_iff_exists.mp hsome
    have hfirst : ((sections (ofText text.toList)).map fun g => (g.name, g.line)).find?
        (·.1 == name) = some (k.name, k.line) := by
      rw [List.find?_map]
      exact congrArg (Option.map fun g => (g.name, g.line)) hk
    rw [hheaders, List.find?_filterMap] at hfirst
    obtain ⟨s, hs, hheader⟩ := Option.bind_eq_some_iff.mp hfirst
    simp only [any_header?_eq] at hs
    have hstatement : s.statement = .header name.toList := by simpa using List.find?_some hs
    refine ⟨s, hs, ?_⟩
    rw [Located.header?, hstatement] at hheader
    have hline := (Prod.mk.inj (Option.some.inj hheader)).2
    rw [hline, Group.gather, hk]
    rfl
  · cases hg

/-! ### Spans -/

/-- The first and the last line that an entry takes up. -/
def Entry.span (e : Entry) : Nat × Nat := (e.value.location.line, e.value.lastLine)

/-- The first and the last line that an action takes up. -/
def Action.span : Action → Nat × Nat
  | .openGroup _ line => (line, line)
  | .append e => e.span

/-- The first span ends before the second starts. -/
def SpanBefore (a b : Nat × Nat) : Prop := a.2 < b.1

namespace Group

/-- The lines that the header and the entries of a section take up. -/
def spans (g : Group) : List (Nat × Nat) := (g.line, g.line) :: g.entries.map Entry.span

/-- A group has its span before those of its entries, and these where its sections have them. -/
theorem spans_gather_sublist {name : String} {ss : List Group} (h : name ∈ ss.map (·.name)) :
    (gather name ss).spans.Sublist (ss.flatMap spans) := by
  have hne : ss.filter (·.name == name) ≠ [] := by
    obtain ⟨g, hg, rfl⟩ := List.mem_map.mp h
    exact List.ne_nil_of_mem (List.mem_filter.mpr ⟨hg, beq_self_eq_true _⟩)
  obtain ⟨g, gs, hfilter⟩ := List.exists_cons_of_ne_nil hne
  have hfirst : ss.find? (·.name == name) = some g := by
    rw [← List.head?_filter, hfilter]
    rfl
  have hspans : (gather name ss).spans =
      g.spans ++ gs.flatMap fun s => s.entries.map Entry.span := by
    unfold gather spans
    rw [hfirst, hfilter, List.flatMap_cons, List.map_append, List.map_flatMap]
    rfl
  have hrest : (gs.flatMap fun s => s.entries.map Entry.span).Sublist (gs.flatMap spans) :=
    List.Sublist.flatMap_right gs fun s _ => List.sublist_cons_self _ _
  have hall : (ss.filter (·.name == name)).flatMap spans = g.spans ++ gs.flatMap spans := by
    rw [hfilter, List.flatMap_cons]
  rw [hspans]
  exact (hall ▸ hrest.append_left g.spans).trans (List.filter_sublist.flatMap spans)

end Group

/-- A statement's action takes up the lines of the statement. -/
theorem span_of_mem_actions {text : List Char} {s : Located} (hs : s ∈ ofText text) {a : Action}
    (ha : a ∈ s.actions) : a.span = (s.line, s.lastLine) := by
  cases a with
  | openGroup name line =>
    obtain ⟨name', hname, -, rfl⟩ := openGroup_mem_actions_iff.mp ha
    rw [Action.span, Located.lastLine, hname]
    rfl
  | append e =>
    obtain ⟨_, _, _, _, _, -, hline, hlast⟩ := exists_standsIn hs ha
    rw [Action.span, Entry.span, hline, hlast]

theorem pairwise_actions (R : Action → Action → Prop) (s : Located) : s.actions.Pairwise R := by
  unfold Located.actions
  split
  · exact List.pairwise_singleton R _
  · split
    · exact List.pairwise_singleton R _
    · exact List.Pairwise.nil
  · exact List.Pairwise.nil

/-- **The headers and entries of a text take up lines one after another.** -/
theorem spans_sections_ordered {text : List Char} (h : HeaderFirst (ofText text)) :
    ((sections (ofText text)).flatMap Group.spans).Pairwise SpanBefore := by
  have hspans : (sections (ofText text)).flatMap Group.spans =
      ((ofText text).flatMap Located.actions).flatMap fun a => [a.span] :=
    flatMap_sections (fun _ _ => rfl) (fun g e => by simp [Group.spans, Action.span]) h
  rw [hspans, ← List.map_eq_flatMap, List.pairwise_map, List.pairwise_flatMap]
  refine ⟨fun s _ => pairwise_actions _ s, ?_⟩
  refine (ofText_ordered text).imp_of_mem fun {s t} hs ht hst a ha b hb => ?_
  rw [SpanBefore, span_of_mem_actions hs ha, span_of_mem_actions ht hb]
  exact hst

/-! ### What a parsed file is like -/

/-- An entry has a key, and a value that neither starts with a blank nor has one before the end of a
line; its lines end with backslashes, but for the last. -/
structure Entry.WellFormed (e : Entry) : Prop where
  key : IsKey e.key.toList
  valueKey : e.value.key = e.key
  text_ne : e.value.text ≠ ""
  text_head : ∀ c ∈ e.value.text.toList.head?, isBlank c = false
  line_feed : ∀ before after, e.value.text.toList = before ++ '\n' :: after →
    before.getLast? = some '\\'
  segments : ∀ s ∈ e.value.text.toList.splitOn '\n', ∀ c ∈ s.getLast?, isBlank c = false

/-- A group has a name, and its entries come one after another after its header. -/
structure Group.WellFormed (g : Group) : Prop where
  name_ne : g.name ≠ ""
  name_plain : ∀ c ∈ g.name.toList, c ≠ '[' ∧ c ≠ ']' ∧ isControl c = false
  ascending : (g.entries.map (·.value.location.line)).Pairwise (· < ·)
  header_lt : ∀ e ∈ g.entries, g.line < e.value.location.line
  entries : ∀ e ∈ g.entries, e.WellFormed

/-- The groups of a file are known by their names, and no two entries start on the same line. -/
structure UnitFile.WellFormed (u : UnitFile) : Prop where
  names : (u.groups.map (·.name)).Nodup
  group?_iff : ∀ name g, u.group? name = some g ↔ g ∈ u.groups ∧ g.name = name
  groups : ∀ g ∈ u.groups, g.WellFormed
  apart : ∀ g ∈ u.groups, ∀ h ∈ u.groups, ∀ e ∈ g.entries, ∀ f ∈ h.entries,
    e.value.location.line = f.value.location.line → g = h

theorem Entry.StandsIn.wellFormed {text : List Char} {before : List (List Char)} {l : List Char}
    {after : List (List Char)} {left right : List Char} {e : Entry}
    (h : e.StandsIn text before l after left right) : e.WellFormed := by
  have hplain := h.plain
  have hafter : ∀ l' ∈ after, '\n' ∉ l' := by
    intro l' hl'
    refine newline_notMem_of_mem_lines (s := text) ?_
    rw [h.lines_eq]
    exact List.mem_append_right before (List.mem_cons_of_mem l hl')
  refine ⟨?_, h.valueKey_eq, h.text_ne_empty, fun c hc => ?_, fun b a hba => ?_, fun s hs => ?_⟩
  · rw [h.key_eq, String.toList_ofList]
    exact isKey_of_sides? h.not_comment h.sides
  · rw [h.text_eq, joinLines, List.head?_append_of_ne_nil _ h.value_ne_nil] at hc
    exact not_isBlank_of_head?_trimStart hc
  · rw [h.text_eq] at hba
    exact getLast?_of_joinLines (hplain _ List.mem_cons_self) hafter hba
  · rw [h.text_eq, splitOn_joinLines hplain] at hs
    rcases List.mem_cons.mp hs with rfl | hs
    · intro c hc
      rw [getLast?_trimStart h.value_ne_nil] at hc
      exact not_isBlank_of_getLast?_trim (getLast?_of_sides? h.sides hc)
    · obtain ⟨taken, -, hmore⟩ := continuation_take (trimStart right) after
      rw [hmore] at hs
      obtain ⟨l', -, rfl⟩ := List.mem_map.mp hs
      exact fun c hc => not_isBlank_of_getLast?_trimEnd hc

namespace Group

theorem mem_gathered {ss : List Group} {g : Group} (h : g ∈ gathered ss) :
    g.name ∈ ss.map (·.name) ∧ g = gather g.name ss := by
  obtain ⟨name, hname, rfl⟩ := List.mem_map.mp h
  exact ⟨List.mem_eraseDups.mp hname, rfl⟩

/-- The groups of sections are found by their names. -/
theorem find?_gathered_iff {ss : List Group} {name : String} {g : Group} :
    (gathered ss).find? (·.name == name) = some g ↔ g ∈ gathered ss ∧ g.name = name := by
  constructor
  · intro h
    exact ⟨List.mem_of_find?_eq_some h, by simpa using List.find?_some h⟩
  · rintro ⟨hg, rfl⟩
    obtain ⟨hname, hgather⟩ := mem_gathered hg
    rw [find?_gathered, if_pos hname, ← hgather]

/-- No entry of the one starts on the line that an entry of the other starts on. -/
def Apart (g h : Group) : Prop := ∀ e ∈ g.entries, ∀ f ∈ h.entries,
  e.value.location.line ≠ f.value.location.line

instance : Std.Symm Apart where
  symm _ _ h e he f hf := (h f hf e he).symm

theorem pairwise_apart {ss : List Group} (hss : (ss.flatMap spans).Pairwise SpanBefore) :
    ss.Pairwise Apart := by
  refine (List.pairwise_flatMap.mp hss).2.imp fun {s t} h e he f hf => ?_
  have hbefore : e.value.lastLine < f.value.location.line :=
    h _ (List.mem_cons_of_mem _ (List.mem_map_of_mem he)) _
      (List.mem_cons_of_mem _ (List.mem_map_of_mem hf))
  have : e.value.location.line ≤ e.value.lastLine := Nat.le_add_right _ _
  omega

/-- Entries of different groups start on different lines. -/
theorem eq_of_line_eq {ss : List Group} (hss : (ss.flatMap spans).Pairwise SpanBefore) {g h : Group}
    (hg : g ∈ gathered ss) (hh : h ∈ gathered ss) {e f : Entry} (he : e ∈ g.entries)
    (hf : f ∈ h.entries) (hline : e.value.location.line = f.value.location.line) : g = h := by
  obtain ⟨name, -, rfl⟩ := List.mem_map.mp hg
  obtain ⟨name', -, rfl⟩ := List.mem_map.mp hh
  obtain ⟨s, hs, he⟩ := List.mem_flatMap.mp he
  obtain ⟨t, ht, hf⟩ := List.mem_flatMap.mp hf
  obtain ⟨hs, hname⟩ := List.mem_filter.mp hs
  obtain ⟨ht, hname'⟩ := List.mem_filter.mp ht
  have hst : s = t := by
    by_contra hne
    exact (pairwise_apart hss).forall hs ht hne e he f hf hline
  rw [beq_iff_eq] at hname hname'
  rw [← hname, ← hname', hst]

end Group

theorem plain_of_invalidNameIndex? {name : List Char} (h : invalidNameIndex? name = none) :
    name ≠ [] ∧ ∀ c ∈ name, c ≠ '[' ∧ c ≠ ']' ∧ isControl c = false := by
  unfold invalidNameIndex? at h
  split at h
  · cases h
  · rename_i hne
    refine ⟨by simpa using hne, fun c hc => ?_⟩
    have := List.findIdx?_eq_none_iff.mp h c hc
    simpa [and_assoc] using this

/-- The header and the entries of a group take up lines one after another. -/
theorem spans_ordered_of_parse {path : Path} {text : String} {u : UnitFile}
    (h : parse path text = .ok u) {g : Group} (hg : g ∈ u.groups) :
    g.spans.Pairwise SpanBefore := by
  obtain ⟨herrors, rfl⟩ := parse_eq_ok_iff.mp h
  obtain ⟨hname, hgather⟩ := Group.mem_gathered hg
  rw [hgather]
  exact (spans_sections_ordered (syntaxErrors_eq_nil_iff.mp herrors).2).sublist
    (Group.spans_gather_sublist hname)

/-- **What a parsed file is like.** -/
theorem wellFormed_of_parse {path : Path} {text : String} {u : UnitFile}
    (h : parse path text = .ok u) : u.WellFormed := by
  have hentries : ∀ g ∈ u.groups, ∀ e ∈ g.entries, e.WellFormed := by
    intro g hg e he
    obtain ⟨s, hs, happend⟩ := exists_append_of_mem h hg he
    obtain ⟨_, _, _, _, _, hstands, -⟩ := exists_standsIn hs happend
    exact hstands.wellFormed
  have hordered : ∀ g ∈ u.groups, g.spans.Pairwise SpanBefore := fun g hg =>
    spans_ordered_of_parse h hg
  obtain ⟨herrors, rfl⟩ := parse_eq_ok_iff.mp h
  obtain ⟨hvalid, hfirst⟩ := syntaxErrors_eq_nil_iff.mp herrors
  refine ⟨?_, fun _ _ => Group.find?_gathered_iff, fun g hg => ?_, fun g hg h hh e he f hf =>
    Group.eq_of_line_eq (spans_sections_ordered hfirst) hg hh he hf⟩
  · show ((Group.gathered (sections (ofText text.toList))).map (·.name)).Nodup
    rw [Group.gathered, List.map_map]
    exact (List.map_id _).symm ▸ nodup_eraseDups _
  · obtain ⟨s, hs, -⟩ := exists_first_header h (Group.find?_gathered_iff.mpr ⟨hg, rfl⟩)
    have hstatement : s.statement = .header g.name.toList := by
      simpa using List.find?_some hs
    have hplain : invalidNameIndex? g.name.toList = none := by
      have := hvalid s (List.mem_of_find?_eq_some hs)
      rwa [Located.Valid, hstatement] at this
    obtain ⟨hne, hplain⟩ := plain_of_invalidNameIndex? hplain
    obtain ⟨hheader, hentriesOrdered⟩ := List.pairwise_cons.mp (hordered g hg)
    refine ⟨fun hempty => hne (by rw [hempty]; rfl), hplain, ?_, ?_, hentries g hg⟩
    · rw [List.pairwise_map] at hentriesOrdered ⊢
      refine hentriesOrdered.imp fun {e f} hef => ?_
      exact Nat.lt_of_le_of_lt (Nat.le_add_right _ _) hef
    · intro e he
      exact hheader _ (List.mem_map_of_mem he)

end UnitLint
