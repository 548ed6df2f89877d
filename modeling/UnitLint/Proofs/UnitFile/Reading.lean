import UnitLint.Proofs.UnitFile.History
import UnitLint.Proofs.UnitFile.Statement
import UnitLint.UnitFile.Parser

/-! # What statements tell a builder

A statement tells a builder at most one action, whatever the builder holds (`actions`); only the
error of a statement depends on the builder, and only on its current group (`read_cases`). So a text
without errors has the groups of the sections that its statements write (`parse_eq_ok_iff`), and
reading that is not aborted goes on with what follows (`readAll_append`). -/

namespace UnitLint

open Statement

/-! ### Lines further down -/

/-- The entry, `n` lines further down. -/
def Entry.shift (n : Nat) (e : Entry) : Entry :=
  { e with value := { e.value with location := ⟨e.value.location.line + n,
      e.value.location.column⟩ } }

/-- The group, `n` lines further down. -/
def Group.shift (n : Nat) (g : Group) : Group :=
  { g with line := g.line + n, entries := g.entries.map (Entry.shift n) }

/-- The error, `n` lines further down. -/
def ParseError.shift (n : Nat) (e : ParseError) : ParseError :=
  { e with location := ⟨e.location.line + n, e.location.column⟩ }

/-- The action on lines `n` further down. -/
def Action.shift (n : Nat) : Action → Action
  | .openGroup name line => .openGroup name (line + n)
  | .append e => .append (e.shift n)

/-! ### Keys -/

theorem Statement.IsKey.invalidKeyIndex?_eq_none {key : List Char} (h : IsKey key) :
    invalidKeyIndex? key = none := by
  have hhead : key.head? ≠ some ' ' := fun hspace => absurd (h.head _ hspace).1 (by decide)
  have hlast : key.getLast? ≠ some ' ' := fun hspace => absurd (h.last _ hspace) (by decide)
  have hequals : key.contains '=' = false := by simpa using h.no_equals
  unfold invalidKeyIndex?
  rw [if_neg (by simpa using h.ne_nil), if_neg (by rw [hequals]; simp),
    if_neg (by simpa using hhead), if_neg (by simpa using hlast)]

/-! ### Statements and actions -/

namespace Statement

/-- The action that a statement tells a builder, if any. -/
def Located.actions (s : Located) : List Action :=
  match s.statement with
  | .header name => [.openGroup (String.ofList name) s.line]
  | .entry left right more =>
    match entry? s.line s.indent left (joinLines right more) with
    | .ok e => [.append e]
    | .error _ => []
  | .unrecognized => []

theorem append_mem_actions_iff {s : Located} {e : Entry} : .append e ∈ s.actions ↔
    ∃ left right more, s.statement = .entry left right more ∧
      entry? s.line s.indent left (joinLines right more) = .ok e := by
  obtain ⟨line, indent, statement⟩ := s
  cases statement with
  | header name => simp [Located.actions]
  | entry left right more =>
    simp only [Located.actions]
    constructor
    · intro h
      refine ⟨left, right, more, rfl, ?_⟩
      cases hentry : entry? line indent left (joinLines right more) with
      | ok e' => rw [hentry] at h; cases List.mem_singleton.mp h; rfl
      | error fault => rw [hentry] at h; cases h
    · rintro ⟨left', right', more', heq, hentry⟩
      cases heq
      rw [hentry]
      exact List.mem_singleton.mpr rfl
  | unrecognized => simp [Located.actions]

theorem openGroup_mem_actions_iff {s : Located} {name : String} {line : Nat} :
    .openGroup name line ∈ s.actions ↔
      ∃ name', s.statement = .header name' ∧ name = String.ofList name' ∧ line = s.line := by
  obtain ⟨line', indent, statement⟩ := s
  cases statement with
  | header name' => simp [Located.actions]
  | entry left right more =>
    simp only [Located.actions]
    cases entry? line' indent left (joinLines right more) <;> simp
  | unrecognized => simp [Located.actions]

/-- The sections that statements write. -/
def sections (ss : List Located) : List Group :=
  (ss.flatMap Located.actions).foldl Group.record []

theorem entry?_add (n line column : Nat) (left right : List Char) :
    entry? (line + n) column left right =
      ( entry? line column left right).map (Entry.shift n) := by
  unfold entry?
  dsimp only
  split
  · rfl
  · split <;> rfl

theorem actions_shift (n : Nat) (s : Located) :
    (s.shift n).actions = s.actions.map (Action.shift n) := by
  obtain ⟨line, indent, statement⟩ := s
  cases statement with
  | header name => rfl
  | entry left right more =>
    simp only [Located.actions, Located.shift, entry?_add]
    cases entry? line indent left (joinLines right more) <;> rfl
  | unrecognized => rfl

/-- The statements, if any, start with a header. -/
def HeaderFirst (ss : List Located) : Prop := ∀ s ∈ ss.head?, ∃ name, s.statement = .header name

/-- A header starts sections of its own. -/
theorem sections_append (ss : List Located) {ts : List Located} (h : HeaderFirst ts) :
    sections (ss ++ ts) = sections ss ++ sections ts := by
  unfold sections
  rw [List.flatMap_append, List.foldl_append]
  rcases ts with _ | ⟨t, ts⟩
  · exact (List.append_nil _).symm
  · obtain ⟨name, hname⟩ := h t rfl
    have hactions : t.actions = [.openGroup (String.ofList name) t.line] := by
      rw [Located.actions, hname]
    rw [List.flatMap_cons, hactions, List.singleton_append]
    exact Group.foldl_record_openGroup _ _ _ _

/-- **What the sections of statements hold is what the statements tell**, one after another. -/
theorem flatMap_sections {β : Type} {f : Group → List β} {act : Action → List β}
    (hopen : ∀ name line, f ⟨name, line, []⟩ = act (.openGroup name line))
    (happend : ∀ (g : Group) e, f { g with entries := g.entries ++ [e] } = f g ++ act (.append e))
    {ss : List Located} (h : HeaderFirst ss) :
    (sections ss).flatMap f = (ss.flatMap Located.actions).flatMap act := by
  rcases ss with _ | ⟨s, ss⟩
  · rfl
  · obtain ⟨name, hname⟩ := h s rfl
    have hactions : s.actions = [.openGroup (String.ofList name) s.line] := by
      rw [Located.actions, hname]
    rw [sections, List.flatMap_cons, hactions, List.singleton_append, List.foldl_cons,
      List.flatMap_cons]
    show (List.foldl Group.record [⟨String.ofList name, s.line, []⟩] _).flatMap f = _
    rw [Group.flatMap_foldl_record hopen happend (List.cons_ne_nil _ _), List.flatMap_singleton,
      hopen]

/-- Nothing is wrong with the statement itself. -/
def Located.Valid (s : Located) : Prop :=
  match s.statement with
  | .header name => invalidNameIndex? name = none
  | .entry left right more => ∃ e, entry? s.line s.indent left (joinLines right more) = .ok e
  | .unrecognized => False

end Statement

namespace Builder

/-- The current group after some actions depends on no other part of the builder. -/
theorem current_run_shift (n : Nat) {b b' : Builder} (h : b.current = b'.current)
    (actions : List Action) :
    (b.run actions).current = (b'.run (actions.map (Action.shift n))).current := by
  induction actions generalizing b b' with
  | nil => exact h
  | cons a actions ih =>
    refine ih ?_
    cases a with
    | openGroup name line => rfl
    | append e =>
      show (b.append e).current = (b'.append (e.shift n)).current
      unfold append
      rw [← h]
      cases b.current <;> rfl

/-- **Reading one statement**: either an entry has no group, and reading is aborted, or the builder
does the statement's action. Two builders with the same current group read it alike, wherever the
lines are counted from. -/
theorem read_cases (n : Nat) {b b' : Builder} (h : b.current = b'.current) (s : Located) :
    (∃ e, e.fault = .missingGroup ∧ b.read s = .abort e ∧
      b'.read (s.shift n) = .abort (e.shift n)) ∨
    ∃ e, b.read s = .next e (b.run s.actions) ∧
      b'.read (s.shift n) = .next (e.map (ParseError.shift n)) (b'.run (s.shift n).actions) := by
  rw [actions_shift]
  obtain ⟨line, indent, statement⟩ := s
  cases statement with
  | header name =>
    refine Or.inr ?_
    simp only [read, readHeader, Located.shift, Located.actions]
    cases invalidNameIndex? name with
    | none => exact ⟨none, rfl, rfl⟩
    | some i => exact ⟨some _, rfl, rfl⟩
  | entry left right more =>
    simp only [read, readEntry, Located.shift, Located.actions, ← h, entry?_add]
    cases b.current with
    | none => exact Or.inl ⟨_, rfl, rfl, rfl⟩
    | some group =>
      refine Or.inr ?_
      cases entry? line indent left (joinLines right more) with
      | ok e => exact ⟨none, rfl, rfl⟩
      | error fault => exact ⟨some _, rfl, rfl⟩
  | unrecognized =>
    refine Or.inr ⟨some ⟨⟨line, indent⟩, b.current, none, .unrecognizedLine⟩, rfl, ?_⟩
    simp only [read, Located.shift, h]
    rfl

/-- A header is read alike by all builders. -/
theorem read_header (n : Nat) (b b' : Builder) {s : Located} {name : List Char}
    (h : s.statement = .header name) :
    ∃ e, b.read s = .next e (b.run s.actions) ∧
      b'.read (s.shift n) = .next (e.map (ParseError.shift n)) (b'.run (s.shift n).actions) := by
  obtain ⟨line, indent, statement⟩ := s
  obtain rfl : statement = .header name := h
  simp only [read, readHeader, Located.shift, Located.actions]
  cases invalidNameIndex? name with
  | none => exact ⟨none, rfl, rfl⟩
  | some i => exact ⟨some _, rfl, rfl⟩

theorem readAll_cons_next {b b' : Builder} {s : Located} {e : Option ParseError}
    (h : b.read s = .next e b') (rest : List Located) :
    b.readAll (s :: rest) = (e.toList ++ (b'.readAll rest).1, (b'.readAll rest).2) := by
  rw [readAll, h]

theorem readAll_cons_abort {b : Builder} {s : Located} {e : ParseError}
    (h : b.read s = .abort e) (rest : List Located) : b.readAll (s :: rest) = ([e], b) := by
  rw [readAll, h]

/-- Whether reading went on to the end. -/
def Completes (errors : List ParseError) : Prop := ∀ e ∈ errors, e.fault ≠ .missingGroup

theorem Completes.of_append {es es' : List ParseError} (h : Completes (es ++ es')) :
    Completes es' := fun e he => h e (List.mem_append_right es he)

/-- Builders with the same current group report the same errors, wherever the lines are counted
from. -/
theorem errors_readAll_shift (n : Nat) {b b' : Builder} (h : b.current = b'.current)
    (ss : List Located) : (b'.readAll (ss.map (Located.shift n))).1 =
      (b.readAll ss).1.map (ParseError.shift n) := by
  induction ss generalizing b b' with
  | nil => rfl
  | cons s ss ih =>
    rcases read_cases n h s with ⟨e, -, hb, hb'⟩ | ⟨e, hb, hb'⟩
    · rw [List.map_cons, readAll_cons_abort hb, readAll_cons_abort hb']
      rfl
    · have hcurrent : (b.run s.actions).current = (b'.run (s.shift n).actions).current := by
        rw [actions_shift]
        exact current_run_shift n h s.actions
      rw [List.map_cons, readAll_cons_next hb, readAll_cons_next hb', ih hcurrent]
      cases e <;> simp

/-- **Statements that start with a header are read alike by all builders.** -/
theorem errors_readAll_header (n : Nat) (b b' : Builder) {ss : List Located} (h : HeaderFirst ss) :
    (b'.readAll (ss.map (Located.shift n))).1 = (b.readAll ss).1.map (ParseError.shift n) := by
  rcases ss with _ | ⟨s, ss⟩
  · rfl
  · obtain ⟨name, hname⟩ := h s rfl
    obtain ⟨e, hb, hb'⟩ := read_header n b b' hname
    have hcurrent : (b.run s.actions).current = (b'.run (s.shift n).actions).current := by
      simp only [Located.actions, Located.shift, hname]
      rfl
    rw [List.map_cons, readAll_cons_next hb, readAll_cons_next hb',
      errors_readAll_shift n hcurrent]
    cases e <;> simp

/-- **Reading that is not aborted goes on with what follows.** -/
theorem readAll_append {b : Builder} {ss : List Located} (h : Completes (b.readAll ss).1)
    (ts : List Located) : b.readAll (ss ++ ts) =
      ((b.readAll ss).1 ++ ((b.run (ss.flatMap Located.actions)).readAll ts).1,
        ((b.run (ss.flatMap Located.actions)).readAll ts).2) := by
  induction ss generalizing b with
  | nil => rfl
  | cons s ss ih =>
    rcases read_cases 0 (rfl : b.current = b.current) s with ⟨e, he, hb, -⟩ | ⟨e, hb, -⟩
    · rw [readAll_cons_abort hb] at h
      exact absurd he (h e List.mem_cons_self)
    · rw [readAll_cons_next hb] at h
      rw [List.cons_append, readAll_cons_next hb, readAll_cons_next hb, ih h.of_append,
        List.flatMap_cons, run_append, List.append_assoc]

/-- A builder that is not stopped does every action. -/
theorem readAll_run {b : Builder} {ss : List Located} (h : Completes (b.readAll ss).1) :
    (b.readAll ss).2 = b.run (ss.flatMap Located.actions) := by
  have := readAll_append h []
  rw [List.append_nil] at this
  rw [this]
  rfl

/-- **Statements are read without error** if nothing is wrong with them, and no entry comes before
the first header. -/
theorem errors_readAll_eq_nil_iff {b : Builder} {ss : List Located} :
    (b.readAll ss).1 = [] ↔ (∀ s ∈ ss, s.Valid) ∧ (b.current = none → HeaderFirst ss) := by
  induction ss generalizing b with
  | nil => simp [readAll, HeaderFirst]
  | cons s ss ih =>
    obtain ⟨line, indent, statement⟩ := s
    cases statement with
    | header name =>
      have hcurrent : (b.openGroup (String.ofList name) line).current ≠ none := by simp [openGroup]
      rw [readAll]
      cases hname : invalidNameIndex? name <;>
        simp [read, readHeader, hname, ih, hcurrent, Located.Valid, HeaderFirst]
    | entry left right more =>
      rw [readAll]
      cases hb : b.current with
      | none => simp [read, readEntry, hb, HeaderFirst]
      | some group =>
        have hcurrent : ∀ e, (b.append e).current ≠ none := by simp [append, hb]
        cases he : entry? line indent left (joinLines right more) <;>
          simp [read, readEntry, hb, he, ih, hcurrent, Located.Valid]
    | unrecognized => simp [readAll, read, Located.Valid]

end Builder

/-! ### Texts -/

/-- The errors of a text, none if it is a unit file. -/
def syntaxErrors (path : Path) (text : String) : List ParseError :=
  match parse path text with
  | .ok _ => []
  | .error errors => errors

theorem syntaxErrors_eq (path : Path) (text : String) :
    syntaxErrors path text = ((Builder.empty path).readAll (ofText text.toList)).1 := by
  unfold syntaxErrors parse
  rcases (Builder.empty path).readAll (ofText text.toList) with ⟨_ | ⟨e, es⟩, b⟩ <;> rfl

theorem syntaxErrors_eq_nil_iff {path : Path} {text : String} :
    syntaxErrors path text = [] ↔
      (∀ s ∈ ofText text.toList, s.Valid) ∧ HeaderFirst (ofText text.toList) := by
  rw [syntaxErrors_eq, Builder.errors_readAll_eq_nil_iff]
  simp [Builder.empty]

/-- The errors of a text are the same at every path. -/
theorem syntaxErrors_congr (path path' : Path) (text : String) :
    syntaxErrors path text = syntaxErrors path' text := by
  have hcurrent : (Builder.empty path').current = (Builder.empty path).current := rfl
  have h := Builder.errors_readAll_shift 0 hcurrent (ofText text.toList)
  have hplace : Located.shift 0 = id := rfl
  have herror : ParseError.shift 0 = id := rfl
  rw [hplace, herror, List.map_id, List.map_id] at h
  rw [syntaxErrors_eq, syntaxErrors_eq, h]

/-- **The outcome of parsing**: the errors, or the groups of the sections that the text is written
in. -/
theorem parse_eq (path : Path) (text : String) : parse path text =
    match syntaxErrors path text with
    | [] => .ok ⟨path, Group.gathered (sections (ofText text.toList))⟩
    | errors => .error errors := by
  have hrun : Builder.Completes ((Builder.empty path).readAll (ofText text.toList)).1 →
      ((Builder.empty path).readAll (ofText text.toList)).2.unit =
        ⟨path, Group.gathered (sections (ofText text.toList))⟩ := by
    intro h
    rw [Builder.readAll_run h, Builder.run_empty]
    rfl
  rw [syntaxErrors_eq]
  unfold parse
  revert hrun
  rcases (Builder.empty path).readAll (ofText text.toList) with ⟨_ | ⟨e, es⟩, b⟩
  · intro hrun
    exact congrArg Except.ok (hrun fun e he => absurd he List.not_mem_nil)
  · intro _
    rfl

theorem parse_eq_ok_iff {path : Path} {text : String} {u : UnitFile} :
    parse path text = .ok u ↔ syntaxErrors path text = [] ∧
      u = ⟨path, Group.gathered (sections (ofText text.toList))⟩ := by
  rw [parse_eq]
  rcases syntaxErrors path text with _ | ⟨e, es⟩
  · simp only [true_and, Except.ok.injEq]
    exact eq_comm
  · simp

theorem parse_eq_error_iff {path : Path} {text : String} {errors : List ParseError} :
    parse path text = .error errors ↔
      syntaxErrors path text ≠ [] ∧ errors = syntaxErrors path text := by
  rw [parse_eq]
  rcases syntaxErrors path text with _ | ⟨e, es⟩
  · simp
  · simp only [Except.error.injEq, ne_eq, reduceCtorEq, not_false_eq_true, true_and]
    exact eq_comm

/-- Every entry of a unit file is appended by a statement of its text. -/
theorem exists_append_of_mem {path : Path} {text : String} {u : UnitFile}
    (h : parse path text = .ok u) {g : Group} (hg : g ∈ u.groups) {e : Entry}
    (he : e ∈ g.entries) : ∃ s ∈ ofText text.toList, .append e ∈ s.actions := by
  obtain ⟨herrors, rfl⟩ := parse_eq_ok_iff.mp h
  have hmem := Group.mem_entries_of_gathered hg he
  have hentries : (sections (ofText text.toList)).flatMap Group.entries =
      ((ofText text.toList).flatMap Located.actions).flatMap Action.entries :=
    flatMap_sections (fun _ _ => rfl) (fun _ _ => rfl) (syntaxErrors_eq_nil_iff.mp herrors).2
  rw [hentries] at hmem
  obtain ⟨a, ha, hea⟩ := List.mem_flatMap.mp hmem
  obtain ⟨s, hs, has⟩ := List.mem_flatMap.mp ha
  cases a with
  | openGroup name line => cases hea
  | append e' =>
    obtain rfl := List.mem_singleton.mp hea
    exact ⟨s, hs, has⟩

end UnitLint
