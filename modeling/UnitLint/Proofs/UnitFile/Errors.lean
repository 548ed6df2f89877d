import UnitLint.Proofs.UnitFile.Entry

/-! # Syntax errors and their places

The errors of a text come in the order of its lines, at most one for a statement, and each points
into the line that its statement starts on (`exists_pointsInto`): at the start of the line, at what
is wrong with the name of a group, or after the equals sign that nothing follows. No error is about
a key, since what comes before an equals sign is one (`isKey_of_sides?`). Only the first entry can
lack a group, and then it is the last that is read (`missingGroup_readAll_iff`). -/

namespace UnitLint

open Text Statement

/-! ### Places -/

/-- The index and the character of what is wrong with the name of a group: what no name has, or the
bracket that closes an empty name. -/
def NameFaultAt (name : List Char) (i : Nat) (c : Char) : Prop :=
  if name = [] then i = 0 ∧ c = ']'
  else name[i]? = some c ∧ (c = '[' ∨ isControl c = true) ∧
    ∀ d ∈ name.take i, d ≠ '[' ∧ isControl d = false

/-- The line is a header of the name, and the column has what is wrong with it. -/
def HeaderFaultAt (l name : List Char) (column : Nat) : Prop :=
  ∃ start tail i c, StartsAt l start ∧ l.drop start = '[' :: (name ++ ']' :: tail) ∧ ']' ∉ name ∧
    NameFaultAt name i c ∧ column = start + 1 + i ∧ l[column]? = some c

/-- The line ends, but for blanks, with its first equals sign; the key is before it, and the column
after it. -/
def ValueMissingAt (l key : List Char) (column : Nat) : Prop :=
  ∃ left, trimEnd l = left ++ ['='] ∧ '=' ∉ left ∧ key = trim left ∧ column = left.length + 1

/-- The error points to what is wrong in the line. -/
def ParseError.PointsInto (l : List Char) (e : ParseError) : Prop :=
  match e.fault with
  | .missingGroup | .unrecognizedLine => StartsAt l e.location.column
  | .invalidGroupName name => HeaderFaultAt l name.toList e.location.column
  | .emptyValue key => ValueMissingAt l key.toList e.location.column
  | .invalidKey _ => False

theorem nameFaultAt_of_invalidNameIndex? {name : List Char} (tail : List Char) {i : Nat}
    (hname : ']' ∉ name) (h : invalidNameIndex? name = some i) :
    ∃ c, NameFaultAt name i c ∧ (name ++ ']' :: tail)[i]? = some c := by
  unfold invalidNameIndex? at h
  unfold NameFaultAt
  split at h
  · rename_i hempty
    obtain rfl : name = [] := by simpa using hempty
    obtain rfl := Option.some.inj h
    exact ⟨']', by simp⟩
  · rename_i hne
    have hne' : name ≠ [] := by simpa using hne
    obtain ⟨hi, hbad, hbefore⟩ := List.findIdx?_eq_some_iff_getElem.mp h
    have hnot : ∀ d ∈ name, d ≠ ']' := by
      rintro d hd rfl
      exact hname hd
    refine ⟨name[i], ?_, ?_⟩
    · rw [if_neg hne']
      refine ⟨List.getElem?_eq_getElem hi, ?_, fun d hd => ?_⟩
      · have := hnot _ (List.getElem_mem hi)
        simpa [this] using hbad
      · obtain ⟨j, hj, rfl⟩ := List.mem_take_iff_getElem.mp hd
        have := hbefore j (by omega)
        simp only [Bool.or_eq_true, beq_iff_eq, not_or, Bool.not_eq_true] at this
        exact ⟨this.1.1, this.2⟩
    · rw [List.getElem?_append_left hi]
      exact List.getElem?_eq_getElem hi

/-- **What is wrong with a name is found in the line of its header**, after the bracket. -/
theorem headerFaultAt_of_headerName? {l name : List Char} {i : Nat} (hl : trimStart l ≠ [])
    (h : headerName? (trim l) = some name) (hi : invalidNameIndex? name = some i) :
    HeaderFaultAt l name (indent l + 1 + i) := by
  obtain ⟨tail, hline, hbracket⟩ := eq_of_headerName? h
  obtain ⟨rest, hrest⟩ := trim_prefix_drop_indent l
  obtain ⟨c, hfault, hc⟩ := nameFaultAt_of_invalidNameIndex? (tail ++ rest) hbracket hi
  have hdrop : l.drop (indent l) = '[' :: (name ++ ']' :: (tail ++ rest)) := by
    rw [← hrest, hline]
    simp
  refine ⟨indent l, tail ++ rest, i, c, startsAt_indent hl, hdrop, hbracket, hfault, rfl, ?_⟩
  rw [Nat.add_assoc, ← List.getElem?_drop, hdrop, Nat.add_comm, List.getElem?_cons_succ]
  exact hc

/-! ### Entries that are none -/

/-- A value that is missing on its lines leaves nothing after the equals sign. -/
theorem right_eq_nil {l left right : List Char} {more : List (List Char)}
    (hsides : sides? (trim l) = some (left, right)) (h : trimStart (joinLines right more) = []) :
    right = [] := by
  have hblank : trimStart right = [] := by
    by_contra hne
    rw [joinLines, trimStart_append _ hne] at h
    exact hne (List.append_eq_nil_iff.mp h).1
  by_contra hne
  obtain ⟨c, hc⟩ := Option.isSome_iff_exists.mp (List.getLast?_isSome.mpr hne)
  have := trimStart_eq_nil_iff.mp hblank c (List.mem_of_getLast? hc)
  rw [not_isBlank_of_getLast?_trim (getLast?_of_sides? hsides hc)] at this
  cases this

/-- **What keeps an entry from being one is that its value is missing.** -/
theorem eq_of_entry?_error {l left right : List Char} {line : Nat} {following : List (List Char)}
    {fault : SyntaxFault} {column : Nat} (hc : isComment (trim l) = false)
    (hsides : sides? (trim l) = some (left, right))
    (h : entry? line (indent l) left (joinLines right (continuation right following).1) =
      .error (fault, column)) :
    ∃ key, fault = .emptyValue key ∧ ValueMissingAt l key.toList column := by
  obtain ⟨hline, hne, hequals⟩ := eq_of_sides? hsides
  have htrim : trim l ≠ [] := by rw [hline]; simp
  unfold entry? at h
  dsimp only at h
  rw [(isKey_of_sides? hc hsides).invalidKeyIndex?_eq_none] at h
  dsimp only at h
  split at h
  · rename_i hempty
    obtain rfl := right_eq_nil hsides (by simpa using hempty)
    obtain ⟨rfl, rfl⟩ := Prod.mk.inj (Except.error.inj h)
    obtain ⟨blanks, hl, hindent, hblanks⟩ := exists_trimEnd_eq htrim
    have hhead : ∀ c ∈ left.head?, isBlank c = false := by
      intro c hc
      refine not_isBlank_of_head?_trim (s := l) ?_
      rw [hline, List.head?_append, hc]
      rfl
    have hplain : '=' ∉ blanks := fun hmem => absurd (hblanks _ hmem) (by decide)
    refine ⟨_, rfl, blanks ++ left, ?_, by simp [hplain, hequals], ?_, ?_⟩
    · rw [hl, hline, List.append_assoc]
    · rw [String.toList_ofList, trim_blanks_append hblanks, trim, trimStart_eq_self hhead]
    · rw [continuation_of_not_continued rfl, List.length_append, hindent]
      rfl
  · cases h

theorem fault_of_entry? {line column place : Nat} {left right : List Char} {fault : SyntaxFault}
    (h : entry? line column left right = .error (fault, place)) : fault ≠ .missingGroup := by
  unfold entry? at h
  dsimp only at h
  split at h
  · cases h
    exact SyntaxFault.noConfusion
  · split at h <;> cases h
    exact SyntaxFault.noConfusion

/-! ### One statement -/

/-- The error that an effect reports. -/
def Effect.error? : Effect → Option ParseError
  | .next error _ => error
  | .abort error => some error

namespace Builder

variable {b : Builder} {s : Located} {e : ParseError}

theorem line_of_read (h : (b.read s).error? = some e) : e.location.line = s.line := by
  unfold read at h
  split at h
  · unfold readHeader at h
    dsimp only at h
    split at h <;> cases h
    rfl
  · unfold readEntry at h
    dsimp only at h
    split at h
    · cases h
      rfl
    · split at h <;> cases h
      rfl
  · cases h
    rfl

/-- **An error points into the line that its statement is read from.** -/
theorem exists_pointsInto {text : List Char} (hs : s ∈ ofText text)
    (h : (b.read s).error? = some e) :
    ∃ l, lineAt? (lines text) s.line = some l ∧ e.PointsInto l := by
  obtain ⟨l, after, hl, hc, hindent, hstatement⟩ := lineAt?_of_mem_ofText hs
  refine ⟨l, hl, ?_⟩
  have hstart : trimStart l ≠ [] := trimStart_ne_nil_of_trim fun hnil => by
    rw [hnil] at hc
    cases hc
  unfold read at h
  rw [hindent] at h
  split at h
  case h_1 name hname =>
    have hheader := headerName?_of_ofLine (hstatement ▸ hname)
    unfold readHeader at h
    dsimp only at h
    split at h
    · cases h
    · rename_i i hi
      cases h
      show HeaderFaultAt l (String.ofList name).toList (indent l + 1 + i)
      rw [String.toList_ofList]
      exact headerFaultAt_of_headerName? hstart hheader hi
  case h_2 left right more hentry =>
    obtain ⟨hsides, rfl⟩ := eq_of_ofLine_entry (hstatement ▸ hentry)
    unfold readEntry at h
    dsimp only at h
    split at h
    · cases h
      exact startsAt_indent hstart
    · split at h
      · cases h
      · rename_i fault column herror
        cases h
        obtain ⟨key, rfl, hmissing⟩ := eq_of_entry?_error hc hsides herror
        exact hmissing
  case h_3 =>
    cases h
    exact startsAt_indent hstart

/-! ### All statements -/

/-- An error is that of some statement. -/
theorem exists_read_of_mem {ss : List Located} (h : e ∈ (b.readAll ss).1) :
    ∃ s ∈ ss, ∃ b' : Builder, (b'.read s).error? = some e := by
  induction ss generalizing b with
  | nil => cases h
  | cons s ss ih =>
    cases hread : b.read s with
    | next error b' =>
      rw [readAll_cons_next hread] at h
      rcases List.mem_append.mp h with h | h
      · exact ⟨s, List.mem_cons_self, b, by rw [hread]; exact Option.mem_toList.mp h⟩
      · obtain ⟨t, ht, hread'⟩ := ih h
        exact ⟨t, List.mem_cons_of_mem s ht, hread'⟩
    | abort error =>
      rw [readAll_cons_abort hread] at h
      obtain rfl := List.mem_singleton.mp h
      exact ⟨s, List.mem_cons_self, b, by rw [hread]; rfl⟩

/-- **The errors come at lines of statements, in their order**, and not two for one statement. -/
theorem lines_readAll_sublist (b : Builder) (ss : List Located) :
    ((b.readAll ss).1.map (·.location.line)).Sublist (ss.map (·.line)) := by
  induction ss generalizing b with
  | nil => exact List.Sublist.slnil
  | cons s ss ih =>
    cases hread : b.read s with
    | next error b' =>
      rw [readAll_cons_next hread]
      cases error with
      | none => exact (ih b').cons _
      | some e =>
        have hline : e.location.line = s.line := line_of_read (b := b) (by rw [hread]; rfl)
        rw [List.map_cons, ← hline]
        exact (ih b').cons_cons _
    | abort e =>
      have hline : e.location.line = s.line := line_of_read (b := b) (by rw [hread]; rfl)
      rw [readAll_cons_abort hread, List.map_cons, List.map_cons, hline]
      exact (List.nil_sublist _).cons_cons _

/-! ### Entries without a group -/

/-- The first of the statements that is a header or an entry is this entry. -/
def EntryFirst (ss : List Located) (s : Located) : Prop :=
  ss.find? (·.statement != .unrecognized) = some s ∧
    ∃ left right more, s.statement = .entry left right more

/-- Reading an entry without a group is aborted. -/
theorem read_of_entry {left right : List Char} {more : List (List Char)} (hb : b.current = none)
    (hs : s.statement = .entry left right more) :
    ∃ e, b.read s = .abort e ∧ e.fault = .missingGroup := by
  rw [read, hs]
  dsimp only
  rw [readEntry, hb]
  exact ⟨_, rfl, rfl⟩

/-- Reading goes on otherwise, and only after what is neither a header nor an entry there is still
no group. -/
theorem read_next (h : b.current = none → ∀ left right more, s.statement ≠ .entry left right more) :
    ∃ error b', b.read s = .next error b' ∧ (∀ e ∈ error, e.fault ≠ .missingGroup) ∧
      (b'.current = none ↔ b.current = none ∧ s.statement = .unrecognized) := by
  obtain ⟨line, indent, statement⟩ := s
  cases statement with
  | header name =>
    simp only [read, readHeader]
    cases invalidNameIndex? name <;> exact ⟨_, _, rfl, by simp, by simp [openGroup]⟩
  | entry left right more =>
    simp only [read, readEntry]
    cases hb : b.current with
    | none => exact absurd rfl (h hb left right more)
    | some group =>
      cases hentry : entry? line indent left (joinLines right more) with
      | ok entry => exact ⟨_, _, rfl, by simp, by simp [append, hb]⟩
      | error fault =>
        have hfault := fault_of_entry? hentry
        exact ⟨_, _, rfl, by simpa using hfault, by simp [hb]⟩
  | unrecognized => exact ⟨_, _, rfl, by simp, by simp⟩

/-- **Only the last error can be that a group is missing.** -/
theorem completes_dropLast (b : Builder) (ss : List Located) :
    Completes (b.readAll ss).1.dropLast := by
  induction ss generalizing b with
  | nil => exact fun e he => absurd he List.not_mem_nil
  | cons s ss ih =>
    by_cases h : b.current = none ∧ ∃ left right more, s.statement = .entry left right more
    · obtain ⟨hb, left, right, more, hs⟩ := h
      obtain ⟨e, hread, -⟩ := read_of_entry hb hs
      rw [readAll_cons_abort hread]
      exact fun e he => absurd he List.not_mem_nil
    · obtain ⟨error, b', hread, hfault, -⟩ :=
        read_next (b := b) (s := s) fun hb left right more hs => h ⟨hb, left, right, more, hs⟩
      rw [readAll_cons_next hread]
      intro e he
      rw [List.dropLast_append] at he
      split at he
      · exact hfault e (Option.mem_toList.mp (List.mem_of_mem_dropLast he))
      · rcases List.mem_append.mp he with he | he
        · exact hfault e (Option.mem_toList.mp he)
        · exact ih b' e he

/-- **A group is missing on a line** if an entry starts on it, before any header and as the first
entry. -/
theorem missingGroup_readAll_iff {ss : List Located} {n : Nat} :
    (∃ e ∈ (b.readAll ss).1, e.fault = .missingGroup ∧ e.location.line = n) ↔
      b.current = none ∧ ∃ s, EntryFirst ss s ∧ s.line = n := by
  induction ss generalizing b with
  | nil => simp [readAll, EntryFirst]
  | cons s ss ih =>
    by_cases h : b.current = none ∧ ∃ left right more, s.statement = .entry left right more
    · obtain ⟨hb, left, right, more, hs⟩ := h
      obtain ⟨e, hread, hfault⟩ := read_of_entry hb hs
      have hline : e.location.line = s.line := line_of_read (b := b) (by rw [hread]; rfl)
      rw [readAll_cons_abort hread]
      simp [EntryFirst, hb, hs, hfault, hline]
    · obtain ⟨error, b', hread, hfault, hcurrent⟩ :=
        read_next (b := b) (s := s) fun hb left right more hs => h ⟨hb, left, right, more, hs⟩
      have hrest : (∃ e ∈ error.toList ++ (b'.readAll ss).1,
          e.fault = .missingGroup ∧ e.location.line = n) ↔
            ∃ e ∈ (b'.readAll ss).1, e.fault = .missingGroup ∧ e.location.line = n := by
        constructor
        · rintro ⟨e, he, hmissing, hline⟩
          rcases List.mem_append.mp he with he | he
          · exact absurd hmissing (hfault e (Option.mem_toList.mp he))
          · exact ⟨e, he, hmissing, hline⟩
        · rintro ⟨e, he, hmissing⟩
          exact ⟨e, List.mem_append_right _ he, hmissing⟩
      rw [readAll_cons_next hread, hrest, ih, hcurrent]
      by_cases hs : s.statement = .unrecognized
      · simp [EntryFirst, hs]
      · have hnone : b.current = none → ∀ t, ¬EntryFirst (s :: ss) t := by
          rintro hb t ⟨hfirst, hentry⟩
          rw [List.find?_cons_of_pos (by simpa using hs)] at hfirst
          obtain rfl := Option.some.inj hfirst
          exact h ⟨hb, hentry⟩
        constructor
        · rintro ⟨⟨-, hs'⟩, -⟩
          exact absurd hs' hs
        · rintro ⟨hb, t, ht, -⟩
          exact absurd ht (hnone hb t)

end Builder

/-! ### Texts -/

/-- What the errors of a text are like: they come in the order of its lines; each points into a
line, and none that continues an entry; none is about a key; and at most the last says that a group
is missing, namely for an entry that comes first. -/
structure AreErrorsOf (text : List Char) (errors : List ParseError) : Prop where
  ascending : errors.Pairwise fun e e' => e.location.line < e'.location.line
  pointsInto : ∀ e ∈ errors, ∃ l, lineAt? (lines text) e.location.line = some l ∧ e.PointsInto l
  not_continuing : ∀ e ∈ errors, ∀ s ∈ ofText text,
    ¬(s.line < e.location.line ∧ e.location.line ≤ s.lastLine)
  not_invalidKey : ∀ e ∈ errors, ∀ key, e.fault ≠ .invalidKey key
  missing_last : ∀ e ∈ errors.dropLast, e.fault ≠ .missingGroup
  missing_iff : ∀ n, (∃ e ∈ errors, e.fault = .missingGroup ∧ e.location.line = n) ↔
    ∃ s, Builder.EntryFirst (ofText text) s ∧ s.line = n

/-- No line on which a statement starts continues another. -/
theorem not_continuing_of_mem_ofText {text : List Char} {s t : Located} (hs : s ∈ ofText text)
    (ht : t ∈ ofText text) : ¬(s.line < t.line ∧ t.line ≤ s.lastLine) := by
  rintro ⟨hlt, hle⟩
  rcases eq_or_ne s t with rfl | hne
  · exact Nat.lt_irrefl _ hlt
  · have := t.line_le_lastLine
    rcases apart_of_mem_ofText hs ht hne with h | h <;> omega

/-- **The errors of a text**, which parsing fails with if there are any. -/
theorem areErrorsOf_readAll (path : Path) (text : String) :
    let errors := ((Builder.empty path).readAll (ofText text.toList)).1
    (∀ es, parse path text = .error es ↔ errors ≠ [] ∧ es = errors) ∧
      AreErrorsOf text.toList errors := by
  intro errors
  have hread : ∀ e ∈ errors, ∃ s ∈ ofText text.toList, e.location.line = s.line ∧
      ∃ l, lineAt? (lines text.toList) s.line = some l ∧ e.PointsInto l := by
    intro e he
    obtain ⟨s, hs, b, hb⟩ := Builder.exists_read_of_mem he
    exact ⟨s, hs, Builder.line_of_read hb, Builder.exists_pointsInto hs hb⟩
  constructor
  · intro es
    rw [parse_eq_error_iff, syntaxErrors_eq]
  · have hsublist := Builder.lines_readAll_sublist (Builder.empty path) (ofText text.toList)
    refine ⟨List.pairwise_map.mp ((ofText_ascending text.toList).sublist hsublist), ?_, ?_, ?_,
      Builder.completes_dropLast _ _, fun n => ?_⟩
    · intro e he
      obtain ⟨s, -, hline, hpoints⟩ := hread e he
      rwa [hline]
    · intro e he s hs
      obtain ⟨t, ht, hline, -⟩ := hread e he
      rw [hline]
      exact not_continuing_of_mem_ofText hs ht
    · intro e he key hkey
      obtain ⟨s, -, -, l, -, hpoints⟩ := hread e he
      unfold ParseError.PointsInto at hpoints
      rw [hkey] at hpoints
      exact hpoints
    · rw [Builder.missingGroup_readAll_iff]
      exact and_iff_right rfl

end UnitLint
