import UnitLint.Proofs.Text.Lines
import UnitLint.Proofs.UnitFile.Reading

/-! # Written documents

A document is a list of sections, each a name and its entries; the value of an entry is given in
segments, one for each line that it takes. Names, keys and segments are such that nothing in them is
read as something else; only the segments between the first and the last are free, but for line
feeds. A written document is read as it was meant: line by line (`lineAt?_written`), statement by
statement (`ofLines_written`), with the sections that it was written in (`sections_statements`), and
without errors (`parse_written`). -/

namespace UnitLint

open Text Statement

/-! ### Segments -/

/-- The last of some segments ends neither with a blank nor with a backslash. -/
def ClosedSegments (ss : List (List Char)) : Prop :=
  ∀ s ∈ ss.getLast?, ∀ c ∈ s.getLast?, isBlank c = false ∧ c ≠ '\\'

/-- The line of a segment, with a mark if other segments follow it. -/
def markedLine (s : List Char) : List (List Char) → List Char
  | [] => s
  | _ :: _ => s ++ ['\\']

/-- The lines of segments, each with a mark but the last. -/
def markedLines : List (List Char) → List (List Char)
  | [] => []
  | s :: ss => markedLine s ss :: markedLines ss

/-- The segments after the first as they stand in a value, each after a mark and a line feed. -/
def continued (ss : List (List Char)) : List Char := ss.flatMap fun s => '\\' :: '\n' :: s

theorem ClosedSegments.tail {s t : List Char} {ts : List (List Char)}
    (h : ClosedSegments (s :: t :: ts)) : ClosedSegments (t :: ts) := by
  unfold ClosedSegments at h ⊢
  rwa [List.getLast?_cons_cons] at h

theorem ClosedSegments.cons_append {p s : List Char} {ss : List (List Char)} {c : Char}
    (h : ClosedSegments (s :: ss)) (hc : isBlank c = false ∧ c ≠ '\\') :
    ClosedSegments ((p ++ c :: s) :: ss) := by
  rcases ss with _ | ⟨t, ss⟩
  · intro s' hs' d hd
    obtain rfl : p ++ c :: s = s' := by simpa using hs'
    rw [List.getLast?_append_of_ne_nil _ (List.cons_ne_nil _ _)] at hd
    rcases s with _ | ⟨a, s⟩
    · obtain rfl : c = d := by simpa using hd
      exact hc
    · rw [List.getLast?_cons_cons] at hd
      exact h (a :: s) rfl d hd
  · unfold ClosedSegments
    rw [List.getLast?_cons_cons]
    exact h.tail

theorem markedLine_append (p s : List Char) : ∀ ss : List (List Char),
    markedLine (p ++ s) ss = p ++ markedLine s ss
  | [] => rfl
  | _ :: _ => List.append_assoc p s ['\\']

/-- No line of closed segments ends with a blank. -/
theorem ClosedSegments.last_markedLine {s : List Char} {ss : List (List Char)}
    (h : ClosedSegments (s :: ss)) : ∀ c ∈ (markedLine s ss).getLast?, isBlank c = false := by
  intro c hc
  rcases ss with _ | ⟨t, ss⟩
  · exact (h s rfl c hc).1
  · rw [markedLine, List.getLast?_concat] at hc
    obtain rfl := Option.some.inj hc
    rfl

theorem newline_notMem_markedLine {s : List Char} (h : '\n' ∉ s) (ss : List (List Char)) :
    '\n' ∉ markedLine s ss := by
  rcases ss with _ | ⟨t, ss⟩
  · exact h
  · simpa [markedLine] using h

/-- Segments are written on lines of their own. -/
theorem lines_segments {s : List Char} {ss : List (List Char)} (hline : ∀ t ∈ s :: ss, '\n' ∉ t)
    (hclosed : ClosedSegments (s :: ss)) (rest : List Char) :
    lines (s ++ continued ss ++ '\n' :: rest) = markedLines (s :: ss) ++ lines rest := by
  have hblank := hclosed.last_markedLine
  have hreturn : (markedLine s ss).getLast? ≠ some '\r' := by
    intro h
    exact absurd (hblank _ h) (by decide)
  have hnewline := newline_notMem_markedLine (hline s List.mem_cons_self) ss
  induction ss generalizing s with
  | nil =>
    rw [continued, List.flatMap_nil, List.append_nil]
    exact lines_cons_line hnewline hreturn rest
  | cons t ts ih =>
    have htext : s ++ continued (t :: ts) ++ '\n' :: rest =
        markedLine s (t :: ts) ++ '\n' :: (t ++ continued ts ++ '\n' :: rest) := by
      simp [continued, markedLine]
    have hblank' := hclosed.tail.last_markedLine
    rw [htext, lines_cons_line hnewline hreturn,
      ih (fun u hu => hline u (List.mem_cons_of_mem s hu)) hclosed.tail hblank'
        (fun h => absurd (hblank' _ h) (by decide))
      (newline_notMem_markedLine (hline t (by simp)) ts)]
    rfl

/-- The lines after the first of closed segments are those that continue it. -/
theorem continuation_segments {s : List Char} {ss : List (List Char)}
    (h : ClosedSegments (s :: ss)) (rest : List (List Char)) :
    continuation (markedLine s ss) (markedLines ss ++ rest) = (markedLines ss, rest) := by
  induction ss generalizing s with
  | nil =>
    refine continuation_of_not_continued ?_ rest
    rw [← Bool.not_eq_true, isContinued_eq_true]
    intro hlast
    exact (h s rfl _ hlast).2 rfl
  | cons t ts ih =>
    have hcontinued : isContinued (markedLine s (t :: ts)) = true := by
      rw [isContinued_eq_true, markedLine, List.getLast?_concat]
    have htrim : trimEnd (markedLine t ts) = markedLine t ts :=
      trimEnd_eq_self h.tail.last_markedLine
    rw [markedLines, List.cons_append, continuation_of_continued hcontinued, htrim, ih h.tail]

theorem joinLines_segments (s : List Char) (ss : List (List Char)) :
    joinLines (markedLine s ss) (markedLines ss) = s ++ continued ss := by
  induction ss generalizing s with
  | nil => rfl
  | cons t ts ih =>
    have ht : joinLines (markedLine s (t :: ts)) (markedLines (t :: ts)) =
        s ++ '\\' :: '\n' :: joinLines (markedLine t ts) (markedLines ts) := by
      simp [joinLines, markedLine, markedLines]
    rw [ht, ih t]
    simp [continued]

/-! ### Entries -/

/-- An entry as it is written: its key, and the segments of its value. -/
structure WrittenEntry where
  key : List Char
  first : List Char
  more : List (List Char)
  key_ne_nil : key ≠ []
  key_plain : '=' ∉ key ∧ '\n' ∉ key
  key_head : ∀ c ∈ key.head?, isBlank c = false ∧ c ∉ ['#', ';', '[']
  key_last : ∀ c ∈ key.getLast?, isBlank c = false
  segment_plain : ∀ s ∈ first :: more, '\n' ∉ s
  first_head : ∀ c ∈ first.head?, isBlank c = false
  last_closed : ClosedSegments (first :: more)
  first_ne_nil : more = [] → first ≠ []

namespace WrittenEntry

/-- The segments, joined by marks and line feeds. -/
def raw (e : WrittenEntry) : List Char := e.first ++ continued e.more

/-- The segments, one after another. -/
def plain (e : WrittenEntry) : List Char := e.first ++ e.more.flatten

/-- How many lines the entry takes. -/
def height (e : WrittenEntry) : Nat := e.more.length + 1

/-- The entry as text. -/
def written (e : WrittenEntry) : List Char := e.key ++ '=' :: e.raw ++ ['\n']

/-- The entry that is read if it is written on the given line. -/
def entryAt (line : Nat) (e : WrittenEntry) : Entry :=
  ⟨String.ofList e.key, 0, ⟨String.ofList e.key, String.ofList e.raw, ⟨line, e.key.length + 1⟩⟩⟩

/-- The statement that is read if the entry is written on the given line. -/
def statementAt (line : Nat) (e : WrittenEntry) : Located :=
  ⟨line, 0, .entry e.key (markedLine e.first e.more) (markedLines e.more)⟩

/-- The line that the entry starts on. -/
def line (e : WrittenEntry) : List Char := e.key ++ '=' :: markedLine e.first e.more

/-- The lines of the entry. -/
def lines (e : WrittenEntry) : List (List Char) := e.line :: markedLines e.more

theorem line_eq (e : WrittenEntry) : e.line = markedLine (e.key ++ '=' :: e.first) e.more := by
  have h : e.key ++ '=' :: e.first = (e.key ++ ['=']) ++ e.first := by simp
  rw [line, h, markedLine_append]
  simp

theorem closed_line (e : WrittenEntry) : ClosedSegments ((e.key ++ '=' :: e.first) :: e.more) :=
  e.last_closed.cons_append (by decide)

theorem exists_key_eq (e : WrittenEntry) :
    ∃ c k, e.key = c :: k ∧ isBlank c = false ∧ c ≠ '#' ∧ c ≠ ';' ∧ c ≠ '[' := by
  obtain ⟨c, k, hkey⟩ := List.exists_cons_of_ne_nil e.key_ne_nil
  obtain ⟨hblank, hc⟩ := e.key_head c (by rw [hkey]; rfl)
  simp only [List.mem_cons, List.not_mem_nil, or_false, not_or] at hc
  exact ⟨c, k, hkey, hblank, hc.1, hc.2.1, hc.2.2⟩

theorem lines_written (e : WrittenEntry) (rest : List Char) :
    Text.lines (e.written ++ rest) = e.lines ++ Text.lines rest := by
  have hplain : ∀ t ∈ (e.key ++ '=' :: e.first) :: e.more, '\n' ∉ t := by
    intro t ht
    rcases List.mem_cons.mp ht with rfl | ht
    · have hfirst := e.segment_plain e.first List.mem_cons_self
      simp [e.key_plain.2, hfirst]
    · exact e.segment_plain t (List.mem_cons_of_mem e.first ht)
  have htext : e.written ++ rest =
      e.key ++ '=' :: e.first ++ continued e.more ++ '\n' :: rest := by simp [written, raw]
  rw [htext, lines_segments hplain e.closed_line, markedLines, ← line_eq]
  rfl

theorem trim_line (e : WrittenEntry) : trim e.line = e.line := by
  refine trim_eq_self (fun c hc => ?_) ?_
  · obtain ⟨d, k, hkey, hblank, -⟩ := e.exists_key_eq
    rw [line, hkey] at hc
    obtain rfl : d = c := by simpa using hc
    exact hblank
  · rw [line_eq]
    exact e.closed_line.last_markedLine

theorem length_lines (e : WrittenEntry) : e.lines.length = e.height := by
  have h : ∀ ss : List (List Char), (markedLines ss).length = ss.length := by
    intro ss
    induction ss with
    | nil => rfl
    | cons s ss ih => rw [markedLines, List.length_cons, ih, List.length_cons]
  rw [lines, List.length_cons, h, height]

/-- The lines of an entry are read as the entry, whatever follows them. -/
theorem ofLines_lines (e : WrittenEntry) (n : Nat) (rest : List (List Char)) :
    ofLines n (e.lines ++ rest) = e.statementAt n :: ofLines (n + e.height) rest := by
  obtain ⟨c, k, hkey, hblank, hhash, hsemi, hbracket⟩ := e.exists_key_eq
  have hcomment : isComment (trim e.line) = false := by
    rw [trim_line, line, hkey, List.cons_append, isComment]
    simp [hhash, hsemi]
  have hheader : headerName? (trim e.line) = none := by
    rw [trim_line, line, hkey, List.cons_append]
    unfold headerName?
    split
    · rename_i heq
      exact absurd (List.cons.inj heq).1 hbracket
    · rfl
  have hsides : sides? (trim e.line) = some (e.key, markedLine e.first e.more) := by
    rw [trim_line, line]
    exact sides?_append e.key_ne_nil e.key_plain.1 _
  have hindent : indent e.line = 0 := by
    refine indent_eq_zero fun d hd => ?_
    rw [line, hkey] at hd
    obtain rfl : c = d := by simpa using hd
    exact hblank
  have hlength := e.length_lines
  rw [lines, List.length_cons] at hlength
  rw [lines, List.cons_append, ofLines_of_statement hcomment, ofLine_of_sides hheader hsides,
    continuation_segments e.last_closed, hindent]
  congr 2
  show n + 1 + ((markedLines e.more ++ rest).length - rest.length) = n + e.height
  rw [List.length_append]
  omega

theorem raw_ne_nil (e : WrittenEntry) : e.raw ≠ [] := by
  unfold raw
  intro h
  obtain ⟨hfirst, hmore⟩ := List.append_eq_nil_iff.mp h
  rcases hm : e.more with _ | ⟨t, ts⟩
  · exact e.first_ne_nil hm hfirst
  · rw [hm] at hmore
    cases hmore

theorem entry?_statementAt (e : WrittenEntry) (n : Nat) :
    entry? n 0 e.key (joinLines (markedLine e.first e.more) (markedLines e.more)) =
      .ok (e.entryAt n) := by
  have hkey : trimEnd e.key = e.key := trimEnd_eq_self e.key_last
  have hvalid : invalidKeyIndex? e.key = none := by
    refine IsKey.invalidKeyIndex?_eq_none ⟨e.key_ne_nil, e.key_plain.1, fun c hc => ?_, e.key_last⟩
    obtain ⟨d, k, hdk, hblank, hhash, hsemi, -⟩ := e.exists_key_eq
    rw [hdk] at hc
    obtain rfl := Option.some.inj hc
    exact ⟨hblank, hhash, hsemi⟩
  have hraw : ∀ c ∈ e.raw.head?, isBlank c = false := by
    intro c hc
    unfold raw at hc
    rcases hfirst : e.first with _ | ⟨d, first⟩
    · rw [hfirst, List.nil_append] at hc
      rcases hmore : e.more with _ | ⟨t, ts⟩
      · exact absurd hfirst (e.first_ne_nil hmore)
      · rw [hmore] at hc
        obtain rfl : '\\' = c := by simpa [continued] using hc
        rfl
    · rw [hfirst] at hc
      exact e.first_head c (by rw [hfirst]; simpa using hc)
  rw [joinLines_segments, ← raw, entry?, hkey, hvalid]
  dsimp only
  rw [trimStart_eq_self hraw, indent_eq_zero hraw, if_neg (by simpa using e.raw_ne_nil), entryAt]
  simp

theorem actions_statementAt (e : WrittenEntry) (n : Nat) :
    (e.statementAt n).actions = [.append (e.entryAt n)] := by
  unfold Located.actions statementAt
  simp only [entry?_statementAt]

theorem valid_statementAt (e : WrittenEntry) (n : Nat) : (e.statementAt n).Valid :=
  ⟨_, e.entry?_statementAt n⟩

end WrittenEntry

/-! ### Sections -/

/-- A section as it is written: a name in brackets, and entries. -/
structure WrittenSection where
  name : List Char
  entries : List WrittenEntry
  name_ne_nil : name ≠ []
  name_plain : ∀ c ∈ name, c ≠ '[' ∧ c ≠ ']' ∧ isControl c = false

/-- Things that take some lines each, with the line that each starts on. -/
def numbered {α : Type} (height : α → Nat) (line : Nat) : List α → List (Nat × α)
  | [] => []
  | a :: as => (line, a) :: numbered height (line + height a) as

/-- Things that take the lines of their texts start where these do. -/
theorem exists_eq_of_mem_numbered {α : Type} {height : α → Nat} {text : α → List (List Char)}
    (h : ∀ a, (text a).length = height a) {n : Nat} {as : List α} {p : Nat × α}
    (hp : p ∈ numbered height n as) :
    ∃ before after, as.flatMap text = before ++ (text p.2 ++ after) ∧ p.1 = n + before.length := by
  induction as generalizing n with
  | nil => cases hp
  | cons a as ih =>
    rw [List.flatMap_cons]
    rcases List.mem_cons.mp hp with rfl | hp
    · exact ⟨[], _, rfl, rfl⟩
    · obtain ⟨before, after, hlines, hn⟩ := ih hp
      refine ⟨text a ++ before, after, ?_, ?_⟩
      · rw [hlines, List.append_assoc]
      · rw [hn, List.length_append, h, Nat.add_assoc]

namespace WrittenSection

/-- How many lines the section takes. -/
def height (s : WrittenSection) : Nat := (s.entries.flatMap WrittenEntry.lines).length + 1

/-- The line of the header. -/
def header (s : WrittenSection) : List Char := '[' :: (s.name ++ [']'])

theorem getLast?_header (s : WrittenSection) : s.header.getLast? = some ']' := by
  rw [header, List.getLast?_cons, List.getLast?_concat]
  rfl

/-- The section as text. -/
def written (s : WrittenSection) : List Char :=
  s.header ++ '\n' :: s.entries.flatMap WrittenEntry.written

/-- The entries with their lines, if the section is written on the given line. -/
def entriesAt (line : Nat) (s : WrittenSection) : List (Nat × WrittenEntry) :=
  numbered WrittenEntry.height (line + 1) s.entries

/-- The section that is read if it is written on the given line. -/
def sectionAt (line : Nat) (s : WrittenSection) : Group where
  name := String.ofList s.name
  line := line
  entries := (s.entriesAt line).map fun p => p.2.entryAt p.1

/-- The statements that are read if the section is written on the given line. -/
def statementsAt (line : Nat) (s : WrittenSection) : List Located :=
  ⟨line, 0, .header s.name⟩ :: (s.entriesAt line).map fun p => p.2.statementAt p.1

/-- The lines of the section. -/
def lines (s : WrittenSection) : List (List Char) :=
  s.header :: s.entries.flatMap WrittenEntry.lines

theorem lines_entries (es : List WrittenEntry) (rest : List Char) :
    Text.lines (es.flatMap WrittenEntry.written ++ rest) =
      es.flatMap WrittenEntry.lines ++ Text.lines rest := by
  induction es with
  | nil => rfl
  | cons e es ih =>
    rw [List.flatMap_cons, List.append_assoc, WrittenEntry.lines_written, ih, List.flatMap_cons,
      List.append_assoc]

theorem ofLines_entries (n : Nat) (es : List WrittenEntry) (rest : List (List Char)) :
    ofLines n (es.flatMap WrittenEntry.lines ++ rest) =
      (numbered WrittenEntry.height n es).map (fun p => p.2.statementAt p.1) ++
        ofLines (n + (es.flatMap WrittenEntry.lines).length) rest := by
  induction es generalizing n with
  | nil => rfl
  | cons e es ih =>
    rw [List.flatMap_cons, List.append_assoc, WrittenEntry.ofLines_lines, ih, numbered,
      List.map_cons, List.length_append, WrittenEntry.length_lines, Nat.add_assoc]
    rfl

theorem lines_written (s : WrittenSection) (rest : List Char) :
    Text.lines (s.written ++ rest) = s.lines ++ Text.lines rest := by
  have hplain : '\n' ∉ s.header := by
    have hname : '\n' ∉ s.name := fun h => absurd (s.name_plain _ h).2.2 (by decide)
    simpa [header] using hname
  have htext : s.written ++ rest =
      s.header ++ '\n' :: (s.entries.flatMap WrittenEntry.written ++ rest) := by
    simp [written]
  have hreturn : s.header.getLast? ≠ some '\r' := by
    rw [getLast?_header]
    decide
  rw [htext, lines_cons_line hplain hreturn, lines_entries]
  rfl

theorem length_lines (s : WrittenSection) : s.lines.length = s.height := List.length_cons

/-- The lines of a section are read as the section, whatever follows them. -/
theorem ofLines_lines (s : WrittenSection) (n : Nat) (rest : List (List Char)) :
    ofLines n (s.lines ++ rest) = s.statementsAt n ++ ofLines (n + s.height) rest := by
  have htrim : trim s.header = s.header := by
    refine trim_eq_self (fun c hc => ?_) fun c hc => ?_
    · obtain rfl : '[' = c := Option.some.inj hc
      rfl
    · rw [getLast?_header] at hc
      obtain rfl : ']' = c := Option.some.inj hc
      rfl
  have hcomment : isComment (trim s.header) = false := by rw [htrim]; rfl
  have hheader : headerName? (trim s.header) = some s.name := by
    rw [htrim]
    exact headerName?_brackets fun h => (s.name_plain _ h).2.1 rfl
  have hindent : indent s.header = 0 := by
    refine indent_eq_zero fun c hc => ?_
    obtain rfl : '[' = c := Option.some.inj hc
    rfl
  rw [lines, List.cons_append, ofLines_of_statement hcomment, ofLine_of_header hheader, hindent]
  dsimp only
  rw [Nat.sub_self, Nat.add_zero, ofLines_entries, statementsAt, height, List.cons_append,
    entriesAt, Nat.add_assoc n 1, Nat.add_comm 1]

theorem sections_statementsAt (s : WrittenSection) (n : Nat) :
    sections (s.statementsAt n) = [s.sectionAt n] := by
  have hactions : (s.statementsAt n).flatMap Located.actions =
      .openGroup (String.ofList s.name) n ::
        ((s.entriesAt n).map fun p => p.2.entryAt p.1).map Action.append := by
    rw [statementsAt, List.flatMap_cons, List.flatMap_map, List.map_map, List.map_eq_flatMap]
    refine congrArg (Action.openGroup (String.ofList s.name) n :: ·) ?_
    exact congrArg (fun f => (s.entriesAt n).flatMap f)
      (funext fun p => p.2.actions_statementAt p.1)
  unfold sections
  rw [hactions, List.foldl_cons]
  exact Group.foldl_record_entries [] _ _

theorem valid_statementsAt (s : WrittenSection) (n : Nat) : ∀ t ∈ s.statementsAt n, t.Valid := by
  intro t ht
  rcases List.mem_cons.mp ht with rfl | ht
  · show invalidNameIndex? s.name = none
    unfold invalidNameIndex?
    rw [if_neg (by simpa using s.name_ne_nil), List.findIdx?_eq_none_iff]
    intro c hc
    obtain ⟨hopen, hclose, hcontrol⟩ := s.name_plain c hc
    simp [hopen, hclose, hcontrol]
  · obtain ⟨p, -, rfl⟩ := List.mem_map.mp ht
    exact p.2.valid_statementAt p.1

theorem headerFirst_statementsAt (s : WrittenSection) (n : Nat) (rest : List Located) :
    HeaderFirst (s.statementsAt n ++ rest) := by
  intro t ht
  obtain rfl := Option.some.inj ht
  exact ⟨s.name, rfl⟩

end WrittenSection

/-! ### Documents -/

namespace Document

/-- The document as text. -/
def written (doc : List WrittenSection) : List Char := doc.flatMap WrittenSection.written

/-- The sections with their lines. -/
def sectionsAt (line : Nat) (doc : List WrittenSection) : List (Nat × WrittenSection) :=
  numbered WrittenSection.height line doc

theorem lines_written (doc : List WrittenSection) (rest : List Char) :
    lines (written doc ++ rest) = doc.flatMap WrittenSection.lines ++ lines rest := by
  induction doc with
  | nil => rfl
  | cons s doc ih =>
    rw [written, List.flatMap_cons, List.append_assoc, WrittenSection.lines_written, ← written, ih,
      List.flatMap_cons, List.append_assoc]

theorem ofLines_written (n : Nat) (doc : List WrittenSection) :
    ofLines n (lines (written doc)) = (sectionsAt n doc).flatMap fun p => p.2.statementsAt p.1 := by
  induction doc generalizing n with
  | nil => exact ofLines_nil n
  | cons s doc ih =>
    rw [written, List.flatMap_cons, WrittenSection.lines_written, WrittenSection.ofLines_lines,
      ← written, ih]
    rfl

theorem headerFirst_statements (n : Nat) (doc : List WrittenSection) :
    HeaderFirst ((sectionsAt n doc).flatMap fun p => p.2.statementsAt p.1) := by
  rcases doc with _ | ⟨s, doc⟩
  · intro t ht
    cases ht
  · exact s.headerFirst_statementsAt n _

/-- **What a document says stands on the lines that it is numbered with.** -/
theorem lineAt?_written {doc : List WrittenSection} {p : Nat × WrittenSection}
    (hp : p ∈ sectionsAt 1 doc) :
    lineAt? (lines (written doc)) p.1 = some p.2.header ∧
      ∀ q ∈ p.2.entriesAt p.1, lineAt? (lines (written doc)) q.1 = some q.2.line := by
  have hlines : lines (written doc) = doc.flatMap WrittenSection.lines := by
    rw [← List.append_nil (written doc), lines_written]
    exact List.append_nil _
  obtain ⟨before, after, hdoc, hn⟩ := exists_eq_of_mem_numbered WrittenSection.length_lines hp
  rw [hlines, hdoc, hn, Nat.add_comm]
  refine ⟨?_, fun q hq => ?_⟩
  · exact lineAt?_append_cons before p.2.header _
  · obtain ⟨before', after', hsection, hm⟩ :=
      exists_eq_of_mem_numbered WrittenEntry.length_lines hq
    have hq' : q.1 = (before ++ p.2.header :: before').length + 1 := by
      rw [hm, List.length_append, List.length_cons]
      omega
    have hsplit : before ++ (p.2.lines ++ after) =
        (before ++ p.2.header :: before') ++ (q.2.lines ++ (after' ++ after)) := by
      rw [WrittenSection.lines, hsection]
      simp
    rw [hq', hsplit]
    exact lineAt?_append_cons _ q.2.line _

/-- **A written document has the sections that it was written in.** -/
theorem sections_statements (n : Nat) (doc : List WrittenSection) :
    sections ((sectionsAt n doc).flatMap fun p => p.2.statementsAt p.1) =
      (sectionsAt n doc).map fun p => p.2.sectionAt p.1 := by
  induction doc generalizing n with
  | nil => rfl
  | cons s doc ih =>
    have hrest := headerFirst_statements (n + s.height) doc
    have hcons : sectionsAt n (s :: doc) = (n, s) :: sectionsAt (n + s.height) doc := rfl
    rw [hcons, List.flatMap_cons, sections_append _ hrest, ih, List.map_cons,
      WrittenSection.sections_statementsAt]
    rfl

/-- **A written document is parsed** into the groups that its sections make up. -/
theorem parse_written (path : Path) (doc : List WrittenSection) :
    parse path (String.ofList (written doc)) =
      .ok ⟨path, Group.gathered ((sectionsAt 1 doc).map fun p => p.2.sectionAt p.1)⟩ := by
  have htext : ofText (String.ofList (written doc)).toList =
      (sectionsAt 1 doc).flatMap fun p => p.2.statementsAt p.1 := by
    rw [String.toList_ofList, ofText, ofLines_written]
  rw [parse_eq_ok_iff, syntaxErrors_eq_nil_iff, htext, sections_statements]
  refine ⟨⟨fun t ht => ?_, headerFirst_statements 1 doc⟩, rfl⟩
  obtain ⟨p, -, ht⟩ := List.mem_flatMap.mp ht
  exact p.2.valid_statementsAt p.1 t ht

end Document

end UnitLint
