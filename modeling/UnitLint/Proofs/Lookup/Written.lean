import UnitLint.Proofs.Lookup.Occurrences
import UnitLint.Proofs.Lookup.Places
import UnitLint.Proofs.UnitFile.Document

/-! # Looking up what was written

The entries of a written document under a key of a section name are its occurrences there. Parsed
and looked up again, each of them gives its segments, one after another, without the marks and line
feeds that were written between them (`round_trip`). -/

namespace UnitLint

open Text

/-! ### Values -/

namespace WrittenEntry

/-- A value is spliced to its segments. -/
theorem text_ofValue (e : WrittenEntry) (n : Nat) :
    (Spliced.ofValue (e.entryAt n).value).text = e.plain := by
  have htext : (e.entryAt n).value.text.toList = e.raw := String.toList_ofList
  have hplaces := Spliced.map_places_continued e.segment_plain (e.entryAt n).value.location
  rw [Spliced.map_places _ 0 (e.entryAt n).value.location.line] at hplaces
  show (Spliced.splice 0 _ (e.entryAt n).value.text.toList).1 = e.plain
  rw [htext]
  exact hplaces

theorem text_splicedValue (e : WrittenEntry) (n : Nat) (key : String) :
    (splicedValue key (e.entryAt n).value).text = String.ofList e.plain := by
  show String.ofList (Spliced.ofValue (e.entryAt n).value).text = String.ofList e.plain
  rw [text_ofValue]

end WrittenEntry

/-! ### Occurrences -/

/-- Numbering changes neither what is kept nor what becomes of it. -/
theorem map_filter_numbered {α β γ : Type} {height : α → Nat} {f : Nat × α → β} {p : β → Bool}
    {g : β → γ} {p' : α → Bool} {g' : α → γ} (hp : ∀ n a, p (f (n, a)) = p' a)
    (hg : ∀ n a, g (f (n, a)) = g' a) (n : Nat) (as : List α) :
    (((numbered height n as).map f).filter p).map g = (as.filter p').map g' := by
  induction as generalizing n with
  | nil => rfl
  | cons a as ih =>
    rw [numbered, List.map_cons, List.filter_cons, List.filter_cons, hp]
    split_ifs
    · rw [List.map_cons, List.map_cons, hg, ih]
    · exact ih _

namespace Document

/-- The entries of a key in the sections of a name, in the order in which they are written. -/
def occurrences (doc : List WrittenSection) (group key : String) : List WrittenEntry :=
  (doc.filter fun s => String.ofList s.name == group).flatMap fun s =>
    s.entries.filter fun e => String.ofList e.key == key

/-- What becomes of the values of a key, if their lines do not matter, is what becomes of the
occurrences. -/
theorem map_valuesOf_written {γ : Type} {f : Value → γ} {g : WrittenEntry → γ}
    (h : ∀ n e, f (e.entryAt n).value = g e) (path : Path) (doc : List WrittenSection)
    (group key : String) :
    (UnitFile.valuesOf
      ⟨path, Group.gathered ((sectionsAt 1 doc).map fun p => p.2.sectionAt p.1)⟩ group key).map f =
      (occurrences doc group key).map g := by
  have hentries : ∀ n s, ((WrittenSection.sectionAt n s).valuesOf key).map f =
      (s.entries.filter fun e => String.ofList e.key == key).map g := by
    intro n s
    unfold Group.valuesOf
    rw [List.map_map]
    exact map_filter_numbered (fun _ _ => rfl) h (n + 1) s.entries
  have hsections : (((sectionsAt 1 doc).map fun p => p.2.sectionAt p.1).filter
      (·.name == group)).map (fun s => (s.valuesOf key).map f) =
      (doc.filter fun s => String.ofList s.name == group).map fun s =>
        (s.entries.filter fun e => String.ofList e.key == key).map g :=
    map_filter_numbered (fun _ _ => rfl) hentries 1 doc
  rw [valuesOf_gathered, List.map_flatMap, List.flatMap_def, hsections, occurrences,
    List.map_flatMap, List.flatMap_def]

/-- **The round trip.** A written document is parsed into the groups of its sections, whose lines
are those of the text, and a field that is looked up in them has the segments that were written. -/
theorem round_trip (path : Path) (doc : List WrittenSection) :
    ∃ u, parse path (String.ofList (written doc)) = .ok u ∧ u.path = path ∧
      u.groups = Group.gathered ((sectionsAt 1 doc).map fun p => p.2.sectionAt p.1) ∧
      (∀ p ∈ sectionsAt 1 doc, lineAt? (lines (written doc)) p.1 = some p.2.header ∧
        ∀ q ∈ p.2.entriesAt p.1, lineAt? (lines (written doc)) q.1 = some q.2.line ∧
          (Spliced.ofValue (q.2.entryAt q.1).value).text = q.2.plain) ∧
      ∀ group key multiple,
        (lookup u ⟨group, key, .last, multiple⟩).values.map (·.text) =
          ((occurrences doc group key).map fun e => String.ofList e.plain).getLast?.toList ∧
        (lookup u ⟨group, key, .all, multiple⟩).values.map (·.text) =
          (occurrences doc group key).map fun e => String.ofList e.plain := by
  refine ⟨_, parse_written path doc, rfl, rfl, fun p hp => ?_, fun group key multiple => ?_⟩
  · obtain ⟨hheader, hentries⟩ := lineAt?_written hp
    exact ⟨hheader, fun q hq => ⟨hentries q hq, q.2.text_ofValue q.1⟩⟩
  · set u : UnitFile := ⟨path, Group.gathered ((sectionsAt 1 doc).map fun p => p.2.sectionAt p.1)⟩
    have hspliced : (u.valuesOf group key).map (fun v => (splicedValue key v).text) =
        (occurrences doc group key).map fun e => String.ofList e.plain :=
      map_valuesOf_written (fun n e => e.text_splicedValue n key) path doc group key
    have hreset := sinceReset_of_parsed (parse_written path doc) group key
    refine ⟨?_, ?_⟩
    · show ((u.valuesOf group key).getLast?.map (splicedValue key)).toList.map (·.text) = _
      rw [← hspliced, List.getLast?_map]
      cases (u.valuesOf group key).getLast? <;> rfl
    · show ((sinceReset (u.valuesOf group key)).map (splicedValue key)).map (·.text) = _
      rw [hreset, List.map_map]
      exact hspliced

end Document

/-- An entry that starts on an empty segment and goes on with what is no header and no comment. -/
example : WrittenEntry where
  key := ['k']
  first := []
  more := ["[x]".toList, "# \\".toList, ['.']]
  key_ne_nil := List.cons_ne_nil _ _
  key_plain := by simp
  key_head := by intro c hc; obtain rfl := Option.some.inj hc; decide
  key_last := by intro c hc; obtain rfl := Option.some.inj hc; decide
  segment_plain := by simp
  first_head := by simp
  last_closed := by
    intro s hs c hc
    obtain rfl : ['.'] = s := Option.some.inj hs
    obtain rfl := Option.some.inj hc
    decide
  first_ne_nil := by simp

end UnitLint
