import Mathlib.Data.List.Infix
import UnitLint.Proofs.Lookup.Occurrences
import UnitLint.Proofs.Lookup.Places
import UnitLint.Proofs.Words.Spelling

/-! # Values and their source

The value of an entry was cut out of the lines of its text: without the indentation and the blanks
after the equals sign, and with the lines that continue it. Every character that splicing keeps is
still found at its place in the text (`charAt?_of_mem_places`), and so are the first characters of
the values and words that are looked up (`source_positions`). -/

namespace UnitLint

open Text Statement Words

/-- The character of some lines at a location. -/
def charAt? (ls : List (List Char)) (l : Location) : Option Char :=
  (lineAt? ls l.line).bind fun s => s[l.column]?

/-! ### Lines and their parts -/

section Lines

variable {ls before after : List (List Char)} {l s : List Char} {column : Nat}

theorem newline_notMem_of_prefix (hplain : ∀ l ∈ ls, '\n' ∉ l) (hls : ls = before ++ l :: after)
    (hs : s <+: l.drop column) : '\n' ∉ s := by
  intro h
  have hl : l ∈ ls := by
    rw [hls]
    exact List.mem_append_right before List.mem_cons_self
  exact hplain l hl (List.mem_of_mem_drop (hs.subset h))

/-- Part of a line stands where it was cut out. -/
theorem charAt?_of_mem_zipIdx (hls : ls = before ++ l :: after) (hs : s <+: l.drop column)
    {p : Char × Nat} (hp : p ∈ s.zipIdx column) :
    charAt? ls ⟨before.length + 1, p.2⟩ = some p.1 := by
  have hline : lineAt? ls (before.length + 1) = some l := by
    rw [hls, lineAt?_append_cons]
  obtain ⟨hle, hchar⟩ := List.mem_zipIdx_iff_le_and_getElem?_sub.mp hp
  obtain ⟨hlt, -⟩ := List.getElem?_eq_some_iff.mp hchar
  obtain ⟨t, ht⟩ := hs
  have hcolumn : column + (p.2 - column) = p.2 := by omega
  have happend : (s ++ t)[p.2 - column]? = s[p.2 - column]? := List.getElem?_append_left hlt
  rw [charAt?, hline, Option.bind_some, ← hchar, ← happend, ht, List.getElem?_drop, hcolumn]

/-- **A continued value stands on the lines that it was continued on.** -/
theorem charAt?_of_mem_continuation (hplain : ∀ l ∈ ls, '\n' ∉ l) (hls : ls = before ++ l :: after)
    (hs : s <+: l.drop column) :
    ∀ p ∈ Spliced.places ⟨before.length + 1, column⟩ (joinLines s (continuation s after).1),
      charAt? ls p.2 = some p.1 := by
  -- A line that is not continued is the last one, with no more lines or some.
  have hlast : ∀ {before after : List (List Char)} {l s : List Char} {column : Nat},
      ls = before ++ l :: after → s <+: l.drop column →
      ∀ p ∈ Spliced.places ⟨before.length + 1, column⟩ (joinLines s []),
        charAt? ls p.2 = some p.1 := by
    intro before after l s column hls hs p hp
    have hnewline := newline_notMem_of_prefix hplain hls hs
    rw [joinLines, Spliced.places_append hnewline (by simp), List.mem_append] at hp
    rcases hp with hp | hp
    · obtain ⟨q, hq, rfl⟩ := List.mem_map.mp hp
      exact charAt?_of_mem_zipIdx hls hs hq
    · cases hp
  induction after generalizing before l s column with
  | nil => exact hlast hls hs
  | cons l' after ih =>
    by_cases hc : isContinued s = true
    · obtain ⟨init, rfl⟩ : ∃ init, init ++ ['\\'] = s := by
        refine ⟨s.dropLast, List.dropLast_append_getLast? _ ?_⟩
        exact isContinued_eq_true.mp hc
      have hinit : init <+: l.drop column := (List.prefix_append init _).trans hs
      have hnewline := newline_notMem_of_prefix hplain hls hinit
      have hls' : ls = (before ++ [l]) ++ l' :: after := by
        rw [hls, List.append_assoc, List.singleton_append]
      have htrim : trimEnd l' <+: l'.drop 0 := trimEnd_prefix l'
      have hjoin : joinLines (init ++ ['\\']) (continuation (init ++ ['\\']) (l' :: after)).1 =
          init ++ '\\' :: '\n' :: joinLines (trimEnd l') (continuation (trimEnd l') after).1 := by
        rw [continuation_of_continued hc]
        simp [joinLines]
      intro p hp
      rw [hjoin, Spliced.places_append hnewline (by simp), List.mem_append] at hp
      rcases hp with hp | hp
      · obtain ⟨q, hq, rfl⟩ := List.mem_map.mp hp
        exact charAt?_of_mem_zipIdx hls hinit hq
      · refine ih hls' htrim p ?_
        rw [List.length_append, List.length_singleton]
        exact hp
    · rw [continuation_of_not_continued (by simpa using hc)]
      exact hlast hls hs

end Lines

/-! ### Entries -/

/-- **Every character of a value is found at its place.** -/
theorem charAt?_of_mem_places {path : Path} {text : String} {u : UnitFile}
    (h : parse path text = .ok u) {g : Group} (hg : g ∈ u.groups) {e : Entry} (he : e ∈ g.entries) :
    ∀ p ∈ Spliced.places e.value.location e.value.text.toList,
      charAt? (lines text.toList) p.2 = some p.1 := by
  obtain ⟨s, hs, happend⟩ := exists_append_of_mem h hg he
  obtain ⟨before, l, after, left, right, hstands, -⟩ := exists_standsIn hs happend
  have hplain : ∀ l ∈ lines text.toList, '\n' ∉ l := fun l hl => newline_notMem_of_mem_lines hl
  have hprefix := hstands.value_prefix_drop
  rw [hstands.location_eq] at hprefix
  rw [hstands.text_eq, hstands.location_eq]
  exact charAt?_of_mem_continuation hplain hstands.lines_eq hprefix

/-- Every character of a spliced value is found at its place. -/
theorem charAt?_locate {path : Path} {text : String} {u : UnitFile} (h : parse path text = .ok u)
    {g : Group} (hg : g ∈ u.groups) {e : Entry} (he : e ∈ g.entries) {offset : Nat} {c : Char}
    (hc : (Spliced.ofValue e.value).text[offset]? = some c) :
    charAt? (lines text.toList) ((Spliced.ofValue e.value).locate offset) = some c := by
  have hplace := List.mem_of_getElem? (Spliced.getElem?_places hc)
  exact charAt?_of_mem_places h hg he _ hplace

/-! ### Values that are looked up -/

/-- How a mode reads the words of an occurrence, if it does. -/
def wordReading? : LookupMode → Option (SplitFlags × WordForm)
  | .allStrv => some (.values, .plain)
  | .allArgs => some (.arguments, .plain)
  | .lastArgs => some (.arguments, .plain)
  | .allKeyVal => some (.arguments, .pairs)
  | _ => none

theorem values_of_whole (u : UnitFile) {f : Field} (h : f.mode = .last ∨ f.mode = .all) :
    ∃ os : List Value, os.Sublist (u.valuesOf f.group f.key) ∧
      (lookup u f).values = os.map (splicedValue f.key) := by
  rcases h with hmode | hmode
  · refine ⟨_, getLast?_toList_sublist _, ?_⟩
    rw [lookup, hmode]
    show ((u.valuesOf f.group f.key).getLast?.map (splicedValue f.key)).toList = _
    cases (u.valuesOf f.group f.key).getLast? <;> rfl
  · refine ⟨_, sinceReset_sublist _, ?_⟩
    rw [lookup, hmode]
    rfl

theorem lookup_of_words (u : UnitFile) {f : Field} {flags : SplitFlags} {form : WordForm}
    (h : wordReading? f.mode = some (flags, form)) :
    flags.separateEach = false ∧ ∃ os : List Value, os.Sublist (u.valuesOf f.group f.key) ∧
      lookup u f = splitValues flags form f.key os := by
  obtain ⟨group, key, mode, multiple⟩ := f
  cases mode <;> cases h
  case allStrv => exact ⟨rfl, _, sinceReset_sublist _, rfl⟩
  case allArgs => exact ⟨rfl, _, sinceReset_sublist _, rfl⟩
  case lastArgs => exact ⟨rfl, _, getLast?_toList_sublist _, rfl⟩
  case allKeyVal => exact ⟨rfl, _, sinceReset_sublist _, rfl⟩

/-- The words of a spliced value are spelled in it, and their values stand in the lines where the
spellings start. -/
def WordsStand (ls : List (List Char)) (flags : SplitFlags) (form : WordForm) (key : String)
    (s : Spliced) (ws : List Word) : Prop :=
  Spelled flags whitespace 0 s.text ws ∧
    ∀ w ∈ ws, ∃ c, s.text[w.offset]? = some c ∧ whitespace.contains c = false ∧
      ∀ v ∈ wordValue? form key s w, v.location = s.locate w.offset ∧ charAt? ls v.location = some c

theorem location_of_wordValue? {form : WordForm} {key : String} {s : Spliced} {w : Word} {v : Value}
    (h : v ∈ wordValue? form key s w) : v.location = s.locate w.offset := by
  cases form with
  | plain =>
    obtain rfl := Option.some.inj h
    rfl
  | pairs =>
    obtain ⟨_, -, rfl⟩ := Option.map_eq_some_iff.mp h
    rfl

/-- The words of a value stand where they are spelled, if its characters do. -/
theorem wordsStand {ls : List (List Char)} {flags : SplitFlags}
    (hflags : flags.separateEach = false) {v : Value}
    (h : ∀ offset c, (Spliced.ofValue v).text[offset]? = some c →
      charAt? ls ((Spliced.ofValue v).locate offset) = some c) (form : WordForm) (key : String) :
    WordsStand ls flags form key (Spliced.ofValue v)
      (words flags whitespace (Spliced.ofValue v).text).1 := by
  have hspelled := spelled_words hflags whitespace (Spliced.ofValue v).text
  refine ⟨hspelled, fun w hw => ?_⟩
  obtain ⟨i, c, hoffset, hchar, hc⟩ := hspelled.getElem? hw
  rw [Nat.zero_add] at hoffset
  rw [← hoffset] at hchar
  refine ⟨c, hchar, hc, fun v hv => ?_⟩
  have hlocation := location_of_wordValue? hv
  exact ⟨hlocation, hlocation ▸ h w.offset c hchar⟩

/-- **Values stand where they are written.** In a text that is parsed, every character of a spliced
value is found at the place of its offset. So a value that is looked up as a whole stands where its
first character is, and one that is looked up as a word stands where the word is spelled. -/
theorem source_positions {path : Path} {text : String} {u : UnitFile}
    (h : parse path text = .ok u) :
    (∀ g ∈ u.groups, ∀ e ∈ g.entries, ∀ offset c,
      (Spliced.ofValue e.value).text[offset]? = some c →
        charAt? (lines text.toList) ((Spliced.ofValue e.value).locate offset) = some c) ∧
    (∀ f : Field, f.mode = .last ∨ f.mode = .all →
      ∃ os : List Value, os.Sublist (u.valuesOf f.group f.key) ∧
        (lookup u f).values = os.map (fun o => ⟨f.key, String.ofList (Spliced.ofValue o).text,
          (Spliced.ofValue o).locate 0⟩) ∧
        ∀ o ∈ os, ∀ c ∈ (Spliced.ofValue o).text.head?,
          charAt? (lines text.toList) ((Spliced.ofValue o).locate 0) = some c) ∧
    ∀ (f : Field) (flags : SplitFlags) (form : WordForm), wordReading? f.mode = some (flags, form) →
      ∃ os : List (Value × List Word), (os.map (·.1)).Sublist (u.valuesOf f.group f.key) ∧
        (lookup u f).values =
          os.flatMap (fun o => o.2.filterMap (wordValue? form f.key (Spliced.ofValue o.1))) ∧
        ∀ o ∈ os, WordsStand (lines text.toList) flags form f.key (Spliced.ofValue o.1) o.2 := by
  have hoccurrence : ∀ group key, ∀ v ∈ u.valuesOf group key, ∀ offset c,
      (Spliced.ofValue v).text[offset]? = some c →
        charAt? (lines text.toList) ((Spliced.ofValue v).locate offset) = some c := by
    intro group key v hv offset c hc
    obtain ⟨g, hg, e, he, rfl⟩ := exists_entry_of_mem_valuesOf hv
    exact charAt?_locate h hg he hc
  refine ⟨fun g hg e he offset c hc => charAt?_locate h hg he hc, fun f hmode => ?_,
    fun f flags form hreading => ?_⟩
  · obtain ⟨os, hos, hvalues⟩ := values_of_whole u hmode
    refine ⟨os, hos, hvalues, fun o ho c hc => ?_⟩
    refine hoccurrence f.group f.key o (hos.subset ho) 0 c ?_
    rwa [← List.head?_eq_getElem?]
  · obtain ⟨hflags, os, hos, hvalues⟩ := lookup_of_words u hreading
    refine ⟨os.map fun o => (o, (words flags whitespace (Spliced.ofValue o).text).1), ?_, ?_, ?_⟩
    · rwa [List.map_map, Function.comp_def, List.map_id']
    · rw [hvalues]
      show (os.map (splitValue flags form f.key)).flatMap (·.values) = _
      rw [List.flatMap_map, List.flatMap_map]
      rfl
    · intro p hp
      obtain ⟨o, ho, rfl⟩ := List.mem_map.mp hp
      exact wordsStand hflags (hoccurrence f.group f.key o (hos.subset ho)) form f.key

/-- Words after indentation and an empty segment, and on two lines. -/
theorem source_positions_continued :
    let text := "[A]\n  k = \\\n   \\\n x 'y\\\n z'\n"
    let v : Value := ⟨"k", "\\\n   \\\n x 'y\\\n z'", ⟨2, 6⟩⟩
    let u : UnitFile := ⟨⟨"a.pod"⟩, [⟨"A", 1, [⟨"k", 2, v⟩]⟩]⟩
    parse ⟨"a.pod"⟩ text = .ok u ∧
      (lookup u ⟨"A", "k", .allArgs, true⟩).values = [⟨"k", "x", ⟨4, 1⟩⟩, ⟨"k", "y z", ⟨4, 3⟩⟩] ∧
      ∀ offset c, (Spliced.ofValue v).text[offset]? = some c →
        charAt? (lines text.toList) ((Spliced.ofValue v).locate offset) = some c := by
  intro text v u
  have hparse : parse ⟨"a.pod"⟩ text = .ok u := by decide +kernel
  refine ⟨hparse, by decide +kernel, fun offset c hc => ?_⟩
  exact (source_positions hparse).1 _ (List.mem_singleton.mpr rfl) _ (List.mem_singleton.mpr rfl)
    offset c hc

end UnitLint
