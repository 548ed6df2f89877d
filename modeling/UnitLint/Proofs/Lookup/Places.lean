import Mathlib.Data.List.Basic
import UnitLint.Lookup.Splice

/-! # The places of spliced characters

A raw value is laid out from its location: a line feed goes to the start of the next line, any other
character to the next column, and a backslash before a line feed is dropped together with it. The
characters that are kept, each with its place, are `places`. They make up the spliced text
(`map_places`), and from the anchors the place of each of them is found again
(`getElem?_places`). -/

namespace UnitLint

namespace Spliced

/-- The characters of a raw text that are kept, each with its place, from a location on. -/
def places (l : Location) : List Char → List (Char × Location)
  | [] => []
  | '\\' :: '\n' :: s => places ⟨l.line + 1, 0⟩ s
  | '\n' :: s => ('\n', l) :: places ⟨l.line + 1, 0⟩ s
  | c :: s => (c, l) :: places ⟨l.line, l.column + 1⟩ s

/-! ### Characters that are kept -/

theorem places_of_kept {c : Char} {s : List Char} (h : c ≠ '\n')
    (h' : c = '\\' → s.head? ≠ some '\n') (l : Location) :
    places l (c :: s) = (c, l) :: places ⟨l.line, l.column + 1⟩ s := by
  rw [places.eq_4]
  · rintro t hc rfl
    exact h' hc rfl
  · exact h

theorem splice_of_kept {c : Char} {s : List Char} (h : c ≠ '\n')
    (h' : c = '\\' → s.head? ≠ some '\n') (offset line : Nat) : splice offset line (c :: s) =
      (c :: (splice (offset + 1) line s).1, (splice (offset + 1) line s).2) := by
  rw [splice.eq_4]
  · rintro t hc rfl
    exact h' hc rfl
  · exact h

theorem splice_pair (offset line : Nat) (s : List Char) : splice offset line ('\\' :: '\n' :: s) =
    ((splice offset (line + 1) s).1,
      ⟨offset, ⟨line + 1, 0⟩⟩ :: (splice offset (line + 1) s).2) := rfl

theorem splice_newline (offset line : Nat) (s : List Char) : splice offset line ('\n' :: s) =
    ('\n' :: (splice (offset + 1) (line + 1) s).1,
      ⟨offset + 1, ⟨line + 1, 0⟩⟩ :: (splice (offset + 1) (line + 1) s).2) := rfl

/-- A text is empty, or starts with a pair that is dropped, a line feed, or another character that
is kept. -/
theorem kept_cases {motive : List Char → Prop} (nil : motive [])
    (pair : ∀ s, motive s → motive ('\\' :: '\n' :: s))
    (newline : ∀ s, motive s → motive ('\n' :: s))
    (kept : ∀ c s, c ≠ '\n' → (c = '\\' → s.head? ≠ some '\n') → motive s → motive (c :: s)) :
    ∀ s, motive s := by
  refine fun s => places.induct (fun _ s => motive s) (fun _ => nil) (fun _ s => pair s)
    (fun _ s => newline s) (fun _ c s hpair hnewline ih => ?_) ⟨0, 0⟩ s
  refine kept c s hnewline (fun hc hs => ?_) ih
  obtain ⟨t, rfl⟩ := List.head?_eq_some_iff.mp hs
  exact hpair t hc rfl

/-- The characters that are kept are the spliced text. -/
theorem map_places (l : Location) (offset line : Nat) (s : List Char) :
    (places l s).map (·.1) = (splice offset line s).1 := by
  induction s using kept_cases generalizing l offset line with
  | nil => rfl
  | pair s ih => exact ih _ _ _
  | newline s ih =>
    rw [splice_newline, ← ih ⟨l.line + 1, 0⟩]
    rfl
  | kept c s hc hs ih => rw [places_of_kept hc hs, splice_of_kept hc hs, List.map_cons, ih]

/-- Characters on one line stand in consecutive columns. -/
theorem places_append {s : List Char} (hs : '\n' ∉ s) {t : List Char} (ht : t.head? ≠ some '\n')
    (l : Location) : places l (s ++ t) =
      (s.zipIdx l.column).map (fun p => (p.1, ⟨l.line, p.2⟩)) ++
        places ⟨l.line, l.column + s.length⟩ t := by
  induction s generalizing l with
  | nil => rfl
  | cons c s ih =>
    have hc : c ≠ '\n' := fun h => hs (h ▸ List.mem_cons_self)
    have hs' : '\n' ∉ s := fun h => hs (List.mem_cons_of_mem c h)
    have hhead : (s ++ t).head? ≠ some '\n' := by
      rcases s with _ | ⟨d, s⟩
      · exact ht
      · intro h
        obtain rfl : d = '\n' := Option.some.inj h
        exact hs' List.mem_cons_self
    have hcolumn : l.column + 1 + s.length = l.column + (c :: s).length := by
      rw [List.length_cons]
      omega
    rw [List.cons_append, places_of_kept hc fun _ => hhead, ih hs', List.zipIdx_cons, List.map_cons,
      List.cons_append]
    dsimp only
    rw [hcolumn]

/-- The lines of a continued value, without the marks and line feeds between them. -/
theorem map_places_continued {s : List Char} {ss : List (List Char)} (h : ∀ t ∈ s :: ss, '\n' ∉ t)
    (l : Location) : (places l (s ++ ss.flatMap fun t => '\\' :: '\n' :: t)).map (·.1) =
      s ++ ss.flatten := by
  induction ss generalizing s l with
  | nil =>
    rw [List.flatMap_nil, places_append (h s List.mem_cons_self) (by simp) l]
    simp [places, Function.comp_def]
  | cons t ss ih =>
    have hpair : ∀ l s, places l ('\\' :: '\n' :: t ++ s) = places ⟨l.line + 1, 0⟩ (t ++ s) :=
      fun _ _ => rfl
    rw [List.flatMap_cons, places_append (h s List.mem_cons_self) (by simp) l, hpair,
      List.map_append, ih fun u hu => h u (List.mem_cons_of_mem s hu)]
    simp [Function.comp_def]

/-! ### Anchors -/

theorem le_of_mem_splice {offset line : Nat} {s : List Char} {b : Anchor}
    (h : b ∈ (splice offset line s).2) : offset ≤ b.offset := by
  induction s using kept_cases generalizing offset line with
  | nil => cases h
  | pair s ih =>
    rw [splice_pair] at h
    rcases List.mem_cons.mp h with rfl | h
    · exact Nat.le_refl offset
    · exact ih h
  | newline s ih =>
    rw [splice_newline] at h
    rcases List.mem_cons.mp h with rfl | h
    · exact Nat.le_succ offset
    · exact Nat.le_of_succ_le (ih h)
  | kept c s hc hs ih =>
    rw [splice_of_kept hc hs] at h
    exact Nat.le_of_succ_le (ih h)

/-- The place of an offset by anchors that come after a first one. -/
def locateAfter (a : Anchor) (anchors : List Anchor) (offset : Nat) : Location :=
  let b := ((anchors.takeWhile (·.offset ≤ offset)).getLast?).getD a
  ⟨b.location.line, b.location.column + (offset - b.offset)⟩

theorem locateAfter_cons {b : Anchor} {offset : Nat} (h : b.offset ≤ offset) (a : Anchor)
    (anchors : List Anchor) :
    locateAfter a (b :: anchors) offset = locateAfter b anchors offset := by
  unfold locateAfter
  rw [List.takeWhile_cons_of_pos (by simpa using h), List.getLast?_cons]
  rfl

theorem locateAfter_of_lt {anchors : List Anchor} {offset : Nat}
    (h : ∀ b ∈ anchors, offset < b.offset) (a : Anchor) : locateAfter a anchors offset =
      ⟨a.location.line, a.location.column + (offset - a.offset)⟩ := by
  have hnil : anchors.takeWhile (·.offset ≤ offset) = [] := by
    rcases anchors with _ | ⟨b, anchors⟩
    · rfl
    · have := h b List.mem_cons_self
      exact List.takeWhile_cons_of_neg (by simpa using this)
  unfold locateAfter
  rw [hnil]
  rfl

/-- The anchors set from an offset on find the places of the characters from there on. -/
theorem locateAfter_splice {a : Anchor} {offset line : Nat} {s : List Char} {i : Nat} {c : Char}
    {p : Location} (ha : a.offset ≤ offset) (hline : a.location.line = line)
    (h : (places ⟨line, a.location.column + (offset - a.offset)⟩ s)[i]? = some (c, p)) :
    locateAfter a (splice offset line s).2 (offset + i) = p := by
  induction s using kept_cases generalizing a offset line i with
  | nil => cases h
  | pair s ih =>
    rw [splice_pair, locateAfter_cons (Nat.le_add_right offset i)]
    exact ih (Nat.le_refl offset) rfl (by rw [Nat.sub_self]; exact h)
  | newline s ih =>
    rw [splice_newline]
    rcases i with _ | i
    · have hp : '\n' = c ∧ ⟨line, a.location.column + (offset - a.offset)⟩ = p := by
        simpa [places] using h
      rw [locateAfter_of_lt, ← hp.2, hline]
      · rfl
      · intro b hb
        rcases List.mem_cons.mp hb with rfl | hb
        · exact Nat.lt_succ_self offset
        · exact le_of_mem_splice hb
    · have hi : offset + (i + 1) = offset + 1 + i := by omega
      rw [hi, locateAfter_cons (Nat.le_add_right (offset + 1) i)]
      exact ih (Nat.le_refl (offset + 1)) rfl (by rw [Nat.sub_self]; exact h)
  | kept d s hd hs ih =>
    rw [splice_of_kept hd hs]
    rw [places_of_kept hd hs] at h
    rcases i with _ | i
    · have hp : d = c ∧ ⟨line, a.location.column + (offset - a.offset)⟩ = p := by
        simpa using h
      rw [locateAfter_of_lt, ← hp.2, hline]
      · rfl
      · exact fun b hb => le_of_mem_splice hb
    · have hi : offset + (i + 1) = offset + 1 + i := by omega
      have hcolumn : a.location.column + (offset - a.offset) + 1 =
          a.location.column + (offset + 1 - a.offset) := by omega
      rw [hi]
      refine ih (by omega) hline ?_
      rw [← hcolumn]
      exact h

/-- **The map from offsets to places**: the character at an offset of the spliced text is kept from
the place that is found for the offset. -/
theorem getElem?_places {v : Value} {offset : Nat} {c : Char}
    (h : (ofValue v).text[offset]? = some c) :
    (places v.location v.text.toList)[offset]? = some (c, (ofValue v).locate offset) := by
  have htext : (ofValue v).text = (places v.location v.text.toList).map (·.1) :=
    (map_places v.location 0 v.location.line v.text.toList).symm
  rw [htext, List.getElem?_map] at h
  obtain ⟨⟨d, p⟩, hp, rfl⟩ := Option.map_eq_some_iff.mp h
  have hlocate : locateAfter ⟨0, v.location⟩ (splice 0 v.location.line v.text.toList).2
      (0 + offset) = p := locateAfter_splice (Nat.le_refl 0) rfl hp
  rw [Nat.zero_add] at hlocate
  rw [hp, ← hlocate]
  rfl

end Spliced

end UnitLint
