import UnitLint.Proofs.Lookup.Places

/-! # The characters that splicing keeps

Of a raw text, splicing keeps the characters at all positions but those of a backslash right before
a line feed and of that line feed (`sources`). Such pairs cannot overlap, so no reading order is
needed to say which they are. Each character that is kept stands where reading the raw text up to it
leads to (`places_eq`). -/

namespace UnitLint

namespace Location

/-- The place after a character. -/
def next (l : Location) (c : Char) : Location :=
  if c = '\n' then ⟨l.line + 1, 0⟩ else ⟨l.line, l.column + 1⟩

/-- The place after some characters. -/
def advance (l : Location) (s : List Char) : Location := s.foldl next l

/-- Each line feed leads to the next line. -/
theorem line_advance (l : Location) (s : List Char) :
    (l.advance s).line = l.line + s.count '\n' := by
  induction s generalizing l with
  | nil => rfl
  | cons c s ih =>
    show ((l.next c).advance s).line = _
    rw [ih, next, List.count_cons]
    by_cases hc : c = '\n'
    · simp only [hc, if_pos, beq_self_eq_true]
      omega
    · simp [hc]

end Location

namespace Spliced

/-- Whether a backslash stands at a position, and a line feed right after it. -/
def isPairAt (s : List Char) (i : Nat) : Bool := ['\\', '\n'].isPrefixOf (s.drop i)

/-- Whether the character at a position belongs to such a pair, as the first or second of it. -/
def inPair (s : List Char) : Nat → Bool
  | 0 => isPairAt s 0
  | i + 1 => isPairAt s (i + 1) || isPairAt s i

/-- The positions of the characters that belong to no pair. -/
def sources (s : List Char) : List Nat := (List.range s.length).filter fun i => !inPair s i

theorem isPairAt_zero_eq_true {s : List Char} :
    isPairAt s 0 = true ↔ ∃ t, s = '\\' :: '\n' :: t := by
  rw [isPairAt, List.drop_zero, List.isPrefixOf_iff_prefix]
  exact ⟨fun ⟨t, ht⟩ => ⟨t, ht.symm⟩, fun ⟨t, ht⟩ => ⟨t, ht.symm⟩⟩

theorem isPairAt_zero_of_kept {c : Char} {s : List Char} (h : c = '\\' → s.head? ≠ some '\n') :
    isPairAt (c :: s) 0 = false := by
  refine Bool.eq_false_iff.mpr fun hpair => ?_
  obtain ⟨t, ht⟩ := isPairAt_zero_eq_true.mp hpair
  obtain ⟨rfl, rfl⟩ := List.cons.inj ht
  exact h rfl rfl

/-- A character in front that starts no pair does not change which characters belong to one. -/
theorem inPair_succ {c : Char} {s : List Char} (h : c = '\\' → s.head? ≠ some '\n') (i : Nat) :
    inPair (c :: s) (i + 1) = inPair s i := by
  cases i with
  | zero =>
    show (isPairAt s 0 || isPairAt (c :: s) 0) = isPairAt s 0
    rw [isPairAt_zero_of_kept h, Bool.or_false]
  | succ i => rfl

/-- The numbers below a successor that pass a test: zero, if it does, and the successors that do. -/
theorem filter_range_succ (p : Nat → Bool) (n : Nat) : (List.range (n + 1)).filter p =
    (if p 0 then [0] else []) ++ ((List.range n).filter fun i => p (i + 1)).map (· + 1) := by
  rw [List.range_succ_eq_map, List.filter_cons, List.filter_map]
  cases p 0 <;> rfl

theorem sources_of_kept {c : Char} {s : List Char} (h : c = '\\' → s.head? ≠ some '\n') :
    sources (c :: s) = 0 :: (sources s).map (· + 1) := by
  have hfirst : inPair (c :: s) 0 = false := isPairAt_zero_of_kept h
  rw [sources, List.length_cons, filter_range_succ, hfirst]
  simp only [inPair_succ h]
  rfl

theorem sources_pair (s : List Char) :
    sources ('\\' :: '\n' :: s) = (sources s).map (· + 2) := by
  have hrest : ∀ i, inPair ('\\' :: '\n' :: s) (i + 1 + 1) = inPair s i := fun i =>
    inPair_succ (c := '\n') (fun h => absurd h (by decide)) i
  rw [sources, List.length_cons, List.length_cons, filter_range_succ, filter_range_succ]
  simp only [hrest]
  show (((List.range s.length).filter fun i => !inPair s i).map (· + 1)).map (· + 1) = _
  rw [List.map_map]
  rfl

/-- **The characters that are kept, and their places**, told from their positions. -/
theorem places_eq (l : Location) (s : List Char) :
    (places l s).map (fun p => (some p.1, p.2)) =
      (sources s).map fun i => (s[i]?, l.advance (s.take i)) := by
  induction s using kept_cases generalizing l with
  | nil => rfl
  | pair s ih =>
    rw [sources_pair, List.map_map]
    exact ih ⟨l.line + 1, 0⟩
  | newline s ih =>
    rw [sources_of_kept fun h => absurd h (by decide), List.map_cons, List.map_map]
    exact congrArg _ (ih ⟨l.line + 1, 0⟩)
  | kept c s hc hs ih =>
    have hnext : l.next c = ⟨l.line, l.column + 1⟩ := if_neg hc
    rw [places_of_kept hc hs, sources_of_kept hs, List.map_cons, List.map_cons, List.map_map, ih,
      ← hnext]
    rfl

/-! ### Spliced values -/

/-- **The spliced text** is the raw one without its pairs. -/
theorem map_text_ofValue (v : Value) : (ofValue v).text.map some =
    (sources v.text.toList).map fun i => v.text.toList[i]? := by
  have htext : (ofValue v).text = (places v.location v.text.toList).map (·.1) :=
    (map_places v.location 0 v.location.line v.text.toList).symm
  have hfirst := congrArg (List.map Prod.fst) (places_eq v.location v.text.toList)
  rw [List.map_map, List.map_map] at hfirst
  rw [htext, List.map_map]
  exact hfirst

/-- **Each character of the spliced text stands where it is in the raw one.** -/
theorem exists_source (v : Value) {offset : Nat} (h : offset < (ofValue v).text.length) :
    ∃ i, (sources v.text.toList)[offset]? = some i ∧
      (ofValue v).text[offset]? = v.text.toList[i]? ∧
      (ofValue v).locate offset = v.location.advance (v.text.toList.take i) := by
  obtain ⟨c, hc⟩ : ∃ c, (ofValue v).text[offset]? = some c := ⟨_, List.getElem?_eq_getElem h⟩
  have hplace := congrArg (·[offset]?) (places_eq v.location v.text.toList)
  simp only [List.getElem?_map, getElem?_places hc, Option.map_some] at hplace
  obtain ⟨i, hi, hsource⟩ := Option.map_eq_some_iff.mp hplace.symm
  obtain ⟨hchar, hlocate⟩ := Prod.mk.inj hsource
  exact ⟨i, hi, hc.trans hchar.symm, hlocate.symm⟩

end Spliced

end UnitLint
