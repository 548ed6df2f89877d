import UnitLint.Proofs.Lookup.Source
import UnitLint.Proofs.Words.Offsets

/-! # The order of what is looked up

The places of a spliced value ascend with the offsets, and lie on the lines that the value takes up
(`locate_precedes`, `line_locate`). Its words come one after another, and so does a failure after
them. So the values of a field that is looked up in all its occurrences come in the order of the
text, each issue after the words of its occurrence and before those of the next
(`lookup_ordered`). -/

namespace UnitLint

open Text Words

/-! ### Places of a spliced value -/

/-- The first place comes before the second. -/
def Location.Precedes (a b : Location) : Prop :=
  a.line < b.line ∨ a.line = b.line ∧ a.column < b.column

instance (a b : Location) : Decidable (a.Precedes b) := by
  unfold Location.Precedes; infer_instance

namespace Spliced

/-- Each line feed sets an anchor, on the next line. -/
theorem lines_splice (offset line : Nat) (s : List Char) :
    (splice offset line s).2.map (·.location.line) = List.range' (line + 1) (s.count '\n') := by
  induction s using kept_cases generalizing offset line with
  | nil => rfl
  | pair s ih =>
    rw [splice_pair, List.map_cons, ih, List.count_cons_of_ne (by decide), List.count_cons_self,
      List.range'_succ]
  | newline s ih =>
    rw [splice_newline, List.map_cons, ih, List.count_cons_self, List.range'_succ]
  | kept c s hc hs ih => rw [splice_of_kept hc hs, ih, List.count_cons_of_ne hc]

/-- The first anchor is no later than the second, and on an earlier line. -/
def AnchorBefore (a b : Anchor) : Prop := a.offset ≤ b.offset ∧ a.location.line < b.location.line

theorem offsets_splice (offset line : Nat) (s : List Char) :
    (splice offset line s).2.Pairwise fun a b => a.offset ≤ b.offset := by
  induction s using kept_cases generalizing offset line with
  | nil => exact List.Pairwise.nil
  | pair s ih => exact List.pairwise_cons.mpr ⟨fun b hb => le_of_mem_splice hb, ih _ _⟩
  | newline s ih => exact List.pairwise_cons.mpr ⟨fun b hb => le_of_mem_splice hb, ih _ _⟩
  | kept c s hc hs ih =>
    rw [splice_of_kept hc hs]
    exact ih _ _

theorem line_of_mem_splice {offset line : Nat} {s : List Char} {b : Anchor}
    (h : b ∈ (splice offset line s).2) :
    line < b.location.line ∧ b.location.line ≤ line + s.count '\n' := by
  have hline := List.mem_map_of_mem (f := fun b : Anchor => b.location.line) h
  rw [lines_splice, List.mem_range'] at hline
  obtain ⟨k, hk, hb⟩ := hline
  omega

/-- The anchors of a value come one after another, and after its start. -/
theorem anchors_ordered (v : Value) :
    (⟨0, v.location⟩ :: (ofValue v).anchors).Pairwise AnchorBefore := by
  have hlines : (ofValue v).anchors.Pairwise fun a b => a.location.line < b.location.line := by
    have := List.pairwise_lt_range' (s := v.location.line + 1)
      (n := v.text.toList.count '\n')
    rwa [← lines_splice 0, List.pairwise_map] at this
  refine List.pairwise_cons.mpr ⟨fun b hb => ⟨Nat.zero_le _, (line_of_mem_splice hb).1⟩, ?_⟩
  exact (offsets_splice 0 v.location.line v.text.toList).and hlines

/-- The place of an offset is counted from one of the anchors. -/
theorem exists_locateAfter_eq (a : Anchor) (anchors : List Anchor) (offset : Nat) :
    ∃ b ∈ a :: anchors, locateAfter a anchors offset =
      ⟨b.location.line, b.location.column + (offset - b.offset)⟩ := by
  unfold locateAfter
  cases hlast : (anchors.takeWhile (·.offset ≤ offset)).getLast? with
  | none => exact ⟨a, List.mem_cons_self, rfl⟩
  | some b =>
    have hb := (List.takeWhile_prefix _).subset (List.mem_of_getLast? hlast)
    exact ⟨b, List.mem_cons_of_mem a hb, rfl⟩

/-- Places ascend with the offsets. -/
theorem locateAfter_precedes {a : Anchor} {anchors : List Anchor} {i j : Nat} (ha : a.offset ≤ i)
    (hij : i < j) (h : (a :: anchors).Pairwise AnchorBefore) :
    (locateAfter a anchors i).Precedes (locateAfter a anchors j) := by
  induction anchors generalizing a with
  | nil =>
    refine Or.inr ⟨rfl, ?_⟩
    show a.location.column + (i - a.offset) < a.location.column + (j - a.offset)
    omega
  | cons b anchors ih =>
    obtain ⟨hfirst, hrest⟩ := List.pairwise_cons.mp h
    by_cases hi : b.offset ≤ i
    · rw [locateAfter_cons hi, locateAfter_cons (by omega)]
      exact ih hi hrest
    · have hlater : ∀ c ∈ b :: anchors, b.offset ≤ c.offset := by
        intro c hc
        rcases List.mem_cons.mp hc with rfl | hc
        · exact Nat.le_refl _
        · exact ((List.pairwise_cons.mp hrest).1 c hc).1
      have hi' : ∀ c ∈ b :: anchors, i < c.offset := fun c hc => by
        have := hlater c hc
        omega
      rw [locateAfter_of_lt hi']
      by_cases hj : b.offset ≤ j
      · obtain ⟨c, hc, hlocate⟩ := exists_locateAfter_eq b anchors j
        rw [locateAfter_cons hj, hlocate]
        exact Or.inl (hfirst c hc).2
      · have hj' : ∀ c ∈ b :: anchors, j < c.offset := fun c hc => by
          have := hlater c hc
          omega
        rw [locateAfter_of_lt hj']
        exact Or.inr ⟨rfl, by dsimp only; omega⟩

/-- **Later characters of a spliced value stand at later places.** -/
theorem locate_precedes (v : Value) {i j : Nat} (h : i < j) :
    ((ofValue v).locate i).Precedes ((ofValue v).locate j) :=
  locateAfter_precedes (Nat.zero_le i) h (anchors_ordered v)

/-- **The places of a spliced value lie on the lines that the value takes up.** -/
theorem line_locate (v : Value) (offset : Nat) :
    v.location.line ≤ ((ofValue v).locate offset).line ∧
      ((ofValue v).locate offset).line ≤ v.lastLine := by
  obtain ⟨b, hb, hlocate⟩ := exists_locateAfter_eq ⟨0, v.location⟩ (ofValue v).anchors offset
  have hline : ((ofValue v).locate offset).line = b.location.line := by
    show (locateAfter ⟨0, v.location⟩ (ofValue v).anchors offset).line = _
    rw [hlocate]
  rw [hline, Value.lastLine]
  rcases List.mem_cons.mp hb with rfl | hb
  · exact ⟨Nat.le_refl _, Nat.le_add_right _ _⟩
  · obtain ⟨hlt, hle⟩ := line_of_mem_splice hb
    exact ⟨Nat.le_of_lt hlt, hle⟩

end Spliced

/-! ### One occurrence -/

/-- The places of the values, and after them those of the issues. -/
def Resolution.locations (r : Resolution) : List Location :=
  r.values.map (·.location) ++ r.issues.map (·.location)

/-- The values of words stand where the words start, or there are none of them. -/
theorem locations_filterMap_sublist (form : WordForm) (key : String) (s : Spliced)
    (ws : List Word) : ((ws.filterMap (wordValue? form key s)).map (·.location)).Sublist
      ((ws.map (·.offset)).map s.locate) := by
  induction ws with
  | nil => exact List.Sublist.slnil
  | cons w ws ih =>
    cases hv : wordValue? form key s w with
    | none =>
      rw [List.filterMap_cons_none hv]
      exact ih.cons _
    | some v =>
      rw [List.filterMap_cons_some hv, List.map_cons, location_of_wordValue? hv]
      exact ih.cons_cons _

/-- What the occurrence resolves to comes in order, on the lines of the occurrence, with at most one
issue, which comes last. -/
structure Value.Ordered (o : Value) (r : Resolution) : Prop where
  ascending : r.locations.Pairwise Location.Precedes
  within : ∀ l ∈ r.locations, o.location.line ≤ l.line ∧ l.line ≤ o.lastLine
  issues_le : r.issues.length ≤ 1

theorem Value.ordered_singleton {o v : Value} (h : o.location.line ≤ v.location.line)
    (h' : v.location.line ≤ o.lastLine) : o.Ordered ⟨[v], []⟩ := by
  refine ⟨List.pairwise_singleton _ _, fun l hl => ?_, Nat.zero_le 1⟩
  obtain rfl := List.mem_singleton.mp hl
  exact ⟨h, h'⟩

/-- What the words of an occurrence resolve to, and the issue after them, stand at their offsets. -/
theorem locations_splitValue_sublist (flags : SplitFlags) (form : WordForm) (key : String)
    (o : Value) : (splitValue flags form key o).locations.Sublist
      ((offsets (words flags whitespace (Spliced.ofValue o).text)).map
        (Spliced.ofValue o).locate) := by
  have hissues : (splitValue flags form key o).issues.map (·.location) =
      ((words flags whitespace (Spliced.ofValue o).text).2.toList.map (·.offset)).map
        (Spliced.ofValue o).locate := by
    rw [List.map_map]
    exact List.map_map
  rw [offsets, List.map_append, ← hissues]
  exact (locations_filterMap_sublist form key _ _).append_right _

/-- **The words of an occurrence come one after another, and an issue after them.** -/
theorem ordered_splitValue {flags : SplitFlags} (h : flags.separateEach = false) (form : WordForm)
    (key : String) (o : Value) : o.Ordered (splitValue flags form key o) := by
  have hsublist := locations_splitValue_sublist flags form key o
  refine ⟨List.Pairwise.sublist hsublist (List.pairwise_map.mpr ?_), fun l hl => ?_, ?_⟩
  · exact (offsets_ordered h whitespace _).1.imp fun hij => Spliced.locate_precedes o hij
  · obtain ⟨offset, -, rfl⟩ := List.mem_map.mp (hsublist.subset hl)
    exact Spliced.line_locate o offset
  · show (List.map _ _).length ≤ 1
    rw [List.length_map]
    exact Option.length_toList_le

/-! ### All occurrences -/

theorem splitValues_eq (flags : SplitFlags) (form : WordForm) (key : String) (os : List Value) :
    splitValues flags form key os = ⟨os.flatMap fun o => (splitValue flags form key o).values,
      os.flatMap fun o => (splitValue flags form key o).issues⟩ := by
  rw [splitValues, List.flatMap_map, List.flatMap_map]

namespace LookupMode

/-- The modes that may find many values. -/
def many : List LookupMode := [allRaw, all, allStrv, allArgs, lastArgs, allKeyVal]

/-- The occurrences that such a mode reads, if none is empty. -/
def taken (mode : LookupMode) (os : List Value) : List Value :=
  if mode = lastArgs then os.getLast?.toList else os

/-- **What occurrences resolve to is what each of them resolves to**, one after another. -/
theorem exists_resolve_eq {mode : LookupMode} (h : mode ∈ many) (key : String) :
    ∃ one : Value → Resolution, (∀ o : Value, o.Ordered (one o)) ∧
      ∀ os : List Value, sinceReset os = os → mode.resolve key os =
        ⟨(mode.taken os).flatMap fun o => (one o).values,
          (mode.taken os).flatMap fun o => (one o).issues⟩ := by
  have hvalues : SplitFlags.values.separateEach = false := rfl
  have harguments : SplitFlags.arguments.separateEach = false := rfl
  have hone : ∀ (f : Value → Value) (os : List Value),
      (⟨os.map f, []⟩ : Resolution) = ⟨os.flatMap fun o => [f o], os.flatMap fun _ => []⟩ := by
    intro f os
    rw [List.map_eq_flatMap, List.flatMap_eq_nil_iff.mpr fun _ _ => rfl]
  cases mode with
  | lastRaw | last | base | boolean | int => simp [many] at h
  | allRaw =>
    refine ⟨fun o => ⟨[o], []⟩, fun o => o.ordered_singleton (Nat.le_refl _) (Nat.le_add_right _ _),
      fun os hos => ?_⟩
    have := hone id os
    rw [List.map_id] at this
    rw [resolve, hos, this]
    rfl
  | all =>
    refine ⟨fun o => ⟨[splicedValue key o], []⟩, fun o => ?_, fun os hos => ?_⟩
    · obtain ⟨hle, hge⟩ := Spliced.line_locate o 0
      exact o.ordered_singleton hle hge
    · rw [resolve, hos, hone]
      rfl
  | allStrv =>
    refine ⟨_, ordered_splitValue hvalues .plain key, fun os hos => ?_⟩
    rw [resolve, hos]
    exact splitValues_eq _ _ key os
  | allArgs =>
    refine ⟨_, ordered_splitValue harguments .plain key, fun os hos => ?_⟩
    rw [resolve, hos]
    exact splitValues_eq _ _ key os
  | allKeyVal =>
    refine ⟨_, ordered_splitValue harguments .pairs key, fun os hos => ?_⟩
    rw [resolve, hos]
    exact splitValues_eq _ _ key os
  | lastArgs =>
    exact ⟨_, ordered_splitValue harguments .plain key, fun os _ => splitValues_eq _ _ key _⟩

theorem taken_sublist (mode : LookupMode) (os : List Value) : (mode.taken os).Sublist os := by
  unfold taken
  split
  · exact getLast?_toList_sublist os
  · exact List.Sublist.refl os

theorem taken_singleton (mode : LookupMode) (o : Value) : mode.taken [o] = [o] := by
  unfold taken
  split <;> rfl

/-- An occurrence that is not empty resolves by itself to what it resolves to among others. -/
theorem resolve_of_ne_empty {mode : LookupMode} (h : mode ∈ many) (key : String) :
    (∀ o : Value, o.text ≠ "" → o.Ordered (mode.resolve key [o])) ∧
      ∀ os : List Value, (∀ o ∈ os, o.text ≠ "") → mode.resolve key os =
        ⟨(mode.taken os).flatMap fun o => (mode.resolve key [o]).values,
          (mode.taken os).flatMap fun o => (mode.resolve key [o]).issues⟩ := by
  obtain ⟨one, hordered, hresolve⟩ := exists_resolve_eq h key
  have hkept : ∀ os : List Value, (∀ o ∈ os, o.text ≠ "") → sinceReset os = os := fun os hos =>
    sinceReset_eq_self fun o ho => String.isEmpty_eq_false_iff.mpr (hos o ho)
  have hone : ∀ o : Value, o.text ≠ "" → mode.resolve key [o] = one o := by
    intro o ho
    have heq := hresolve [o] (hkept [o] fun v hv => List.mem_singleton.mp hv ▸ ho)
    rwa [taken_singleton, List.flatMap_singleton, List.flatMap_singleton] at heq
  refine ⟨fun o ho => hone o ho ▸ hordered o, fun os hos => ?_⟩
  have htaken : ∀ o ∈ mode.taken os, mode.resolve key [o] = one o := fun o ho =>
    hone o (hos o ((taken_sublist mode os).subset ho))
  rw [hresolve os (hkept os hos)]
  congr 1
  · exact List.flatMap_congr fun o ho => by rw [htaken o ho]
  · exact List.flatMap_congr fun o ho => by rw [htaken o ho]

end LookupMode

/-- What one occurrence after another resolves to comes in the order of the occurrences. -/
theorem locations_ordered {os : List Value} {one : Value → Resolution}
    (hos : os.Pairwise fun v w => v.lastLine < w.location.line)
    (hone : ∀ o ∈ os, o.Ordered (one o)) :
    (os.flatMap fun o => (one o).locations).Pairwise Location.Precedes := by
  refine List.pairwise_flatMap.mpr ⟨fun o ho => (hone o ho).ascending, ?_⟩
  refine hos.imp_of_mem fun {v w} hv hw hvw l hl l' hl' => Or.inl ?_
  have := ((hone v hv).within l hl).2
  have := ((hone w hw).within l' hl').1
  omega

/-- **Values come in the order of the text.** In a parsed file, the values of a field that is looked
up in all its occurrences, or as the words of the last one, stand one after another. They are those
of the single occurrences; each occurrence has at most one issue, which stands after the values of
this occurrence and before what the later ones resolve to. -/
theorem lookup_ordered {path : Path} {text : String} {u : UnitFile} (h : parse path text = .ok u)
    {f : Field} (hmode : f.mode ∈ LookupMode.many) :
    let os := f.mode.taken (u.valuesOf f.group f.key)
    let one := fun o => f.mode.resolve f.key [o]
    ((lookup u f).values.map (·.location)).Pairwise Location.Precedes ∧
      lookup u f = ⟨os.flatMap fun o => (one o).values, os.flatMap fun o => (one o).issues⟩ ∧
      (∀ o ∈ os, (one o).issues.length ≤ 1) ∧
      (os.flatMap fun o => (one o).locations).Pairwise Location.Precedes := by
  intro os one
  obtain ⟨hordered, hresolve⟩ := LookupMode.resolve_of_ne_empty hmode f.key
  have hsublist := LookupMode.taken_sublist f.mode (u.valuesOf f.group f.key)
  have hone : ∀ o ∈ os, o.Ordered (one o) := fun o ho =>
    hordered o (text_ne_empty_of_parsed h (hsublist.subset ho))
  have hlookup : lookup u f =
      ⟨os.flatMap fun o => (one o).values, os.flatMap fun o => (one o).issues⟩ :=
    hresolve _ fun o ho => text_ne_empty_of_parsed h ho
  have hall : (os.flatMap fun o => (one o).locations).Pairwise Location.Precedes :=
    locations_ordered ((valuesOf_ordered h f.group f.key).sublist hsublist) hone
  refine ⟨?_, hlookup, fun o ho => (hone o ho).issues_le, hall⟩
  rw [hlookup, List.map_flatMap]
  exact hall.sublist (List.Sublist.flatMap_right os fun o _ => List.sublist_append_left _ _)

/-- An issue between the words of an occurrence that goes on over lines and those of the next. -/
theorem lookup_ordered_issue :
    let text := "[A]\nk=x \\\n 'y\n[B]\n[A]\nk=z w\n"
    let v : Value := ⟨"k", "x \\\n 'y", ⟨2, 2⟩⟩
    let w : Value := ⟨"k", "z w", ⟨6, 2⟩⟩
    let u : UnitFile := ⟨⟨"a.pod"⟩, [⟨"A", 1, [⟨"k", 0, v⟩, ⟨"k", 0, w⟩]⟩, ⟨"B", 4, []⟩]⟩
    let f : Field := ⟨"A", "k", .allStrv, true⟩
    parse ⟨"a.pod"⟩ text = .ok u ∧ f.mode ∈ LookupMode.many ∧
      lookup u f = ⟨[⟨"k", "x", ⟨2, 2⟩⟩, ⟨"k", "z", ⟨6, 2⟩⟩, ⟨"k", "w", ⟨6, 4⟩⟩],
        [⟨⟨3, 1⟩, .unbalancedQuote 3⟩]⟩ ∧
      ([⟨2, 2⟩, ⟨3, 1⟩, ⟨6, 2⟩, ⟨6, 4⟩] : List Location).Pairwise Location.Precedes := by
  intro text v w u f
  have hparse : parse ⟨"a.pod"⟩ text = .ok u := by decide +kernel
  have hmode : f.mode ∈ LookupMode.many := by decide
  obtain ⟨-, -, -, hall⟩ := lookup_ordered hparse hmode
  refine ⟨hparse, hmode, by decide +kernel, ?_⟩
  have hlocations : (f.mode.taken (u.valuesOf f.group f.key)).flatMap
      (fun o => (f.mode.resolve f.key [o]).locations) = [⟨2, 2⟩, ⟨3, 1⟩, ⟨6, 2⟩, ⟨6, 4⟩] := by
    decide +kernel
  rw [← hlocations]
  exact hall

end UnitLint
