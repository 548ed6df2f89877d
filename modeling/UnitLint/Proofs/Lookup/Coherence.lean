import UnitLint.Proofs.Lookup.Order
import UnitLint.Proofs.Lookup.Scalar
import UnitLint.Proofs.Text.Cut

/-! # How the modes hang together

Eleven modes read the occurrences of one key. Those that read all of them see the occurrences after
the last empty one and no others (`exists_before_sinceReset`), and make of each of them what they
would make of it alone (`LookupMode.resolve_of_mem_live`). The modes of the last occurrence find it
whenever the key occurs, and agree with the others on it; the pairs are the arguments that have an
equals sign. All this is what it means for the modes to be coherent (`lookup_coherent`). -/

namespace UnitLint

open Text Words

/-! ### Occurrences after a reset -/

theorem sinceReset_concat (os : List Value) (o : Value) :
    sinceReset (os ++ [o]) = if o.text.isEmpty then [] else sinceReset os ++ [o] := by
  unfold sinceReset
  rw [List.reverse_append, List.reverse_singleton, List.singleton_append, List.takeWhile_cons]
  cases o.text.isEmpty <;> simp

/-- Nothing before an empty occurrence is kept. -/
theorem sinceReset_append_reset {reset : Value} (h : reset.text = "") (before after : List Value) :
    sinceReset (before ++ reset :: after) = sinceReset after := by
  induction after using List.reverseRecOn with
  | nil =>
    rw [sinceReset_concat, h]
    rfl
  | append_singleton after o ih =>
    rw [← List.cons_append, ← List.append_assoc, sinceReset_concat, sinceReset_concat, ih]

/-- **The occurrences that are kept** are those after the last empty one. -/
theorem exists_before_sinceReset (os : List Value) : ∃ before, os = before ++ sinceReset os ∧
    (∀ o ∈ before.getLast?, o.text = "") ∧ ∀ o ∈ sinceReset os, o.text ≠ "" := by
  induction os using List.reverseRecOn with
  | nil => exact ⟨[], rfl, nofun, nofun⟩
  | append_singleton os o ih =>
    obtain ⟨before, hos, hreset, hkept⟩ := ih
    rw [sinceReset_concat]
    split_ifs with ho
    · refine ⟨os ++ [o], (List.append_nil _).symm, fun v hv => ?_, nofun⟩
      rw [List.getLast?_concat] at hv
      obtain rfl := Option.some.inj hv
      exact String.isEmpty_iff.mp ho
    · refine ⟨before, by rw [← List.append_assoc, ← hos], hreset, fun v hv => ?_⟩
      rcases List.mem_append.mp hv with hv | hv
      · exact hkept v hv
      · obtain rfl := List.mem_singleton.mp hv
        exact fun hempty => ho (String.isEmpty_iff.mpr hempty)

theorem sinceReset_sinceReset (os : List Value) : sinceReset (sinceReset os) = sinceReset os := by
  obtain ⟨-, -, -, hkept⟩ := exists_before_sinceReset os
  exact sinceReset_eq_self fun o ho => String.isEmpty_eq_false_iff.mpr (hkept o ho)

/-- The last occurrence is kept unless it is empty. -/
theorem getLast?_sinceReset {os : List Value} {o : Value} (h : os.getLast? = some o)
    (ho : o.text ≠ "") : (sinceReset os).getLast? = some o := by
  obtain ⟨os, rfl⟩ := List.getLast?_eq_some_iff.mp h
  rw [sinceReset_concat, if_neg fun hempty => ho (String.isEmpty_iff.mp hempty),
    List.getLast?_concat]

/-! ### Modes that read what is kept -/

namespace LookupMode

/-- The modes that read every occurrence after the last empty one. -/
def live : List LookupMode := [allRaw, all, allStrv, allArgs, allKeyVal]

theorem resolve_sinceReset {mode : LookupMode} (h : mode ∈ live) (key : String) (os : List Value) :
    mode.resolve key (sinceReset os) = mode.resolve key os := by
  cases mode with
  | allRaw | all | allStrv | allArgs | allKeyVal => simp only [resolve, sinceReset_sinceReset]
  | lastRaw | last | base | boolean | int | lastArgs => simp [live] at h

/-- **Each occurrence that is kept counts by itself.** -/
theorem resolve_of_mem_live {mode : LookupMode} (h : mode ∈ live) (key : String)
    (os : List Value) : mode.resolve key os =
      ⟨(sinceReset os).flatMap fun o => (mode.resolve key [o]).values,
        (sinceReset os).flatMap fun o => (mode.resolve key [o]).issues⟩ := by
  have hmany : mode ∈ many ∧ mode ≠ lastArgs := by
    simp only [live, List.mem_cons, List.not_mem_nil, or_false] at h
    rcases h with rfl | rfl | rfl | rfl | rfl <;> decide
  obtain ⟨-, -, -, hkept⟩ := exists_before_sinceReset os
  have hresolve := (resolve_of_ne_empty hmany.1 key).2 (sinceReset os) hkept
  rw [taken, if_neg hmany.2] at hresolve
  rw [← resolve_sinceReset h, hresolve]

end LookupMode

/-! ### Words and pairs -/

/-- The word cut at its first equals sign: the key before it, the value after it. -/
def Value.cut (w : Value) : Value :=
  ⟨String.ofList (w.text.toList.takeWhile (· != '=')),
    String.ofList (w.text.toList.dropWhile (· != '=')).tail, w.location⟩

theorem pair?_eq (s : List Char) : pair? s =
    if '=' ∈ s then some (s.takeWhile (· != '='), (s.dropWhile (· != '=')).tail) else none := by
  unfold pair?
  cases hdrop : s.dropWhile (· != '=') with
  | nil => rw [if_neg (dropWhile_eq_nil_iff.mp hdrop)]
  | cons c right =>
    have hmem : '=' ∈ s := by
      rw [eq_of_dropWhile hdrop]
      exact List.mem_append_right _ List.mem_cons_self
    rw [if_pos hmem]
    rfl

/-- The pair of a word is the word, cut, if it has an equals sign. -/
theorem wordValue?_pairs {key : String} {s : Spliced} {w : Word} {v : Value}
    (h : wordValue? .plain key s w = some v) :
    wordValue? .pairs key s w = if '=' ∈ v.text.toList then some v.cut else none := by
  obtain rfl := Option.some.inj h
  have htext : (s.valueAt key w.text.toList w.offset).text.toList = w.text.toList :=
    String.toList_ofList
  rw [wordValue?, pair?_eq, Value.cut, htext]
  split_ifs <;> rfl

theorem filterMap_wordValue?_pairs (key : String) (s : Spliced) (ws : List Word) :
    ws.filterMap (wordValue? .pairs key s) =
      ((ws.filterMap (wordValue? .plain key s)).filter fun w => '=' ∈ w.text.toList).map
        Value.cut := by
  induction ws with
  | nil => rfl
  | cons w ws ih =>
    obtain ⟨v, hv⟩ : ∃ v, wordValue? .plain key s w = some v := ⟨_, rfl⟩
    rw [List.filterMap_cons, wordValue?_pairs hv, List.filterMap_cons_some hv, List.filter_cons]
    by_cases h : '=' ∈ v.text.toList
    · rw [if_pos h, if_pos (decide_eq_true h), List.map_cons, ← ih]
    · rw [if_neg h, if_neg (by simpa using h), ← ih]

/-- **The pairs of an occurrence** are its words with an equals sign, cut. -/
theorem values_splitValue_pairs (flags : SplitFlags) (key : String) (o : Value) :
    (splitValue flags .pairs key o).values = ((splitValue flags .plain key o).values.filter
      fun w => '=' ∈ w.text.toList).map Value.cut :=
  filterMap_wordValue?_pairs key _ _

/-- Nothing is found in an empty occurrence. -/
theorem splitValue_of_empty {o : Value} (h : o.text = "") (form : WordForm) (key : String) :
    splitValue .arguments form key o = ⟨[], []⟩ := by
  have hwords : words .arguments whitespace [] = ([], none) := by decide +kernel
  have htext : (Spliced.ofValue o).text = [] := by
    show (Spliced.splice 0 o.location.line o.text.toList).1 = []
    rw [h]
    rfl
  rw [splitValue, htext, hwords]
  rfl

/-! ### Coherence -/

/-- The modes agree about the occurrences of a key, where `r` is what the key resolves to in each
mode. -/
structure LookupMode.Coherent (key : String) (occurrences : List Value)
    (r : LookupMode → Resolution) : Prop where
  /-- As written, there are the occurrences after the last empty one. -/
  kept : ∃ before, occurrences = before ++ (r .allRaw).values ∧
    (∀ o ∈ before.getLast?, o.text = "") ∧ ∀ o ∈ (r .allRaw).values, o.text ≠ ""
  /-- These count one by one, each for what it resolves to alone. -/
  one_by_one : ∀ mode ∈ live,
    r mode = ⟨(r .allRaw).values.flatMap fun o => (mode.resolve key [o]).values,
      (r .allRaw).values.flatMap fun o => (mode.resolve key [o]).issues⟩
  /-- What comes before an empty occurrence might as well not be there. -/
  forgotten : ∀ before reset after, occurrences = before ++ reset :: after → reset.text = "" →
    ∀ mode ∈ live, r mode = mode.resolve key after
  /-- The modes of the last occurrence find it if there is one. -/
  found_eq : ∀ mode ∈ [lastRaw, last, base, boolean], (r mode).found = !occurrences.isEmpty
  /-- An integer is found if the text without its quotes is one, and it is that value. -/
  int_found_iff : (r .int).found = true ↔
    ∃ v n, (r .base).values = [v] ∧ integer? v.text.toList = some n
  int_values : ∀ v, (r .int).values = [v] ↔
    (r .base).values = [v] ∧ ∃ n, integer? v.text.toList = some n
  /-- The last occurrence, if it is not empty, is the last of those that are kept. -/
  last_kept : ∀ o, occurrences.getLast? = some o → o.text ≠ "" →
    (r .lastRaw).values = [o] ∧ (r .allRaw).values.getLast? = some o ∧
      ∃ v, (r .last).values = [v] ∧ (r .all).values.getLast? = some v
  /-- The arguments of the last occurrence come last among all arguments. -/
  lastArgs_suffix : (r .lastArgs).values <:+ (r .allArgs).values ∧
    (r .lastArgs).issues <:+ (r .allArgs).issues
  /-- The pairs are the arguments with an equals sign, cut at the first one. -/
  pairs : (r .allKeyVal).values =
    ((r .allArgs).values.filter fun w => '=' ∈ w.text.toList).map Value.cut ∧
      (r .allKeyVal).issues = (r .allArgs).issues

theorem found_toList_iff (value? : Option Value) :
    Resolution.found ⟨value?.toList, []⟩ = true ↔ ∃ v, value?.toList = [v] := by
  cases value? with
  | none => simp [Resolution.found]
  | some v => simp [Resolution.found]

theorem toList_filter_isInteger_iff {value? : Option Value} {v : Value} :
    (value?.filter isInteger).toList = [v] ↔
      value?.toList = [v] ∧ ∃ n, integer? v.text.toList = some n := by
  rw [← Option.isSome_iff_exists, Option.toList_eq_singleton_iff, Option.toList_eq_singleton_iff]
  exact Option.filter_eq_some_iff

/-- The arguments of the last occurrence come last among those of the occurrences that are kept. -/
theorem flatMap_getLast?_suffix {β : Type} {f : Value → List β}
    (hf : ∀ o : Value, o.text = "" → f o = []) (os : List Value) :
    os.getLast?.toList.flatMap f <:+ (sinceReset os).flatMap f := by
  cases hlast : os.getLast? with
  | none => exact List.nil_suffix
  | some o =>
    rw [Option.toList_some, List.flatMap_singleton]
    by_cases ho : o.text = ""
    · rw [hf o ho]
      exact List.nil_suffix
    · obtain ⟨kept, hkept⟩ := List.getLast?_eq_some_iff.mp (getLast?_sinceReset hlast ho)
      rw [hkept, List.flatMap_append, List.flatMap_singleton]
      exact List.suffix_append _ _

/-- **The modes of one key are coherent**, in whatever unit file. -/
theorem lookup_coherent (u : UnitFile) (group key : String) (multiple : Bool) :
    LookupMode.Coherent key (u.valuesOf group key) fun mode =>
      lookup u ⟨group, key, mode, multiple⟩ := by
  set os := u.valuesOf group key with hos
  refine ⟨exists_before_sinceReset os, fun mode hmode => LookupMode.resolve_of_mem_live hmode key os,
    ?forgotten, ?found, ?int_found, ?int_values, ?last_kept, ?lastArgs, ?pairs⟩
  case forgotten =>
    intro before reset after hcut hreset mode hmode
    show mode.resolve key os = mode.resolve key after
    rw [← LookupMode.resolve_sinceReset hmode, hcut, sinceReset_append_reset hreset,
      LookupMode.resolve_sinceReset hmode]
  case found =>
    intro mode hmode
    have hfound : ∀ g : Value → Value,
        Resolution.found ⟨(os.getLast?.map g).toList, []⟩ = !os.isEmpty := by
      intro g
      rcases List.eq_nil_or_concat os with h | ⟨front, o, h⟩ <;> simp [h, Resolution.found]
    simp only [List.mem_cons, List.not_mem_nil, or_false] at hmode
    rcases hmode with rfl | rfl | rfl | rfl
    · have := hfound id
      rwa [Option.map_id_fun] at this
    · exact hfound _
    · exact hfound _
    · exact hfound _
  case int_found =>
    have hfound := found_toList_iff ((os.getLast?.map (baseValue key)).filter isInteger)
    simp only [toList_filter_isInteger_iff, ← exists_and_left] at hfound
    exact hfound
  case int_values =>
    exact fun v => toList_filter_isInteger_iff
  case last_kept =>
    intro o ho hne
    have hlast := getLast?_sinceReset ho hne
    refine ⟨congrArg Option.toList ho, hlast, splicedValue key o, ?_, ?_⟩
    · show (os.getLast?.map (splicedValue key)).toList = _
      rw [ho]
      rfl
    · show ((sinceReset os).map (splicedValue key)).getLast? = _
      rw [List.getLast?_map, hlast]
      rfl
  case lastArgs =>
    show (splitValues .arguments .plain key os.getLast?.toList).values <:+
        (splitValues .arguments .plain key (sinceReset os)).values ∧
      (splitValues .arguments .plain key os.getLast?.toList).issues <:+
        (splitValues .arguments .plain key (sinceReset os)).issues
    rw [splitValues_eq, splitValues_eq]
    exact ⟨flatMap_getLast?_suffix (fun o ho => by rw [splitValue_of_empty ho]) os,
      flatMap_getLast?_suffix (fun o ho => by rw [splitValue_of_empty ho]) os⟩
  case pairs =>
    show (splitValues .arguments .pairs key (sinceReset os)).values =
        ((splitValues .arguments .plain key (sinceReset os)).values.filter _).map _ ∧
      (splitValues .arguments .pairs key (sinceReset os)).issues =
        (splitValues .arguments .plain key (sinceReset os)).issues
    rw [splitValues_eq, splitValues_eq]
    refine ⟨?_, rfl⟩
    rw [List.filter_flatMap, List.map_flatMap]
    exact List.flatMap_congr fun o _ => values_splitValue_pairs _ key o

/-- Two occurrences after an empty one, the second with an escape that is wrong. -/
theorem lookup_coherent_reset :
    let v : Value := ⟨"k", "a b=1", ⟨4, 2⟩⟩
    let w : Value := ⟨"k", "c=2=3 \\q", ⟨5, 2⟩⟩
    let u : UnitFile := ⟨⟨"a.pod"⟩, [⟨"A", 1, [⟨"k", 0, ⟨"k", "d=4", ⟨2, 2⟩⟩⟩,
      ⟨"k", 0, ⟨"k", "", ⟨3, 2⟩⟩⟩, ⟨"k", 0, v⟩, ⟨"k", 0, w⟩]⟩]⟩
    lookup u ⟨"A", "k", .allKeyVal, true⟩ = LookupMode.allKeyVal.resolve "k" [v, w] ∧
      (lookup u ⟨"A", "k", .allRaw, true⟩).values.getLast? = some w ∧
      [⟨"k", "c=2=3", ⟨5, 2⟩⟩] <:+ (lookup u ⟨"A", "k", .allArgs, true⟩).values ∧
      (lookup u ⟨"A", "k", .allKeyVal, true⟩).values =
        [⟨"b", "1", ⟨4, 4⟩⟩, ⟨"c", "2=3", ⟨5, 2⟩⟩] := by
  intro v w u
  have hcoherent := lookup_coherent u "A" "k" true
  have hpairs := hcoherent.pairs.1
  have hsuffix := hcoherent.lastArgs_suffix.1
  have hlast : (lookup u ⟨"A", "k", .lastArgs, true⟩).values = [⟨"k", "c=2=3", ⟨5, 2⟩⟩] := by
    decide +kernel
  rw [hlast] at hsuffix
  exact ⟨hcoherent.forgotten [_] _ [v, w] rfl rfl _ (by decide),
    (hcoherent.last_kept w rfl (by decide)).2.1, hsuffix, hpairs.trans (by decide +kernel)⟩

end UnitLint
