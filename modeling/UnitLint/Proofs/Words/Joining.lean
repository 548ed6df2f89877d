import UnitLint.Proofs.Words.Slices

/-! # Words as fields of the text

The fields of a text are what stands between its separators; some of them may be empty. Words that
are laid out in a text and have no separators in them are its fields, without the empty ones where
separators are skipped (`LaidOut.texts`). What joins fields by a separator has the same fields again
(`splitOnP_intercalate`). -/

namespace UnitLint.Words

variable {flags : SplitFlags} {separators : List Char}

/-! ### Fields -/

/-- The fields of a text, or only those that are not empty where separators are skipped. -/
def kept (flags : SplitFlags) (fields : List (List Char)) : List (List Char) :=
  if flags.separateEach then fields else fields.filter fun field => !field.isEmpty

theorem kept_of_each (h : flags.separateEach = true) (fields : List (List Char)) :
    kept flags fields = fields := if_pos h

theorem kept_of_skip (h : flags.separateEach = false) (fields : List (List Char)) :
    kept flags fields = fields.filter fun field => !field.isEmpty :=
  if_neg (ne_true_of_eq_false h)

theorem kept_cons {field : List Char} (h : flags.separateEach = false → field ≠ [])
    (fields : List (List Char)) : kept flags (field :: fields) = field :: kept flags fields := by
  cases heach : flags.separateEach with
  | true => rw [kept_of_each heach, kept_of_each heach]
  | false =>
    have hfield : (!field.isEmpty) = true := by simpa using h heach
    rw [kept_of_skip heach, kept_of_skip heach, List.filter_cons, if_pos hfield]

theorem kept_kept (fields : List (List Char)) :
    kept flags (kept flags fields) = kept flags fields := by
  cases heach : flags.separateEach with
  | true => rw [kept_of_each heach, kept_of_each heach]
  | false =>
    rw [kept_of_skip heach, kept_of_skip heach, List.filter_filter]
    simp only [Bool.and_self]

/-- Separators before a text make no more fields, where they are skipped. -/
theorem kept_append (heach : flags.separateEach = false) {margin : List Char}
    (h : ∀ c ∈ margin, separators.contains c = true) (rest : List Char) :
    kept flags ((margin ++ rest).splitOnP separators.contains) =
      kept flags (rest.splitOnP separators.contains) := by
  induction margin with
  | nil => rfl
  | cons c margin ih =>
    have hnil : ∀ d ∈ ([] : List Char), separators.contains d = false := nofun
    have hsplit : (c :: (margin ++ rest)).splitOnP separators.contains =
        [] :: (margin ++ rest).splitOnP separators.contains :=
      List.splitOnP_append_cons_of_forall_mem hnil c (h c List.mem_cons_self) _
    rw [List.cons_append, hsplit, ← ih fun d hd => h d (List.mem_cons_of_mem c hd),
      kept_of_skip heach, kept_of_skip heach, List.filter_cons, if_neg (by simp)]

theorem kept_separators (heach : flags.separateEach = false) {text : List Char}
    (h : ∀ c ∈ text, separators.contains c = true) :
    kept flags (text.splitOnP separators.contains) = [] := by
  have hkept := kept_append heach h []
  rw [List.append_nil] at hkept
  rw [hkept, kept_of_skip heach]
  rfl

theorem kept_margin {margin : List Char} (h : IsMargin flags separators margin)
    (rest : List Char) : kept flags ((margin ++ rest).splitOnP separators.contains) =
      kept flags (rest.splitOnP separators.contains) := by
  cases heach : flags.separateEach with
  | true => rw [h.nil heach, List.nil_append]
  | false => exact kept_append heach h.separates rest

theorem kept_space {field space : List Char} (hfield : flags.separateEach = false → field ≠ [])
    (hfree : ∀ c ∈ field, separators.contains c = false) (h : IsSpace flags separators space)
    (rest : List Char) : kept flags ((field ++ (space ++ rest)).splitOnP separators.contains) =
      field :: kept flags (rest.splitOnP separators.contains) := by
  obtain ⟨c, space, rfl⟩ := List.exists_cons_of_ne_nil h.nonempty
  have hsplit := List.splitOnP_append_cons_of_forall_mem hfree c
    (h.separates c List.mem_cons_self) (space ++ rest)
  rw [List.cons_append, hsplit, kept_cons hfield]
  have hmargin : IsMargin flags separators space := by
    refine ⟨fun d hd => h.separates d (List.mem_cons_of_mem c hd), fun heach => ?_⟩
    exact List.eq_nil_of_length_eq_zero (Nat.succ.inj (h.single heach))
  rw [kept_margin hmargin]

theorem kept_last {field trail : List Char} (hfield : flags.separateEach = false → field ≠ [])
    (hfree : ∀ c ∈ field, separators.contains c = false) (h : IsMargin flags separators trail) :
    kept flags ((field ++ trail).splitOnP separators.contains) = [field] := by
  rcases trail with _ | ⟨c, trail⟩
  · rw [List.append_nil, List.splitOnP_eq_singleton hfree, kept_cons hfield, kept, List.filter_nil,
      ite_self]
  · have heach : flags.separateEach = false := by
      cases heach : flags.separateEach with
      | false => rfl
      | true => cases h.nil heach
    have hsplit := List.splitOnP_append_cons_of_forall_mem hfree c
      (h.separates c List.mem_cons_self) trail
    rw [hsplit, kept_cons hfield,
      kept_separators heach fun d hd => h.separates d (List.mem_cons_of_mem c hd)]

/-- **The words laid out in a text are its fields**, if they have no separators in them. -/
theorem LaidOut.texts {n : Nat} {text : List Char} {found : List Word}
    (h : LaidOut flags separators n text found)
    (hfree : ∀ w ∈ found, ∀ c ∈ w.text.toList, separators.contains c = false) :
    found.map (·.text.toList) = kept flags (text.splitOnP separators.contains) := by
  induction h with
  | blank heach h => exact (kept_separators heach h).symm
  | @last n margin trail word hmargin htrail hword =>
    have hne : flags.separateEach = false → word.toList ≠ [] := fun heach =>
      mt String.toList_eq_nil_iff.mp (hword heach)
    rw [kept_margin hmargin, kept_last hne (hfree _ List.mem_cons_self) htrail]
    rfl
  | @next n margin space rest word found hmargin hspace hword more ih =>
    have hne : flags.separateEach = false → word.toList ≠ [] := fun heach =>
      mt String.toList_eq_nil_iff.mp (hword heach)
    have hrest := ih fun w hw => hfree w (List.mem_cons_of_mem _ hw)
    rw [kept_margin hmargin, kept_space hne (hfree _ List.mem_cons_self) hspace, ← hrest]
    rfl

theorem LaidOut.text_ne_empty {n : Nat} {text : List Char} {found : List Word}
    (h : LaidOut flags separators n text found) (heach : flags.separateEach = false) :
    ∀ w ∈ found, w.text ≠ "" := by
  induction h with
  | blank => nofun
  | last _ _ hword =>
    intro w hw
    obtain rfl := List.mem_singleton.mp hw
    exact hword heach
  | next _ _ hword _ ih =>
    intro w hw
    rcases List.mem_cons.mp hw with rfl | hw
    · exact hword heach
    · exact ih w hw

theorem length_splitOnP (p : Char → Bool) (text : List Char) :
    (text.splitOnP p).length = text.countP p + 1 := by
  induction text with
  | nil => rfl
  | cons c text ih =>
    rw [List.splitOnP_cons_eq_if_modifyHead, List.countP_cons]
    split
    · rw [List.length_cons, ih]
    · rw [List.length_modifyHead, ih, Nat.add_zero]

/-- The words are the fields between the separators, in order, each where it stands. -/
structure AreFields (separators input : List Char) (found : List Word) : Prop where
  texts : found.map (·.text.toList) = input.splitOnP separators.contains
  count : found.length = input.countP separators.contains + 1
  slice : ∀ w ∈ found, w.IsSlice input
  first : ∃ w ∈ found.head?, w.offset = 0
  single : found.IsChain fun w w' => w'.offset = w.stop + 1

theorem LaidOut.areFields {input : List Char} {found : List Word}
    (h : LaidOut flags separators 0 input found) (heach : flags.separateEach = true)
    (hfree : ∀ w ∈ found, ∀ c ∈ w.text.toList, separators.contains c = false) :
    AreFields separators input found := by
  have hlossless := lossless_of_laidOut h
  have htexts := h.texts hfree
  rw [kept_of_each heach] at htexts
  refine ⟨htexts, ?_, hlossless.slice, hlossless.first heach, hlossless.single heach⟩
  rw [← length_splitOnP, ← htexts, List.length_map]

/-! ### Joining -/

theorem mem_intercalate {c d : Char} {fields : List (List Char)}
    (h : d ∈ [c].intercalate fields) : d = c ∨ ∃ field ∈ fields, d ∈ field := by
  induction fields with
  | nil => cases h
  | cons field fields ih =>
    rcases fields with _ | ⟨field', fields⟩
    · rw [List.intercalate_singleton] at h
      exact Or.inr ⟨field, List.mem_cons_self, h⟩
    · rw [List.intercalate_cons_cons, List.mem_append, List.mem_append, List.mem_singleton] at h
      rcases h with (h | h) | h
      · exact Or.inr ⟨field, List.mem_cons_self, h⟩
      · exact Or.inl h
      · rcases ih h with h | ⟨f, hf, hd⟩
        · exact Or.inl h
        · exact Or.inr ⟨f, List.mem_cons_of_mem _ hf, hd⟩

/-- Fields without separators are those of the text that joins them. -/
theorem splitOnP_intercalate {p : Char → Bool} {c : Char} (hc : p c = true)
    {fields : List (List Char)} (hne : fields ≠ [])
    (hfree : ∀ field ∈ fields, ∀ d ∈ field, p d = false) :
    ([c].intercalate fields).splitOnP p = fields := by
  induction fields with
  | nil => exact absurd rfl hne
  | cons field fields ih =>
    have hfield := hfree field List.mem_cons_self
    rcases fields with _ | ⟨field', fields⟩
    · rw [List.intercalate_singleton, List.splitOnP_eq_singleton hfield]
    · have hmore := ih (List.cons_ne_nil _ _) fun f hf => hfree f (List.mem_cons_of_mem _ hf)
      rw [List.intercalate_cons_cons, List.append_assoc, List.singleton_append,
        List.splitOnP_append_cons_of_forall_mem hfield c hc, hmore]

end UnitLint.Words
