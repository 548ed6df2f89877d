import UnitLint.Proofs.Distinct
import UnitLint.UnitFile.Builder

/-! # Sections and groups

A unit file is written in sections: a header and the entries under it. Sections of one name make up
one group (`gather`), at the place and with the line of the first of them; the groups of a file are
those of the names of its sections, each name once, in the order in which they first appear
(`gathered`). The groups of sections that follow one another are those of the first joined by those
of the second (`gathered_append`), and the values of a key are found section by section
(`valuesOf_gathered`). A section is a `Group` whose name may come up again. -/

namespace UnitLint

/-- A list without repetitions has each of its members once. -/
theorem find?_map_eraseDups {f : String → Group} (hf : ∀ a, (f a).name = a) (l : List String)
    (name : String) : (l.eraseDups.map f).find? (·.name == name) =
      if name ∈ l then some (f name) else none := by
  have hcomp : ((fun g : Group => g.name == name) ∘ f) = fun a => a == name := by
    funext a
    rw [Function.comp_apply, hf]
  rw [List.find?_map, hcomp]
  split_ifs with h
  · have hsome : (l.eraseDups.find? fun a => a == name).isSome = true := by
      rw [List.find?_isSome]
      exact ⟨name, List.mem_eraseDups.mpr h, beq_self_eq_true name⟩
    obtain ⟨a, ha⟩ := Option.isSome_iff_exists.mp hsome
    have : a = name := by simpa using List.find?_some ha
    rw [ha, this]
    rfl
  · have hnone : l.eraseDups.find? (fun a => a == name) = none := by
      rw [List.find?_eq_none]
      intro a ha hname
      rw [beq_iff_eq] at hname
      exact h (hname ▸ List.mem_eraseDups.mp ha)
    rw [hnone]
    rfl

namespace Group

/-! ### Groups of sections -/

/-- The group that the sections of a name make up: the line of the first, the entries of all. -/
def gather (name : String) (sections : List Group) : Group where
  name := name
  line := ((sections.find? (·.name == name)).map (·.line)).getD 0
  entries := (sections.filter (·.name == name)).flatMap (·.entries)

/-- The groups that sections make up, in the order in which their names first appear. -/
def gathered (sections : List Group) : List Group :=
  (sections.map (·.name)).eraseDups.map fun name => gather name sections

/-- The entries of a group among others, if it is there. -/
def entriesIn (gs : List Group) (name : String) : List Entry :=
  ((gs.find? (·.name == name)).map (·.entries)).getD []

/-- The groups of two files one after the other: a group of both has the entries of the second
after those of the first, and the groups of the second alone come last. -/
def join (gs hs : List Group) : List Group :=
  gs.map (fun g => { g with entries := g.entries ++ entriesIn hs g.name }) ++
    hs.filter fun h => !gs.any (·.name == h.name)

theorem find?_gathered (ss : List Group) (name : String) : (gathered ss).find? (·.name == name) =
    if name ∈ ss.map (·.name) then some (gather name ss) else none :=
  find?_map_eraseDups (fun _ => rfl) _ name

theorem any_gathered (ss : List Group) (name : String) :
    (gathered ss).any (·.name == name) = decide (name ∈ ss.map (·.name)) := by
  rw [Bool.eq_iff_iff, List.any_eq_true, decide_eq_true_eq]
  constructor
  · rintro ⟨g, hg, hname⟩
    obtain ⟨a, ha, rfl⟩ := List.mem_map.mp hg
    rw [beq_iff_eq] at hname
    exact hname ▸ List.mem_eraseDups.mp ha
  · intro h
    exact ⟨gather name ss, List.mem_map.mpr ⟨name, List.mem_eraseDups.mpr h, rfl⟩,
      beq_self_eq_true name⟩

theorem entries_gather_of_notMem {ss : List Group} {name : String}
    (h : name ∉ ss.map (·.name)) : (gather name ss).entries = [] := by
  have hnone : ss.filter (·.name == name) = [] := by
    rw [List.filter_eq_nil_iff]
    intro g hg hname
    rw [beq_iff_eq] at hname
    exact h (List.mem_map.mpr ⟨g, hg, hname⟩)
  show (ss.filter (·.name == name)).flatMap (·.entries) = []
  rw [hnone]
  rfl

theorem entriesIn_gathered (ss : List Group) (name : String) :
    entriesIn (gathered ss) name = (gather name ss).entries := by
  unfold entriesIn
  rw [find?_gathered]
  split_ifs with h
  · rfl
  · rw [entries_gather_of_notMem h]
    rfl

theorem gather_append_of_mem {ss : List Group} (ts : List Group) {name : String}
    (h : name ∈ ss.map (·.name)) : gather name (ss ++ ts) =
      { gather name ss with entries := (gather name ss).entries ++ (gather name ts).entries } := by
  have hsome : (ss.find? (·.name == name)).isSome = true := by
    obtain ⟨g, hg, rfl⟩ := List.mem_map.mp h
    rw [List.find?_isSome]
    exact ⟨g, hg, beq_self_eq_true _⟩
  obtain ⟨g, hg⟩ := Option.isSome_iff_exists.mp hsome
  unfold gather
  rw [List.find?_append, hg, List.filter_append, List.flatMap_append]
  rfl

theorem gather_append_of_notMem {ss : List Group} (ts : List Group) {name : String}
    (h : name ∉ ss.map (·.name)) : gather name (ss ++ ts) = gather name ts := by
  have hnone : ss.find? (·.name == name) = none := by
    rw [List.find?_eq_none]
    intro g hg hname
    rw [beq_iff_eq] at hname
    exact h (List.mem_map.mpr ⟨g, hg, hname⟩)
  have hentries := entries_gather_of_notMem h
  unfold gather at hentries ⊢
  rw [List.find?_append, hnone, List.filter_append, List.flatMap_append]
  simp only at hentries
  rw [hentries]
  rfl

/-- **Sections one after another make up the groups of the first joined by those of the second.** -/
theorem gathered_append (ss ts : List Group) :
    gathered (ss ++ ts) = join (gathered ss) (gathered ts) := by
  have hfirst : (ss.map (·.name)).eraseDups.map (fun name => gather name (ss ++ ts)) =
      (gathered ss).map fun g =>
        { g with entries := g.entries ++ entriesIn (gathered ts) g.name } := by
    unfold gathered
    rw [List.map_map]
    refine List.map_congr_left fun name hname => ?_
    rw [gather_append_of_mem ts (List.mem_eraseDups.mp hname), Function.comp_apply,
      ← gathered, entriesIn_gathered]
    rfl
  have hsecond : ((ts.map (·.name)).removeAll (ss.map (·.name))).eraseDups.map
      (fun name => gather name (ss ++ ts)) =
      (gathered ts).filter fun h => !(gathered ss).any (·.name == h.name) := by
    have hp : ((fun h : Group => !(gathered ss).any (·.name == h.name)) ∘
        fun name => gather name ts) = fun name => !(ss.map (·.name)).elem name := by
      funext name
      rw [Function.comp_apply, any_gathered, List.elem_eq_contains, List.contains_eq_mem]
      rfl
    have hts : gathered ts = (ts.map (·.name)).eraseDups.map fun name => gather name ts := rfl
    rw [List.removeAll, eraseDups_filter, hts, List.filter_map, hp]
    refine List.map_congr_left fun name hname => ?_
    refine gather_append_of_notMem ts ?_
    simpa using (List.mem_filter.mp hname).2
  unfold join
  rw [← hfirst, ← hsecond, ← List.map_append, ← List.eraseDups_append, ← List.map_append]
  rfl

theorem gathered_singleton (g : Group) : gathered [g] = [g] := by
  simp [gathered, gather, List.eraseDups_cons]

theorem mem_entries_of_gathered {ss : List Group} {g : Group} {e : Entry} (hg : g ∈ gathered ss)
    (he : e ∈ g.entries) : e ∈ ss.flatMap (·.entries) := by
  obtain ⟨name, -, rfl⟩ := List.mem_map.mp hg
  obtain ⟨s, hs, he⟩ := List.mem_flatMap.mp he
  exact List.mem_flatMap.mpr ⟨s, (List.mem_filter.mp hs).1, he⟩

end Group

/-- The values of a key in the groups that sections make up, section by section. -/
theorem valuesOf_gathered (path : Path) (ss : List Group) (group key : String) :
    UnitFile.valuesOf ⟨path, Group.gathered ss⟩ group key =
      (ss.filter (·.name == group)).flatMap fun g => g.valuesOf key := by
  have hgather : (Group.gather group ss).valuesOf key =
      (ss.filter (·.name == group)).flatMap fun g => g.valuesOf key := by
    unfold Group.valuesOf Group.entriesOf Group.gather
    rw [List.filter_flatMap, List.map_flatMap]
  unfold UnitFile.valuesOf UnitFile.group?
  rw [Group.find?_gathered, ← hgather]
  split_ifs with h
  · rfl
  · unfold Group.valuesOf Group.entriesOf
    rw [Group.entries_gather_of_notMem h]
    rfl

end UnitLint
