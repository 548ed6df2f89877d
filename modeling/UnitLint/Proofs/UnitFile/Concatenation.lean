import UnitLint.Proofs.Text.Lines
import UnitLint.Proofs.UnitFile.Reading

/-! # Texts one after another

A text whose last line is complete and not continued can be followed by one that starts with a
header: nothing of the first is carried over into the second. The errors of both are reported, and
the groups of both are joined, with the second text moved down by the lines of the first
(`parse_append`). -/

namespace UnitLint

open Text Statement

/-! ### Sections further down -/

namespace Group

theorem appendLast_shift (n : Nat) (entry : Entry) {ss : List Group} (h : ss ≠ []) :
    appendLast (entry.shift n) (ss.map (shift n)) = (appendLast entry ss).map (shift n) := by
  obtain ⟨ss, g, rfl⟩ := (List.eq_nil_or_concat ss).resolve_left h
  rw [List.concat_eq_append, List.map_append, List.map_singleton, appendLast_concat,
    appendLast_concat, List.map_append, List.map_singleton]
  simp [shift]

theorem foldl_record_shift (n : Nat) {ss : List Group} (h : ss ≠ []) (actions : List Action) :
    (actions.map (Action.shift n)).foldl record (ss.map (shift n)) =
      (actions.foldl record ss).map (shift n) := by
  induction actions generalizing ss with
  | nil => rfl
  | cons a actions ih =>
    have hrecord : record (ss.map (shift n)) (a.shift n) = (record ss a).map (shift n) := by
      cases a with
      | openGroup name line =>
        show ss.map (shift n) ++ [Group.mk name (line + n) []] =
          (ss ++ [Group.mk name line []]).map (shift n)
        rw [List.map_append]
        rfl
      | append entry => exact appendLast_shift n entry h
    rw [List.map_cons, List.foldl_cons, List.foldl_cons, hrecord, ih (record_ne_nil ss a)]

theorem gather_shift (n : Nat) {ss : List Group} {name : String} (h : name ∈ ss.map (·.name)) :
    gather name (ss.map (shift n)) = (gather name ss).shift n := by
  have hcomp : ((fun g : Group => g.name == name) ∘ shift n) = fun g => g.name == name := rfl
  obtain ⟨g, hg, rfl⟩ := List.mem_map.mp h
  have hsome : (ss.find? (·.name == g.name)).isSome = true := by
    rw [List.find?_isSome]
    exact ⟨g, hg, beq_self_eq_true _⟩
  obtain ⟨first, hfirst⟩ := Option.isSome_iff_exists.mp hsome
  unfold gather
  rw [List.find?_map, List.filter_map, hcomp, hfirst, List.flatMap_map]
  simp only [shift, Option.map_some, Option.getD_some, List.map_flatMap]

theorem gathered_shift (n : Nat) (ss : List Group) :
    gathered (ss.map (shift n)) = (gathered ss).map (shift n) := by
  have hnames : (ss.map (shift n)).map (·.name) = ss.map (·.name) := List.map_map
  unfold gathered
  rw [hnames, List.map_map]
  refine List.map_congr_left fun name hname => ?_
  exact gather_shift n (List.mem_eraseDups.mp hname)

end Group

/-! ### Statements that start with a header -/

namespace Statement

theorem sections_shift (n : Nat) {ss : List Located} (h : HeaderFirst ss) :
    sections (ss.map (Located.shift n)) = (sections ss).map (Group.shift n) := by
  have hactions : (ss.map (Located.shift n)).flatMap Located.actions =
      (ss.flatMap Located.actions).map (Action.shift n) := by
    rw [List.flatMap_map, List.map_flatMap]
    exact congrArg (fun f => ss.flatMap f) (funext (actions_shift n))
  unfold sections
  rw [hactions]
  rcases ss with _ | ⟨s, ss⟩
  · rfl
  · obtain ⟨name, hname⟩ := h s rfl
    have hs : s.actions = [.openGroup (String.ofList name) s.line] := by
      rw [Located.actions, hname]
    rw [List.flatMap_cons, hs, List.singleton_append, List.map_cons, List.foldl_cons,
      List.foldl_cons]
    exact Group.foldl_record_shift n (List.cons_ne_nil ⟨String.ofList name, s.line, []⟩ []) _

end Statement

/-! ### Parsing -/

theorem ofText_append {first : List Char} (second : List Char) (hterm : Terminated first)
    (hend : EndsClosed (lines first)) : ofText (first ++ second) =
      ofText first ++ (ofText second).map (Located.shift (lines first).length) := by
  unfold ofText
  rw [lines_append hterm, ofLines_append hend, ofLines_add]

/-- **A text after a text.** The first is terminated, its last line is not continued, and none of
its entries lacks a group; the second starts with a header. Then both are parsed as they are alone,
but for the numbers of the lines of the second. -/
theorem parse_append (path : Path) {first second : String} (hterm : Terminated first.toList)
    (hend : EndsClosed (lines first.toList))
    (hgroup : ∀ e ∈ syntaxErrors path first, e.fault ≠ .missingGroup)
    (hheader : StartsWithHeader (lines second.toList)) :
    parse path (first ++ second) =
      match parse path first, parse path second with
      | .ok u, .ok v =>
        .ok ⟨path, Group.join u.groups (v.groups.map (Group.shift (lines first.toList).length))⟩
      | _, _ =>
        .error (syntaxErrors path first ++
          (syntaxErrors path second).map (ParseError.shift (lines first.toList).length)) := by
  set n := (lines first.toList).length
  have hhead : HeaderFirst (ofText second.toList) := hheader.head?_ofLines 1
  have hhead' : HeaderFirst ((ofText second.toList).map (Located.shift n)) := by
    intro s hs
    rw [List.head?_map] at hs
    obtain ⟨t, ht, rfl⟩ := Option.map_eq_some_iff.mp hs
    exact hhead t ht
  have htext := ofText_append second.toList hterm hend
  have herrors : syntaxErrors path (first ++ second) =
      syntaxErrors path first ++ (syntaxErrors path second).map (ParseError.shift n) := by
    rw [syntaxErrors_eq] at hgroup
    rw [syntaxErrors_eq, syntaxErrors_eq, syntaxErrors_eq, String.toList_append, htext,
      Builder.readAll_append hgroup]
    exact congrArg (_ ++ ·) (Builder.errors_readAll_header n _ _ hhead)
  have hgroups : Group.gathered (sections (ofText (first ++ second).toList)) =
      Group.join (Group.gathered (sections (ofText first.toList)))
        ((Group.gathered (sections (ofText second.toList))).map (Group.shift n)) := by
    rw [String.toList_append, htext, sections_append _ hhead', sections_shift n hhead,
      Group.gathered_append, Group.gathered_shift]
  rw [parse_eq path (first ++ second), herrors, hgroups, parse_eq path first,
    parse_eq path second]
  rcases syntaxErrors path first with _ | ⟨e, es⟩
  · rcases syntaxErrors path second with _ | ⟨e, es⟩ <;> rfl
  · rfl

/-- A group of both texts, first continued over two lines and then after a comment and a blank. -/
theorem parse_append_continued :
    let path : Path := ⟨"a.pod"⟩
    let first := "[A]\nx=1\\\n2\n"
    let second := "# c\n [A]\ny=3\n[B]\n"
    Terminated first.toList ∧ EndsClosed (lines first.toList) ∧
      (∀ e ∈ syntaxErrors path first, e.fault ≠ .missingGroup) ∧
      StartsWithHeader (lines second.toList) ∧
      parse path (first ++ second) =
        .ok ⟨path, [⟨"A", 1, [⟨"x", 0, ⟨"x", "1\\\n2", ⟨2, 2⟩⟩⟩, ⟨"y", 0, ⟨"y", "3", ⟨6, 2⟩⟩⟩]⟩,
          ⟨"B", 7, []⟩]⟩ := by
  intro path first second
  have hterm : Terminated first.toList := by decide
  have hend : EndsClosed (lines first.toList) := by decide
  have hgroup : ∀ e ∈ syntaxErrors path first, e.fault ≠ .missingGroup := by
    have hnone : syntaxErrors path first = [] := by decide +kernel
    rw [hnone]
    intro e he
    cases he
  have hheader : StartsWithHeader (lines second.toList) := by decide
  refine ⟨hterm, hend, hgroup, hheader, ?_⟩
  have hfirst : parse path first =
      .ok ⟨path, [⟨"A", 1, [⟨"x", 0, ⟨"x", "1\\\n2", ⟨2, 2⟩⟩⟩]⟩]⟩ := by decide +kernel
  have hsecond : parse path second =
      .ok ⟨path, [⟨"A", 2, [⟨"y", 0, ⟨"y", "3", ⟨3, 2⟩⟩⟩]⟩, ⟨"B", 4, []⟩]⟩ := by decide +kernel
  rw [parse_append path hterm hend hgroup hheader, hfirst, hsecond]
  decide

end UnitLint
