import UnitLint.Proofs.UnitFile.Errors
import UnitLint.Proofs.UnitFile.Invariant

/-! # What is read from one line

A name, a key and an error are read from one line of the text, so none of them has a line feed
(`newline_notMem_key`, `newline_notMem_message`). -/

namespace UnitLint

open Text Statement

theorem newline_notMem_of_lineAt? {text l : List Char} {n : Nat}
    (h : lineAt? (lines text) n = some l) : '\n' ∉ l := by
  cases n with
  | zero => cases h
  | succ n => exact newline_notMem_of_mem_lines (List.mem_of_getElem? h)

/-- A key is part of the line that it stands on. -/
theorem Entry.StandsIn.newline_notMem_key {text : List Char} {before : List (List Char)}
    {l : List Char} {after : List (List Char)} {left right : List Char} {e : Entry}
    (h : e.StandsIn text before l after left right) : '\n' ∉ e.key.toList := by
  have hl : l ∈ lines text := by
    rw [h.lines_eq]
    exact List.mem_append_right before List.mem_cons_self
  have hkey : e.key.toList ⊆ l := by
    have hleft := trimEnd_prefix left
    rw [h.key_eq, String.toList_ofList]
    intro c hc
    refine trim_subset l ?_
    rw [(eq_of_sides? h.sides).1]
    exact List.mem_append_left _ (hleft.subset hc)
  exact fun hmem => newline_notMem_of_mem_lines hl (hkey hmem)

theorem newline_notMem_key {path : Path} {text : String} {u : UnitFile}
    (h : parse path text = .ok u) {g : Group} (hg : g ∈ u.groups) {e : Entry}
    (he : e ∈ g.entries) : '\n' ∉ e.key.toList := by
  obtain ⟨s, hs, happend⟩ := exists_append_of_mem h hg he
  obtain ⟨_, _, _, _, _, hstands, -⟩ := exists_standsIn hs happend
  exact hstands.newline_notMem_key

/-- What an error quotes is part of the line that it points into. -/
theorem ParseError.PointsInto.newline_notMem {l : List Char} {e : ParseError} (h : e.PointsInto l)
    (hl : '\n' ∉ l) : '\n' ∉ e.fault.message.toList := by
  obtain ⟨location, group, key, fault⟩ := e
  show '\n' ∉ fault.message.toList
  unfold SyntaxFault.message
  cases fault with
  | missingGroup | unrecognizedLine => decide
  | invalidGroupName name =>
    obtain ⟨start, tail, -, -, -, hdrop, -⟩ := h
    have hname : '\n' ∉ name.toList := by
      intro hmem
      refine hl (List.mem_of_mem_drop (i := start) ?_)
      rw [hdrop]
      exact List.mem_cons_of_mem '[' (List.mem_append_left _ hmem)
    simp [hname]
  | emptyValue name =>
    obtain ⟨left, hline, -, hname, -⟩ := h
    have hend := trimEnd_prefix l
    have hkey : '\n' ∉ name.toList := by
      intro hmem
      refine hl (hend.subset ?_)
      rw [hname] at hmem
      rw [hline]
      exact List.mem_append_left _ (trim_subset left hmem)
    simp [hkey]
  | invalidKey name => exact h.elim

/-- **A syntax error is told on one line.** -/
theorem newline_notMem_message {path : Path} {text : String} {errors : List ParseError}
    (h : parse path text = .error errors) {e : ParseError} (he : e ∈ errors) :
    '\n' ∉ e.fault.message.toList := by
  obtain ⟨-, rfl⟩ := parse_eq_error_iff.mp h
  rw [syntaxErrors_eq] at he
  obtain ⟨s, hs, b, hread⟩ := Builder.exists_read_of_mem he
  obtain ⟨l, hl, hpoints⟩ := Builder.exists_pointsInto hs hread
  exact hpoints.newline_notMem (newline_notMem_of_lineAt? hl)

end UnitLint
