import UnitLint.Proofs.Text.Utf8
import UnitLint.Proofs.Words.Scan
import Mathlib.Data.List.Forall2

/-! # Pieces of a spelling

A piece of a spelling adds bytes to the word, and leaves the quote that is open as it is, whatever
comes after it (`Adds`). A character that means nothing special is such a piece, and so is an escape
with all its characters. Pieces in a row add their bytes in a row (`Adds.flatten`), so what spells
each character spells a text. -/

namespace UnitLint.Words

open Text

variable {flags : SplitFlags} {separators : List Char} {quote : Option Quote}

/-- The piece adds the bytes, whatever comes after it. -/
def Adds (flags : SplitFlags) (separators : List Char) (quote : Option Quote) (piece : List Char)
    (bytes : List UInt8) : Prop :=
  ∀ offset rest, scan flags separators quote ⟨offset, piece ++ rest⟩ =
    (scan flags separators quote ⟨offset + piece.length, rest⟩).map fun p => (bytes ++ p.1, p.2)

namespace Adds

theorem nil : Adds flags separators quote [] [] := by
  intro offset rest
  cases h : scan flags separators quote ⟨offset, rest⟩ <;> simp [h, Except.map]

theorem append {piece piece' : List Char} {bytes bytes' : List UInt8}
    (h : Adds flags separators quote piece bytes) (h' : Adds flags separators quote piece' bytes') :
    Adds flags separators quote (piece ++ piece') (bytes ++ bytes') := by
  intro offset rest
  have hoffset : offset + (piece ++ piece').length = offset + piece.length + piece'.length := by
    rw [List.length_append, Nat.add_assoc]
  rw [List.append_assoc, h, h', hoffset]
  cases scan flags separators quote ⟨offset + piece.length + piece'.length, rest⟩ with
  | error e => rfl
  | ok p => simp [Except.map]

/-- **Pieces in a row**, each for one item, add the bytes of the items. -/
theorem flatten {α : Type} {spells : α → List Char → Prop} {bytes : α → List UInt8} {items : List α}
    {pieces : List (List Char)} (h : List.Forall₂ spells items pieces)
    (hadds : ∀ a ∈ items, ∀ piece, spells a piece →
      Adds flags separators quote piece (bytes a)) :
    Adds flags separators quote pieces.flatten (items.flatMap bytes) := by
  induction h with
  | nil => exact nil
  | @cons a piece items pieces ha _ ih =>
    have hrest := ih fun a' ha' => hadds a' (List.mem_cons_of_mem a ha')
    exact (hadds a (List.mem_cons_self ..) piece ha).append hrest

theorem flatMap {spell : Char → List Char}
    (h : ∀ c, Adds flags separators quote (spell c) (String.utf8EncodeChar c)) (w : List Char) :
    Adds flags separators quote (w.flatMap spell) (Utf8.encode w) := by
  have hpieces : List.Forall₂ (fun c piece => piece = spell c) w (w.map spell) :=
    List.forall₂_map_right_iff.mpr (List.forall₂_same.mpr fun _ _ => rfl)
  rw [List.flatMap_def]
  refine flatten hpieces ?_
  rintro c - piece rfl
  exact h c

theorem of_step {piece : List Char} {bytes : List UInt8}
    (h : ∀ offset rest, step flags separators quote ⟨offset, piece ++ rest⟩ =
      .emit bytes quote ⟨offset + piece.length, rest⟩) :
    Adds flags separators quote piece bytes := fun offset rest => scan_of_emit (h offset rest)

/-! ### Characters -/

theorem plain {c : Char} (hescape : (flags.escaping && c == '\\') = false)
    (hmark : (flags.quoting && isQuoteMark c) = false) (hsep : separators.contains c = false) :
    Adds flags separators none [c] (String.utf8EncodeChar c) := by
  refine of_step fun offset rest => ?_
  rw [List.singleton_append, step_plain hescape, plainStep, if_neg (by simp [hmark]),
    if_neg (by simpa using hsep)]
  rfl

theorem quoted {c : Char} {q : Quote} (hescape : (flags.escaping && c == '\\') = false)
    (hmark : (c == q.mark) = false) :
    Adds flags separators (some q) [c] (String.utf8EncodeChar c) := by
  refine of_step fun offset rest => ?_
  rw [List.singleton_append, step_quoted hescape, quotedStep, if_neg (by simp [hmark])]
  rfl

/-! ### Escapes -/

theorem escape {c : Char} {s : List Char} {d : Decoded} (hescaping : flags.escaping = true)
    (h : Words.escape flags c s = .ok (d, s.length + 1)) :
    Adds flags separators quote ('\\' :: c :: s) d.bytes := by
  refine of_step fun offset rest => ?_
  have happend := escape_append h rest
  rw [List.cons_append, List.cons_append, step_backslash hescaping, escapeStep, happend]
  have hdrop : (c :: (s ++ rest)).drop (s.length + 1) = rest := by simp
  have hoffset : offset + 1 + (s.length + 1) = offset + ('\\' :: c :: s).length := by
    simp only [List.length_cons]
    omega
  dsimp only
  rw [hdrop, hoffset]

/-- Where escapes are for separators alone, a backslash before one is dropped. -/
theorem escaped {c : Char} (hescaping : flags.escaping = true) (hunescape : flags.unescape = false)
    (hflag : flags.unescapeSeparators = true) (hc : (separators.contains c || c == '\\') = true) :
    Adds flags separators quote ['\\', c] (String.utf8EncodeChar c) := by
  refine of_step fun offset rest => ?_
  have herror : Words.escape flags c rest = .error (.unknown c) := by
    rw [Words.escape, if_neg (by simp [hunescape]), if_pos hflag]
  rw [List.cons_append, List.singleton_append, step_backslash hescaping, escapeStep, herror]
  dsimp only
  rw [hflag, hc]
  rfl

end Adds

end UnitLint.Words
