import UnitLint.Lookup.Basic
import UnitLint.Proofs.Failure

/-! # Scalar modes

In five modes a field resolves to the last occurrence of its key alone, or to nothing, and nothing
is split (`LookupMode.resolve_of_isScalar`). So there is always a boolean view
(`Resolution.exists_truthy_iff`), and in the integer mode there is an integer view of what is found
(`exists_integer_of_found`). -/

namespace UnitLint

/-- The modes that make at most one value of all the occurrences. -/
def LookupMode.isScalar : LookupMode → Bool
  | lastRaw | last | base | boolean | int => true
  | allRaw | all | allStrv | allArgs | lastArgs | allKeyVal => false

theorem LookupMode.resolve_of_isScalar {mode : LookupMode} (h : mode.isScalar = true) (key : String)
    (occurrences : List Value) :
    ∃ value? : Option Value, mode.resolve key occurrences = ⟨value?.toList, []⟩ := by
  cases mode with
  | lastRaw | last | base | boolean | int => exact ⟨_, rfl⟩
  | allRaw | all | allStrv | allArgs | lastArgs | allKeyVal => cases h

/-- **A scalar mode** gives at most one value, and no issues. -/
theorem lookup_of_isScalar (u : UnitFile) {f : Field} (h : f.mode.isScalar = true) :
    (lookup u f).values.length ≤ 1 ∧ (lookup u f).issues = [] := by
  obtain ⟨value?, hvalue⟩ :=
    LookupMode.resolve_of_isScalar h f.key (u.valuesOf f.group f.key)
  unfold lookup
  rw [hvalue]
  exact ⟨Option.length_toList_le, rfl⟩

namespace Resolution

variable {r : Resolution}

theorem scalar_eq_ok_iff {v : Value} : r.scalar = .ok v ↔ r.values = [v] := by
  unfold scalar
  rcases r.values with _ | ⟨w, _ | ⟨w', ws⟩⟩ <;> simp

theorem exists_truthy_iff : (∃ b, r.truthy = .ok b) ↔ r.values.length ≤ 1 := by
  unfold truthy boolean found scalar
  rcases r with ⟨_ | ⟨v, _ | ⟨w, vs⟩⟩, issues⟩ <;> simp [bind, Except.bind, pure, Except.pure]

end Resolution

theorem lookup_of_int {u : UnitFile} {f : Field} (hmode : f.mode = .int) : lookup u f =
    ⟨(((u.valuesOf f.group f.key).getLast?.map (baseValue f.key)).filter isInteger).toList, []⟩ := by
  unfold lookup
  rw [hmode]
  rfl

/-- An integer field is found just if the last occurrence of its key is an integer. -/
theorem found_int_iff {u : UnitFile} {f : Field} (hmode : f.mode = .int) :
    (lookup u f).found = true ↔ ∃ o, (u.valuesOf f.group f.key).getLast? = some o ∧
      isInteger (baseValue f.key o) = true := by
  rw [lookup_of_int hmode, Resolution.found]
  cases (u.valuesOf f.group f.key).getLast? with
  | none => simp
  | some o => cases hinteger : isInteger (baseValue f.key o) <;> simp [hinteger]

theorem exists_integer_of_found {u : UnitFile} {f : Field} (hmode : f.mode = .int)
    (hfound : (lookup u f).found = true) : ∃ n, (lookup u f).integer = .ok n := by
  rw [lookup_of_int hmode] at hfound ⊢
  cases hvalue : (((u.valuesOf f.group f.key).getLast?).map (baseValue f.key)).filter isInteger with
  | none =>
    rw [hvalue] at hfound
    cases hfound
  | some v =>
    have hinteger : isInteger v = true := (Option.filter_eq_some_iff.mp hvalue).2
    obtain ⟨n, hn⟩ := Option.isSome_iff_exists.mp hinteger
    refine ⟨n, bind_eq_ok_iff.mpr ⟨v, Resolution.scalar_eq_ok_iff.mpr rfl, ?_⟩⟩
    rw [hn]
    rfl

end UnitLint
