import UnitLint.Json.Token

/-! # Parsing JSON

A value is read from the front of the tokens, and leaves fewer tokens than it was given. A text is a
document if its tokens are one value. -/

namespace UnitLint.Json

/-- Fewer tokens than `ts`. -/
abbrev Rest (ts : List Token) : Type := { rest : List Token // rest.length < ts.length }

/-- The rest of longer tokens. -/
def Rest.widen {ts us : List Token} (r : Rest us) (h : us.length ≤ ts.length) : Rest ts :=
  ⟨r.1, Nat.lt_of_lt_of_le r.2 h⟩

/-- What follows the first two tokens. -/
def Rest.afterTwo {t u : Token} (us : List Token) : Rest (t :: u :: us) :=
  ⟨us, Nat.lt_add_of_pos_right Nat.two_pos⟩

mutual

/-- Reads a value. -/
def value? (ts : List Token) : Option (Json (Option String) × Rest ts) :=
  match ts with
  | .scalar j :: us => some (j, ⟨us, Nat.lt_succ_self _⟩)
  | .openArray :: .closeArray :: us => some (.array [], Rest.afterTwo us)
  | .openArray :: us =>
    (items? us).map fun (items, rest) => (.array items, rest.widen (Nat.le_succ _))
  | .openObject :: .closeObject :: us => some (.object [], Rest.afterTwo us)
  | .openObject :: us =>
    (members? us).map fun (members, rest) => (.object members, rest.widen (Nat.le_succ _))
  | _ => none
termination_by (ts.length, 0)

/-- Reads the items of an array that is not empty, and its closing bracket. -/
def items? (ts : List Token) : Option (List (Json (Option String)) × Rest ts) :=
  match value? ts with
  | some (item, ⟨.closeArray :: us, h⟩) => some ([item], ⟨us, Nat.lt_of_succ_lt h⟩)
  | some (item, ⟨.comma :: us, h⟩) =>
    have : us.length < ts.length := Nat.lt_of_succ_lt h
    (items? us).map fun (items, rest) => (item :: items, rest.widen (Nat.le_of_lt this))
  | _ => none
termination_by (ts.length, 1)

/-- Reads the members of an object that is not empty, and its closing bracket. -/
def members? (ts : List Token) : Option (List (Option String × Json (Option String)) × Rest ts) :=
  match ts with
  | .scalar (.string name) :: .colon :: us =>
    match value? us with
    | some (value, ⟨.closeObject :: vs, h⟩) =>
      some ([(name, value)], ⟨vs, by simp only [List.length_cons] at h ⊢; omega⟩)
    | some (value, ⟨.comma :: vs, h⟩) =>
      have : vs.length < us.length := Nat.lt_of_succ_lt h
      (members? vs).map fun (members, rest) =>
        ((name, value) :: members, rest.widen (by simp only [List.length_cons]; omega))
    | _ => none
  | _ => none
termination_by (ts.length, 1)

end

/-- The value that a text is. -/
def parse? (s : List Char) : Option (Json (Option String)) :=
  match tokens? s with
  | none => none
  | some ts =>
    match value? ts with
    | some (j, ⟨[], _⟩) => some j
    | _ => none

end UnitLint.Json
