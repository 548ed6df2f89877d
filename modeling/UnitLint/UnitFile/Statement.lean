import UnitLint.Text.Blank

/-! # Statements

The lines of a unit file are read as statements. A line without its outer blanks is a comment if it
is empty or starts with `#` or `;`, a header if it is a name in brackets, and an entry if it has an
equals sign after its first character. An entry that ends with a backslash takes in the lines after
it, without the blanks at their end, up to one that does not. -/

namespace UnitLint

open Text

/-- What a line of a unit file says. -/
inductive Statement where
  /-- A name in brackets. -/
  | header (name : List Char)
  /-- The text before the first equals sign, the text after it, and the lines that continue it. -/
  | entry (left right : List Char) (continued : List (List Char))
  /-- Anything else but a comment. -/
  | unrecognized
  deriving DecidableEq, Repr

namespace Statement

/-- Whether a line without its outer blanks says nothing. -/
def isComment : List Char → Bool
  | [] => true
  | c :: _ => c == '#' || c == ';'

/-- The name of a header: all up to the first closing bracket, which only spaces and tabs follow. -/
def headerName? : List Char → Option (List Char)
  | '[' :: s =>
    match s.dropWhile (· != ']') with
    | [] => none
    | _ :: rest =>
      if rest.all fun c => c == ' ' || c == '\t' then some (s.takeWhile (· != ']')) else none
  | _ => none

/-- The texts before and after the first equals sign, which must not come first. -/
def sides? (s : List Char) : Option (List Char × List Char) :=
  match s.takeWhile (· != '='), s.dropWhile (· != '=') with
  | c :: left, _ :: right => some (c :: left, right)
  | _, _ => none

/-- Whether a text is continued on the next line. -/
def isContinued (s : List Char) : Bool := s.getLast? == some '\\'

/-- The lines that continue a text, without the blanks at their end, and the lines after them. -/
def continuation (s : List Char) : List (List Char) → List (List Char) × List (List Char)
  | [] => ([], [])
  | l :: ls =>
    if isContinued s then
      let (more, rest) := continuation (trimEnd l) ls
      (trimEnd l :: more, rest)
    else ([], l :: ls)

theorem continuation_lengths (s : List Char) (ls : List (List Char)) :
    (continuation s ls).1.length + (continuation s ls).2.length = ls.length := by
  induction ls generalizing s with
  | nil => rfl
  | cons l ls ih =>
    unfold continuation
    split
    · have := ih (trimEnd l)
      simp only [List.length_cons]
      omega
    · simp

/-- What a line without its outer blanks says, and the lines left by it of those that follow. -/
def ofLine (line : List Char) (following : List (List Char)) : Statement × List (List Char) :=
  match headerName? line, sides? line with
  | some name, _ => (.header name, following)
  | none, some (left, right) =>
    let (more, rest) := continuation right following
    (.entry left right more, rest)
  | none, none => (.unrecognized, following)

theorem length_ofLine_le (line : List Char) (following : List (List Char)) :
    (ofLine line following).2.length ≤ following.length := by
  unfold ofLine
  split
  · exact Nat.le_refl _
  · rename_i left right _ _
    have := continuation_lengths right following
    dsimp only
    omega
  · exact Nat.le_refl _

/-- A statement, the line that it starts on, and how many blanks that line starts with. -/
structure Located where
  line : Nat
  indent : Nat
  statement : Statement
  deriving DecidableEq, Repr

/-- The statements of the lines, the first of which has the given number. -/
def ofLines (number : Nat) : List (List Char) → List Located
  | [] => []
  | l :: ls =>
    if isComment (trim l) then ofLines (number + 1) ls
    else
      let rest := (ofLine (trim l) ls).2
      ⟨number, indent l, (ofLine (trim l) ls).1⟩
        :: ofLines (number + 1 + (ls.length - rest.length)) rest
termination_by ls => ls.length
decreasing_by
  · exact Nat.lt_succ_self _
  · exact Nat.lt_succ_of_le (length_ofLine_le _ _)

end Statement

end UnitLint
