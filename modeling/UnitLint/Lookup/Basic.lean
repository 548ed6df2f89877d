import UnitLint.Catalog.Basic
import UnitLint.Lookup.Splice
import UnitLint.Text.Integer
import UnitLint.Words.Split

/-! # Looking fields up

The values of a field in a unit file follow from the occurrences of its key by the mode of the
field. An empty occurrence takes back those before it. A value that cannot be split into words
leaves an issue, and keeps the words before the failure. -/

namespace UnitLint

open Text Words

/-- A failure to split a value, and its place in the file. -/
structure SplitIssue where
  location : Location
  error : SplitError
  deriving DecidableEq, Repr

/-- What a field resolves to in a unit file. -/
structure Resolution where
  values : List Value
  issues : List SplitIssue
  deriving DecidableEq, Repr

/-! ### Occurrences -/

/-- The occurrences after the last empty one. -/
def sinceReset (occurrences : List Value) : List Value :=
  (occurrences.reverse.takeWhile fun v => !v.text.isEmpty).reverse

/-- The text without one pair of quotes around it, and how many characters came before it. -/
def unquote (s : List Char) : List Char × Nat :=
  match s with
  | '"' :: inner => if inner.getLast? == some '"' then (inner.dropLast, 1) else (s, 0)
  | _ => (s, 0)

/-- An occurrence, spliced. -/
def splicedValue (key : String) (v : Value) : Value := (Spliced.ofValue v).toValue key

/-- An occurrence, spliced, without the blanks at its end and then one pair of quotes around it. -/
def baseValue (key : String) (v : Value) : Value :=
  let s := Spliced.ofValue v
  let (text, offset) := unquote (trimEnd s.text)
  s.valueAt key text offset

/-- Whether a value is an integer. -/
def isInteger (v : Value) : Bool := (integer? v.text.toList).isSome

/-! ### Words -/

/-- What the words of a value become: each a value of the key, or the pairs among them. -/
inductive WordForm where
  | plain
  | pairs
  deriving DecidableEq, Repr

/-- The texts before and after the first equals sign. -/
def pair? (s : List Char) : Option (List Char × List Char) :=
  match s.dropWhile (· != '=') with
  | [] => none
  | _ :: right => some (s.takeWhile (· != '='), right)

/-- The value of a word at its place in the spliced text. -/
def wordValue? (form : WordForm) (key : String) (s : Spliced) (w : Word) : Option Value :=
  match form with
  | .plain => some (s.valueAt key w.text.toList w.offset)
  | .pairs =>
    (pair? w.text.toList).map fun (left, right) =>
      s.valueAt (String.ofList left) right w.offset

/-- The words of one occurrence. -/
def splitValue (flags : SplitFlags) (form : WordForm) (key : String) (v : Value) : Resolution :=
  let s := Spliced.ofValue v
  let (ws, error) := words flags whitespace s.text
  ⟨ws.filterMap (wordValue? form key s), error.toList.map fun e => ⟨s.locate e.offset, e⟩⟩

/-- The words of several occurrences. -/
def splitValues (flags : SplitFlags) (form : WordForm) (key : String) (vs : List Value) :
    Resolution :=
  let parts := vs.map (splitValue flags form key)
  ⟨parts.flatMap (·.values), parts.flatMap (·.issues)⟩

/-! ### Modes -/

/-- What the occurrences of a key resolve to in a mode. -/
def LookupMode.resolve (mode : LookupMode) (key : String) (occurrences : List Value) : Resolution :=
  let final := occurrences.getLast?
  let live := sinceReset occurrences
  match mode with
  | lastRaw => ⟨final.toList, []⟩
  | last => ⟨(final.map (splicedValue key)).toList, []⟩
  | base => ⟨(final.map (baseValue key)).toList, []⟩
  | boolean => ⟨(final.map (baseValue key)).toList, []⟩
  | int => ⟨((final.map (baseValue key)).filter isInteger).toList, []⟩
  | allRaw => ⟨live, []⟩
  | all => ⟨live.map (splicedValue key), []⟩
  | allStrv => splitValues .values .plain key live
  | allArgs => splitValues .arguments .plain key live
  | lastArgs => splitValues .arguments .plain key final.toList
  | allKeyVal => splitValues .arguments .pairs key live

/-- What a field resolves to in a unit file; a missing group or key has no occurrences. -/
def lookup (u : UnitFile) (f : Field) : Resolution :=
  f.mode.resolve f.key (u.valuesOf f.group f.key)

/-! ### Scalar views -/

/-- Why a resolution has no scalar view. -/
inductive ScalarError where
  /-- There is not exactly one value. -/
  | count (found : Nat)
  /-- The value is no integer. -/
  | notInteger (text : String)
  deriving DecidableEq, Repr

/-- The wording of a scalar error. -/
def ScalarError.message : ScalarError → String
  | count found => "scalar view needs exactly one value, found " ++ toString found
  | notInteger text => "integer view of non-integer value '" ++ text ++ "'"

/-- Whether two texts agree up to the case of ASCII letters. -/
def sameIgnoringCase (a b : String) : Bool :=
  a.toList.map Char.toLower == b.toList.map Char.toLower

/-- The spellings of truth. -/
def trueWords : List String := ["1", "yes", "true", "on"]

/-- Whether a text spells truth. -/
def isTrue (text : String) : Bool := trueWords.any (sameIgnoringCase text)

namespace Resolution

/-- Whether there is a value. -/
def found (r : Resolution) : Bool := !r.values.isEmpty

/-- The one value. -/
def scalar (r : Resolution) : Except ScalarError Value :=
  match r.values with
  | [v] => .ok v
  | vs => .error (.count vs.length)

/-- The one value as a boolean. -/
def boolean (r : Resolution) : Except ScalarError Bool := do
  return isTrue (← r.scalar).text

/-- The one value as an integer. -/
def integer (r : Resolution) : Except ScalarError Int := do
  let v ← r.scalar
  match integer? v.text.toList with
  | some n => return n
  | none => throw (.notInteger v.text)

/-- The one value as a boolean, where no value means `false`. -/
def truthy (r : Resolution) : Except ScalarError Bool :=
  if r.found then r.boolean else .ok false

end Resolution

end UnitLint
