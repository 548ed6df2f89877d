import UnitLint.Check.Condition
import UnitLint.Check.Context
import UnitLint.Check.ImageName
import UnitLint.Check.ValueTest
import UnitLint.Finding

/-! # Rules

A rule is attached to a field and looks at what the field resolves to. A finding about the field as
a whole is placed at its anchor: the key of its last entry, or else the header of its group, or else
the file; a finding about a value is placed at the value. -/

namespace UnitLint

/-- A rule for a field, where `φ` is the type of references to other fields. -/
inductive Rule (φ : Type) where
  /-- The field has a value. -/
  | required
  /-- The field or the other one has a value. -/
  | requiredIfNotPresent (other : φ)
  /-- No other field of the list has a value beside this one. -/
  | conflictsWith (others : List φ)
  /-- Every value is one of the texts. -/
  | allowedValues (texts : List String)
  /-- Every value ends with the text. -/
  | hasSuffix (ending : String)
  /-- The other field has a value if this one has. -/
  | dependsOn (other : φ)
  /-- The key does not occur. -/
  | deprecated
  /-- A value that names a unit of one of the types names a unit of the run. -/
  | canReference (types : List UnitType)
  /-- The values pass the test if the condition holds. -/
  | valuesMust (test : ValueTest) (gate : Condition φ) (message : String)
  /-- Every value spells a boolean. -/
  | validBoolean
  /-- The key has an integer as its value if it occurs. -/
  | validInteger
  /-- No value is an ambiguous image name. -/
  | imageNotAmbiguous
  /-- There is always a finding. -/
  | report (category : Category) (message : String)
  deriving DecidableEq, Repr

/-- What a rule is checked on: a field of a unit file in a run, by a validator. -/
structure Check where
  context : Context
  unit : UnitFile
  field : Field
  validator : String

namespace Check

/-- The place of a finding about the field as a whole. -/
def anchor (c : Check) : Location :=
  match c.unit.group? c.field.group with
  | none => .wholeFile
  | some g =>
    match (g.entriesOf c.field.key).getLast? with
    | some e => e.location
    | none => g.location

/-- A finding of the validator. -/
def finding (c : Check) (category : Category) (location : Location) (message : String) : Finding :=
  ⟨c.validator, category, location, message⟩

/-- A finding about the field as a whole. -/
def findingAtAnchor (c : Check) (category : Category) (message : String) : Finding :=
  c.finding category c.anchor message

/-- Whether another field has a value. -/
def isPresent (c : Check) (f : Field) : Bool := (lookup c.unit f).found

/-- A finding for each value of the field that does not pass, with a message about it. -/
def eachValue (c : Check) (category : Category) (r : Resolution) (passes : Value → Bool)
    (message : Value → String) : List Finding :=
  (r.values.filter fun v => !passes v).map fun v => c.finding category v.location (message v)

/-- The missing unit that a value refers to, if references are checked: its type and file name. -/
def missingUnit? (c : Check) (types : List UnitType) (v : Value) : Option (UnitType × String) :=
  let target := v.text.toList.takeWhile (· != ':')
  match types.find? (UnitType.namedBy target) with
  | none => none
  | some t =>
    if c.context.checkReferences && !c.context.hasUnit (String.ofList target) then
      some (t, String.ofList target)
    else none

end Check

/-- The spellings of booleans. -/
def booleanWords : List String :=
  ["1", "yes", "y", "true", "t", "on", "0", "no", "n", "false", "f", "off"]

/-- Whether a text spells a boolean. -/
def isBoolean (text : String) : Bool := booleanWords.any (sameIgnoringCase text)

namespace Rule

/-- The findings of a rule for a field that resolves to `r`. -/
def findings (c : Check) (r : Resolution) : Rule Field → Except ScalarError (List Finding)
  | required =>
    .ok (if r.found then []
      else [c.findingAtAnchor .requiredKey ("key " ++ c.field.key ++ " is required")])
  | requiredIfNotPresent other =>
    .ok (if r.found || c.isPresent other then []
      else [c.findingAtAnchor .requiredKey
        ("one of keys " ++ c.field.key ++ " or " ++ other.key ++ " is required")])
  | conflictsWith others =>
    .ok (if r.found then
        (others.filter c.isPresent).map fun other =>
          c.findingAtAnchor .keyConflict
            ("keys " ++ c.field.key ++ " and " ++ other.key ++ " are mutually exclusive")
      else [])
  | allowedValues texts =>
    .ok (c.eachValue .invalidValue r (fun v => texts.contains v.text) fun v =>
      "invalid value '" ++ v.text ++ "' for key " ++ c.field.key ++ ", allowed values: " ++
        String.intercalate ", " texts)
  | hasSuffix ending =>
    .ok (c.eachValue .invalidValue r (fun v => ending.toList.isSuffixOf v.text.toList) fun v =>
      "value '" ++ v.text ++ "' of key " ++ c.field.key ++ " must end with " ++ ending)
  | dependsOn other =>
    .ok (if r.found && !c.isPresent other then
        [c.findingAtAnchor .unsatisfiedDependency
          ("key " ++ c.field.key ++ " requires key " ++ other.key ++ " to be set")]
      else [])
  | deprecated =>
    .ok (if c.unit.hasKey c.field.group c.field.key then
        [c.findingAtAnchor .deprecatedKey ("key " ++ c.field.key ++ " is deprecated")]
      else [])
  | canReference types =>
    .ok (r.values.filterMap fun v =>
      (c.missingUnit? types v).map fun (t, name) =>
        c.finding .invalidReference v.location
          ("requested " ++ t.name ++ " unit " ++ name ++ " was not found"))
  | valuesMust test gate message => do
    if ← gate.holds c.unit then
      if ← test.passes r then return []
      else
        let location := (r.values.head?.map (·.location)).getD c.anchor
        return [c.finding .invalidValue location message]
    else return []
  | validBoolean =>
    .ok (c.eachValue .invalidValue r (fun v => isBoolean v.text) fun v =>
      "invalid boolean '" ++ v.text ++ "' for key " ++ c.field.key)
  | validInteger =>
    .ok (if r.found then []
      else
        match (c.unit.valuesOf c.field.group c.field.key).getLast? with
        | none => []
        | some v =>
          [c.finding .invalidValue v.location
            ("invalid integer '" ++ String.ofList (Text.trim v.text.toList) ++ "' for key " ++
              c.field.key)])
  | imageNotAmbiguous =>
    .ok (c.eachValue .ambiguousImageName r (fun v => !ImageName.isAmbiguous v.text.toList) fun v =>
      "image name '" ++ v.text ++ "' is not fully qualified")
  | report category message => .ok [c.findingAtAnchor category message]

/-- The rule with its references replaced by what `bind` finds for them, or the first failure. -/
def bindFields {φ ψ ε : Type} (bind : φ → Except ε ψ) : Rule φ → Except ε (Rule ψ)
  | required => .ok required
  | requiredIfNotPresent other => do return requiredIfNotPresent (← bind other)
  | conflictsWith others => do return conflictsWith (← others.mapM bind)
  | allowedValues texts => .ok (allowedValues texts)
  | hasSuffix ending => .ok (hasSuffix ending)
  | dependsOn other => do return dependsOn (← bind other)
  | deprecated => .ok deprecated
  | canReference types => .ok (canReference types)
  | valuesMust test gate message => do return valuesMust test (← gate.bindFields bind) message
  | validBoolean => .ok validBoolean
  | validInteger => .ok validInteger
  | imageNotAmbiguous => .ok imageNotAmbiguous
  | report category message => .ok (report category message)

end Rule

end UnitLint
