/-! # JSON values

Numbers keep the text that they are written with. The type of strings is left open: a document that
is written has texts, while one that is read may have strings that are no text, because they hold an
escaped surrogate without its partner. -/

namespace UnitLint

/-- A JSON value with strings of type `σ`. -/
inductive Json (σ : Type) where
  | null
  | bool (b : Bool)
  | number (digits : String)
  | string (s : σ)
  | array (items : List (Json σ))
  | object (members : List (σ × Json σ))
  deriving Repr

/-- A natural number as JSON. -/
def Json.nat {σ : Type} (n : Nat) : Json σ := number (toString n)

end UnitLint
