import HandleLint.Json.Value

/-!
# Decoding JSON values

Pieces for reading typed values out of JSON. A decoder takes the *room* it has: how many levels of
arrays and objects may still be opened. Values that are not looked at need no room.

* `Slot`, `slots?`: the fields of a record, which is written as an object or as an array of its
  fields in order;
* `required`, `defaulted`, `optional`, `optionalField`: reading one field;
* `Variant`, `variant?`: one of several forms, written as its name or as an object with its name
  as only field;
* `word32`, `word64`, `signed64`: integers in range.
-/

namespace HandleLint.Json

/-- Reads a value, given how many levels of arrays and objects may be opened. -/
abbrev Decoder (α : Type) := (room : Nat) → Json → Option α

/-- How many levels of arrays and objects a file may nest. -/
def maxNesting : Nat := 127

/-! ## Records -/

/-- What a record has for a field. -/
inductive Slot
  | given (value : Json)
  /-- Not among the fields of an object. -/
  | absent
  /-- Past the end of an array. -/
  | cut

/-- The value of a field of an object: refused if the field stands there twice. -/
def fieldSlot? (name : String) (fields : List (Option String × Json)) : Option Slot :=
  match fields.filter (fun f => f.1 == some name) with
  | [] => some .absent
  | [(_, value)] => some (.given value)
  | _ => none

/-- The values of an array by position, for as many fields as there are names. -/
def positionSlots? : List String → List Json → Option (List Slot)
  | [], [] => some []
  | [], _ :: _ => none
  | _ :: names, [] => (positionSlots? names []).map (.cut :: ·)
  | _ :: names, v :: items => (positionSlots? names items).map (.given v :: ·)

/-- The fields of a record by their names. Other fields of an object are passed over, but every
field name must be a text. An array holds the fields in order and nothing else. -/
def slots? (names : List String) : Json → Option (List Slot)
  | .object fields =>
    if fields.all (·.1.isSome) then names.mapM (fieldSlot? · fields) else none
  | .array items => positionSlots? names items
  | _ => none

/-- A field that must be there. -/
def required {α : Type} (decode : Json → Option α) : Slot → Option α
  | .given value => decode value
  | .absent | .cut => none

/-- A field that may be left out, and then has a value of its own. -/
def defaulted {α : Type} (default : α) (decode : Json → Option α) : Slot → Option α
  | .given value => decode value
  | .absent | .cut => some default

/-- A value or `null`. -/
def nullable {α : Type} (decode : Json → Option α) : Json → Option (Option α)
  | .null => some none
  | value => (decode value).map some

/-- A field that may be left out of an object or be `null`, but not left out of an array. -/
def optional {α : Type} (decode : Json → Option α) : Slot → Option (Option α)
  | .given value => nullable decode value
  | .absent => some none
  | .cut => none

/-- A field that may be left out or be `null`. -/
def optionalField {α : Type} (decode : Json → Option α) : Slot → Option (Option α)
  | .given value => nullable decode value
  | .absent | .cut => some none

/-! ## Variants -/

/-- One of several forms, with its content if it has one. -/
structure Variant where
  name : String
  content : Option Json

/-- A form is written as its name, or as an object with its name as only field. -/
def variant? : Json → Option Variant
  | .string (some name) => some ⟨name, none⟩
  | .object [(some name, content)] => some ⟨name, some content⟩
  | _ => none

/-- A form without content: its name alone, or with `null`. -/
def plainVariant? (room : Nat) (j : Json) : Option String := do
  let v ← variant? j
  match v.content with
  | none => return v.name
  | some .null => if room = 0 then none else return v.name
  | some _ => none

/-! ## Leaves and lists -/

def textOf : Json → Option String
  | .string text => text
  | _ => none

def boolOf : Json → Option Bool
  | .bool b => some b
  | _ => none

/-- An integer from 0 up to a bound, which is left out. -/
def natBelow (bound : Nat) : Json → Option Nat
  | .int (.ofNat n) => if n < bound then some n else none
  | _ => none

def word32 (j : Json) : Option UInt32 :=
  (natBelow UInt32.size j).map UInt32.ofNat

def word64 (j : Json) : Option UInt64 :=
  (natBelow UInt64.size j).map UInt64.ofNat

def signed64 : Json → Option Int64
  | .int n =>
    if Int64.minValue.toInt ≤ n ∧ n ≤ Int64.maxValue.toInt then some (Int64.ofInt n) else none
  | _ => none

/-- A list of values that need no room themselves. -/
def listOf {α : Type} (decode : Json → Option α) : Decoder (List α)
  | _ + 1, .array items => items.mapM decode
  | _, _ => none

def texts : Decoder (List String) :=
  listOf textOf

end HandleLint.Json
