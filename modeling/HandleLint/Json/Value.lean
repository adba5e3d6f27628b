/-!
# JSON values

A JSON value as its text has it: object fields keep their order, and a field may stand there twice.
A string whose escapes leave a surrogate without its partner is no text; it is kept as `none`.
-/

namespace HandleLint

inductive Json
  | null
  | bool (value : Bool)
  /-- A number written with digits alone, after a minus sign if it is negative. -/
  | int (value : Int)
  /-- Any other number, as it is written; minus zero is one of them. -/
  | decimal (literal : String)
  | string (text : Option String)
  | array (items : List Json)
  | object (fields : List (Option String × Json))
  deriving Inhabited

namespace Json

def text (s : String) : Json :=
  .string (some s)

def nat (n : Nat) : Json :=
  .int n

/-- An object whose field names are texts. -/
def record (fields : List (String × Json)) : Json :=
  .object (fields.map fun (name, value) => (some name, value))

/-- A value or `null`. -/
def option {α : Type} (encode : α → Json) : Option α → Json
  | none => .null
  | some a => encode a

def list {α : Type} (encode : α → Json) (items : List α) : Json :=
  .array (items.map encode)

end Json

end HandleLint
