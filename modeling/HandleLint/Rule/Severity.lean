import HandleLint.Json.Decode

/-!
# Severities

How much a finding matters. Only errors make a check fail.
-/

namespace HandleLint

inductive Severity
  | error
  | warning
  | info
  deriving DecidableEq, Repr, Inhabited

namespace Severity

def name : Severity → String
  | error => "error"
  | warning => "warning"
  | info => "info"

def ofName? : String → Option Severity
  | "error" => some error
  | "warning" => some warning
  | "info" => some info
  | _ => none

def ofJson? (room : Nat) (j : Json) : Option Severity := do
  ofName? (← Json.plainVariant? room j)

end Severity

end HandleLint
