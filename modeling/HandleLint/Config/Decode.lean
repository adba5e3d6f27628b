import HandleLint.Config.Basic
import HandleLint.Json.Decode
import HandleLint.Rule.Basic
import HandleLint.Text.Blank

/-!
# Reading configurations

A configuration is a record whose fields all have defaults. `LintConfig.validate` refuses one that
watches nothing or names rules that there are not.
-/

namespace HandleLint

inductive ConfigError
  /-- The text is no configuration. -/
  | malformed (detail : String)
  /-- A field that must not be empty is. -/
  | empty (field : String)
  /-- A severity is given to a rule that there is not. -/
  | unknownRule (key : String)
  deriving DecidableEq, Repr

namespace ConfigError

def message : ConfigError → String
  | malformed detail => s!"invalid config: {detail}"
  | empty field => s!"`{field}` must not be empty"
  | unknownRule key => s!"unknown rule `{key}` in severity table"

end ConfigError

/-! ## From JSON -/

namespace Decode

open Json (Decoder slots? defaulted textOf texts)

/-- An object whose field names are rules; of a name that stands there twice the last counts. -/
def severities : Decoder (Table String Severity)
  | n + 1, .object fields =>
    fields.foldlM (fun table (name, value) => do
      return table.insert (← name) (← Severity.ofJson? n value)) {}
  | _, _ => none

def resourceConfig : Decoder ResourceConfig
  | n + 1, j => do
    let [handle, factory, methods, helpers] ←
      slots? ["handle-type", "factory-type", "release-methods", "release-helpers"] j | none
    let base : ResourceConfig := {}
    return { handleType := ← defaulted base.handleType textOf handle,
             factoryType := ← defaulted base.factoryType textOf factory,
             releaseMethods := ← defaulted base.releaseMethods (texts n) methods,
             releaseHelpers := ← defaulted base.releaseHelpers (texts n) helpers }
  | 0, _ => none

def lintConfig : Decoder LintConfig
  | n + 1, j => do
    let [resource, rules, exclude, severity] ←
      slots? ["resource", "rules", "exclude", "severity"] j | none
    return { resource := ← defaulted {} (resourceConfig n) resource,
             rules := ← defaulted [] (texts n) rules, exclude := ← defaulted [] (texts n) exclude,
             severity := ← defaulted {} (severities n) severity }
  | 0, _ => none

end Decode

/-! ## Validation -/

namespace LintConfig

/-- A configuration from a JSON value. -/
def ofJson? (j : Json) : Option LintConfig :=
  Decode.lintConfig Json.maxNesting j

/-- Refuses a configuration that watches nothing or names rules that there are not. -/
def validate (c : LintConfig) : Except ConfigError LintConfig :=
  if Text.isBlankText c.resource.handleType then .error (.empty "resource.handle-type")
  else if Text.isBlankText c.resource.factoryType then .error (.empty "resource.factory-type")
  else if c.resource.releaseMethods.isEmpty then .error (.empty "resource.release-methods")
  else
    match c.severity.keys.find? (· ∉ Rule.keys) with
    | some key => .error (.unknownRule key)
    | none => .ok c

end LintConfig

end HandleLint
