import HandleLint.Config.Decode
import HandleLint.Toml.Reader

/-!
# Configuration files

A configuration file is a TOML document whose keys are those of the configuration. Keys that mean
nothing are passed over; a value of the wrong kind makes the file malformed.
-/

namespace HandleLint

namespace Toml.Value

def text? : Value → Option String
  | string text => some text
  | _ => none

def texts? : Value → Option (List String)
  | array items => items.mapM text?
  | _ => none

/-- The severity that a value names: by a string, or by the one key of a table that holds nothing
more. -/
def severity? : Value → Option Severity
  | string name => Severity.ofName? name
  | table [(name, table [])] | table [(name, array [])] => Severity.ofName? name
  | _ => none

def severities? : Value → Option (Table String Severity)
  | table entries => entries.foldlM (fun severities (key, v) => do
      return severities.insert key (← v.severity?)) {}
  | _ => none

/-- The values of some settings: in a table by their keys, in an array by their places. A date has
none of them. -/
def settings? (keys : List String) : Value → Option (List (Option Value))
  | table entries => some (keys.map fun key => entries.lookup key)
  | array items => some (keys.zipIdx.map fun (_, i) => items[i]?)
  | datetime _ => some (keys.map fun _ => none)
  | _ => none

/-- The value of a setting, or its default where there is none. -/
def orDefault {α : Type} (default : α) (read? : Value → Option α) : Option Value → Option α
  | none => some default
  | some v => read? v

def resourceConfig? (v : Value) : Option ResourceConfig := do
  let [handle, factory, methods, helpers] ←
    v.settings? ["handle-type", "factory-type", "release-methods", "release-helpers"] | none
  let base : ResourceConfig := {}
  return { handleType := ← orDefault base.handleType text? handle,
           factoryType := ← orDefault base.factoryType text? factory,
           releaseMethods := ← orDefault base.releaseMethods texts? methods,
           releaseHelpers := ← orDefault base.releaseHelpers texts? helpers }

def lintConfig? (v : Value) : Option LintConfig := do
  let [resource, rules, exclude, severity] ←
    v.settings? ["resource", "rules", "exclude", "severity"] | none
  return { resource := ← orDefault {} resourceConfig? resource,
           rules := ← orDefault [] texts? rules, exclude := ← orDefault [] texts? exclude,
           severity := ← orDefault {} severities? severity }

end Toml.Value

/-- The configuration that a file's text stands for. -/
def LintConfig.ofToml (text : String) : Except ConfigError LintConfig :=
  match Toml.parse? text with
  | none => .error (.malformed "not a TOML document")
  | some document =>
    match document.lintConfig? with
    | none => .error (.malformed "a setting has a value of the wrong kind")
    | some config => config.validate

end HandleLint
