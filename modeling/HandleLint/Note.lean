import HandleLint.Handles.Creation
import HandleLint.Names.Problem

/-!
# Notes

What the analysis notices on its way, for a log. `Note.message` gives the words, `Note.level` how
much a note matters, and `Level.shows` which notes a chosen level lets through.
-/

namespace HandleLint

/-- How much a note matters, from most to least. -/
inductive Level
  | error | warn | info | debug | trace
  deriving DecidableEq, Repr

namespace Level

def rank : Level → Nat
  | error => 1
  | warn => 2
  | info => 3
  | debug => 4
  | trace => 5

def name : Level → String
  | error => "error"
  | warn => "warn"
  | info => "info"
  | debug => "debug"
  | trace => "trace"

/-- Whether notes of a level are shown when notes down to `least` are asked for. -/
def shows (least : Option Level) (level : Level) : Bool :=
  match least with
  | none => false
  | some least => level.rank ≤ least.rank

end Level

inductive Note
  /-- A configuration file is used. -/
  | usingConfig (path : String)
  /-- A call without receiver names no method of the classes around it. -/
  | noLocalMethod (method : String) (arity : Nat)
  /-- Nothing is known of a method called on a type declared elsewhere. -/
  | noSignature (owner method : String)
  /-- Names are resolved. -/
  | resolved (symbols calls problems : Nat)
  | problem (path : String) (problem : Problem)
  /-- A variable of a method is bound to a new handle. -/
  | holdsHandle (method var : String) (creation : Creation)
  /-- A variable with a new handle is returned. -/
  | returned (method var : String)
  /-- It is found out whether a method creates what it returns. -/
  | classified (helper : SymbolId) (name : String) (creates : Bool)
  /-- A variable is passed to a call that releases it. -/
  | handedOff (method var helper : String)
  | ruleFires (method var rule : String)
  /-- A file is checked. -/
  | findings (file : String) (count : Nat)
  deriving DecidableEq, Repr

namespace Note

def level : Note → Level
  | usingConfig _ => .info
  | _ => .debug

def message : Note → String
  | usingConfig path => s!"using config {path}"
  | noLocalMethod method arity => s!"no local method `{method}` taking {arity} argument(s)"
  | noSignature owner method => s!"no signature for `{owner}#{method}`"
  | resolved symbols calls problems =>
    s!"resolved {symbols} symbols, {calls} calls, {problems} problem(s)"
  | problem path p =>
    s!"{path}: {p.message} at Span \x7b start: {p.span.start}, end: {p.span.stop} \x7d"
  | holdsHandle method v creation =>
    s!"{method}: `{v}` holds a manually created handle ({creation.describe})"
  | returned method v => s!"{method}: `{v}` is returned to the caller"
  | classified _ name creates => s!"helper `{name}` manually creates: {creates}"
  | handedOff method v helper => s!"{method}: `{v}` handed to `{helper}`"
  | ruleFires method v rule => s!"{method}: `{v}` fires {rule}"
  | findings file count => s!"{file}: {count} finding(s)"

/-- A note as a line of a log. -/
def line (n : Note) : String :=
  n.level.name ++ ": " ++ n.message

end Note

end HandleLint
