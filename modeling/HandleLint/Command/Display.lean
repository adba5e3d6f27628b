import HandleLint.Command.Disk
import HandleLint.Command.Style
import HandleLint.Config.Decode
import HandleLint.Note
import HandleLint.Report.Basic

/-!
# What commands print

* `Printed`: a piece of text and where it goes;
* `Failure`: why a configuration or a unit cannot be used;
* `Display`: how notes, failures and diagnostics look.
-/

namespace HandleLint.Command

inductive Channel
  | out | err
  deriving DecidableEq, Repr

structure Printed where
  channel : Channel
  text : String
  deriving DecidableEq, Repr

namespace Printed

/-- A line that goes out as a result. -/
def outLine (text : String) : Printed :=
  ⟨.out, text ++ "\n"⟩

/-- A line beside the results. -/
def errLine (text : String) : Printed :=
  ⟨.err, text ++ "\n"⟩

/-- All the text that goes to a channel. -/
def textOn (channel : Channel) (pieces : List Printed) : String :=
  String.join ((pieces.filter (·.channel = channel)).map (·.text))

end Printed

/-- Why a configuration or a unit cannot be used. -/
inductive Failure
  | unreadableConfig (path : String) (cause : ReadError)
  | badConfig (cause : ConfigError)
  | unreadableUnit (path : String) (cause : ReadError)
  | badUnit (path : String)
  deriving DecidableEq, Repr

namespace Failure

def message : Failure → String
  | unreadableConfig path cause => s!"cannot read config `{path}`: {cause.message}"
  | badConfig cause => cause.message
  | unreadableUnit path cause => s!"cannot read `{path}`: {cause.message}"
  | badUnit path => s!"`{path}` is not a valid unit file: not the tree of a source file"

end Failure

/-- How text is shown. -/
structure Display where
  /-- Whether styles are shown. -/
  color : Bool := false
  /-- The least note that is shown. -/
  level : Option Level := some .warn

namespace Display

def paint (d : Display) (style : Style) (text : String) : String :=
  style.paint d.color text

def levelInk : Level → Ink
  | .error => .red
  | .warn => .yellow
  | .info => .blue
  | .debug => .magenta
  | .trace => .green

def severityInk : Severity → Ink
  | .error => .red
  | .warning => .yellow
  | .info => .cyan

def note (d : Display) (n : Note) : Printed :=
  .errLine (d.paint { ink := some (levelInk n.level) } (n.level.name ++ ":") ++ " " ++ n.message)

/-- The notes that are shown. -/
def notes (d : Display) (ns : List Note) : List Printed :=
  (ns.filter fun n => Level.shows d.level n.level).map d.note

def failure (d : Display) (f : Failure) : Printed :=
  .errLine (d.paint { emphasis := some .bold, ink := some .red } "error" ++ ": " ++ f.message)

/-- The bar in front of a source line. -/
def bar (d : Display) : String :=
  d.paint { ink := some .blue } "|"

/-- The lines that say where a diagnostic is: with the source line, if there is one. -/
def place (d : Display) (file : String) (l : Location) : List String :=
  let start := "  " ++ d.paint { ink := some .cyan } "-->" ++ " "
    ++ d.paint { emphasis := some .underline } file
  if l.line = 0 then [start ++ s!" @{l.offset}"]
  else
    [start ++ s!":{l.line}:{l.column}",
      "    " ++ d.bar,
      d.paint { emphasis := some .bold, ink := some .blue } (Text.padLeft 3 (toString l.line))
        ++ " " ++ d.bar ++ " " ++ l.sourceLine,
      "    " ++ d.bar]

def diagnostic (d : Display) (file : String) (x : Diagnostic) : List Printed :=
  let severity :=
    d.paint { emphasis := some .bold, ink := some (severityInk x.severity) } x.severity.name
  let rule := d.paint { emphasis := some .dimmed } x.rule
  let fix := d.paint { emphasis := some .bold, ink := some .green } "fix"
  ([severity ++ "[" ++ rule ++ "]: " ++ x.message] ++ d.place file x.location
    ++ ["    = " ++ fix ++ ": " ++ x.fix, ""]).map .errLine

/-- The mark of a check: whether it passed. -/
def mark (d : Display) (passed : Bool) : String :=
  if passed then d.paint { ink := some .green } "✓" else d.paint { ink := some .red } "✗"

end Display

end HandleLint.Command
