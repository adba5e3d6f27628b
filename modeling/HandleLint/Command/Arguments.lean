import HandleLint.Config.Basic
import HandleLint.Note

/-!
# Arguments

What a command line asks for. Options are written `--name value` or `--name=value` and may stand
anywhere among the arguments of their command; after `--` there are none. An option that holds one
value may be given once.

* `Token`: what an argument looks like;
* `Options.read`: the options and operands of a command;
* `Invocation.parse`: a whole command line.
-/

namespace HandleLint.Command

inductive Format
  | text | json
  deriving DecidableEq, Repr

/-- What is asked for. -/
inductive Invocation
  | version
  | help
  | check (level : Option Level) (files : List String) (config : Option String) (format : Format)
      (filters : Filters)
  | rules (level : Option Level) (config : Option String)
  deriving Repr

/-- Why reading a command line ends early. -/
inductive Stop
  /-- It asks for nothing that there is. -/
  | usage
  | version
  | help
  deriving DecidableEq, Repr

/-! ## Tokens -/

/-- What an argument looks like. -/
inductive Token
  /-- `--`. -/
  | escape
  /-- `--name`, maybe with `=value`. -/
  | long (name : String) (value : Option String)
  /-- A dash before letters, each an option. -/
  | short (first : Char)
  /-- Anything else, a lone dash too. -/
  | word (text : String)

namespace Token

def ofString (arg : String) : Token :=
  match arg.toList with
  | ['-', '-'] => escape
  | '-' :: '-' :: rest =>
    let name := rest.takeWhile (· ≠ '=')
    match rest.dropWhile (· ≠ '=') with
    | [] => long (String.ofList name) none
    | _ :: value => long (String.ofList name) (some (String.ofList value))
  | '-' :: c :: _ => short c
  | _ => word arg

/-- Whether an argument can be the value of the option before it. -/
def isValue (arg : String) : Bool :=
  match ofString arg with
  | word _ => true
  | _ => false

end Token

/-! ## Values -/

/-- The notes that a name lets through; `off` lets through none. -/
def levelOfName? : String → Option (Option Level)
  | "off" => some none
  | "error" => some (some .error)
  | "warn" => some (some .warn)
  | "info" => some (some .info)
  | "debug" => some (some .debug)
  | "trace" => some (some .trace)
  | _ => none

def formatOfName? : String → Option Format
  | "text" => some .text
  | "json" => some .json
  | _ => none

/-- A path, which is not empty. -/
def path? (text : String) : Option String :=
  if text.isEmpty then none else some text

/-- A value for a setting that has none yet. -/
def setOnce {α : Type} (old : Option α) (new : Option α) : Option (Option α) :=
  if old.isSome then none else new.map some

/-! ## Options of a command -/

/-- What the arguments of a command have said so far. -/
structure Options where
  level : Option (Option Level) := none
  config : Option String := none
  format : Option Format := none
  rules : List String := []
  excludes : List String := []
  files : List String := []

namespace Options

/-- Which options and operands there are beside those of every command. -/
inductive Kind
  | check | rules
  deriving DecidableEq

/-- Sets an option, if the command has it and may be given this value now. -/
def set? (kind : Kind) (o : Options) (name value : String) : Option Options :=
  match name, kind with
  | "log-level", _ => do return { o with level := ← setOnce o.level (levelOfName? value) }
  | "config", _ => do return { o with config := ← setOnce o.config (path? value) }
  | "format", .check => do return { o with format := ← setOnce o.format (formatOfName? value) }
  | "rule", .check => some { o with rules := o.rules ++ [value] }
  | "exclude", .check => some { o with excludes := o.excludes ++ [value] }
  | _, _ => none

/-- Adds an operand, if the command has any. -/
def add? (kind : Kind) (o : Options) (operand : String) : Option Options :=
  match kind with
  | .check => do return { o with files := o.files ++ [← path? operand] }
  | .rules => none

def orUsage {α : Type} : Option α → Except Stop α
  | some a => .ok a
  | none => .error .usage

/-- The options and operands of a command. -/
def read (kind : Kind) : Options → List String → Except Stop Options
  | o, [] => .ok o
  | o, arg :: rest =>
    match Token.ofString arg with
    | .escape => orUsage (rest.foldlM (add? kind) o)
    | .long name (some value) => do read kind (← orUsage (o.set? kind name value)) rest
    | .long name none =>
      if name = "help" then .error .help
      else
        match rest with
        | value :: rest => do
          if Token.isValue value then read kind (← orUsage (o.set? kind name value)) rest
          else .error .usage
        | [] => .error .usage
    | .short c => .error (if c = 'h' then .help else .usage)
    | .word operand => do read kind (← orUsage (o.add? kind operand)) rest

end Options

/-! ## The whole command line -/

namespace Invocation

/-- What is shown of the notes if nothing is said. -/
def defaultLevel : Option Level := some .warn

/-- The command named, with the arguments after its name. A level of notes that stands there wins
over one that stands before it. -/
def ofCommand (level : Option (Option Level)) (name : String) (args : List String) :
    Except Stop Invocation := do
  match name with
  | "check" =>
    let o ← Options.read .check {} args
    if o.files.isEmpty then .error .usage
    else
      return .check ((o.level <|> level).getD defaultLevel) o.files o.config (o.format.getD .text)
        { rules := o.rules, excludes := o.excludes }
  | "rules" =>
    let o ← Options.read .rules {} args
    return .rules ((o.level <|> level).getD defaultLevel) o.config
  | "help" =>
    match args with
    | [] | ["check"] | ["rules"] | ["help"] => .error .help
    | _ => .error .usage
  | _ => .error .usage

/-- The options before a command, and the command. -/
def readFrom (level : Option (Option Level)) : List String → Except Stop Invocation
  | [] => .error .usage
  | arg :: rest =>
    match Token.ofString arg with
    | .escape => .error .usage
    | .long "log-level" (some value) => do
      readFrom (← Options.orUsage (setOnce level (levelOfName? value))) rest
    | .long "log-level" none =>
      match rest with
      | value :: rest => do
        if Token.isValue value then
          readFrom (← Options.orUsage (setOnce level (levelOfName? value))) rest
        else .error .usage
      | [] => .error .usage
    | .long "version" none => .error .version
    | .long "help" none => .error .help
    | .long _ _ => .error .usage
    | .short c => .error (if c = 'V' then .version else if c = 'h' then .help else .usage)
    | .word name => ofCommand level name rest

/-- What a command line asks for, if it asks for something that there is. -/
def parse? (args : List String) : Option Invocation :=
  match readFrom none args with
  | .ok invocation => some invocation
  | .error .version => some .version
  | .error .help => some .help
  | .error .usage => none

/-- The files to read. -/
def paths : Invocation → List String
  | version | help => []
  | check _ files config _ _ => config.toList ++ files
  | rules _ config => config.toList

end Invocation

end HandleLint.Command
