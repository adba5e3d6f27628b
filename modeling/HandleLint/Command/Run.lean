import HandleLint.Command.Check
import HandleLint.Config.Toml

/-!
# Running commands

A command line, the files it may read and whether styles are shown decide what is printed and with
which code the program ends.

* `loadConfig`: the configuration of a command;
* `listRules`: the rules with the severities they would run at;
* `run`: a whole command.
-/

namespace HandleLint.Command

/-- The configuration in a file, or the default one, with the notes on it. -/
def loadConfig (read : String → Except ReadError String) (path : Option String) :
    Except Failure (LintConfig × List Note) :=
  match path with
  | none => .ok ({}, [])
  | some path =>
    match read path with
    | .error cause => .error (.unreadableConfig path cause)
    | .ok text =>
      match LintConfig.ofToml text with
      | .error cause => .error (.badConfig cause)
      | .ok config => .ok (config, [.usingConfig path])

/-- The lines on a rule, given that it runs as `active`, if at all. -/
def describeRule (display : Display) (handle : String) (rule : RuleInfo)
    (active : Option RuleInfo) : List Printed :=
  let severity := match active with
    | some active => active.severity.name
    | none => "off"
  let key := display.paint { emphasis := some .bold } (Text.padRight 28 rule.key)
  let first := Printed.outLine (" ".intercalate [key, Text.padRight 5 (rule.legacyKey.getD "-"),
    Text.padRight 8 severity, rule.renderTitle handle])
  if rule.tags.isEmpty then [first]
  else
    let tags := display.paint { emphasis := some .dimmed } ("tags: " ++ ", ".intercalate rule.tags)
    [first, .outLine (Text.padRight 28 "" ++ " " ++ tags)]

/-- Every rule, with the severity at which a configuration would run it. -/
def listRules (display : Display) (config : LintConfig) : List Printed :=
  let selected := (config.selectedRules {}).map (·.info)
  Rule.all.flatMap fun rule =>
    describeRule display config.resource.handleName rule.info
      (selected.find? (·.key = rule.info.key))

def versionText : String :=
  "resguard 0.1.0\n"

def helpText : String :=
  "Find ResourceResolver handles that should use try-with-resources

Usage: resguard [--log-level off|error|warn|info|debug|trace] <COMMAND>

Commands:
  check [--config FILE] [--format text|json] [--rule PATTERN]... [--exclude PATTERN]... FILE...
          Check unit files (JSON) for resource lifecycle issues
  rules [--config FILE]
          List the available rules
"

/-- What a command ends with. -/
structure Exit where
  code : Nat
  printed : List Printed

namespace Exit

/-- The code tells only whether the command passed. -/
def ofPassed (passed : Bool) (printed : List Printed) : Exit :=
  { code := if passed then 0 else 1, printed }

end Exit

/-- Does something with the configuration of a command, unless there is something wrong with it. -/
def withConfig (display : Display) (read : String → Except ReadError String) (path : Option String)
    (act : LintConfig → Exit) : Exit :=
  match loadConfig read path with
  | .error failure => .ofPassed false [display.failure failure]
  | .ok (config, notes) =>
    let exit := act config
    { exit with printed := display.notes notes ++ exit.printed }

/-- Files by their paths, each with an order for its classes. -/
def inputFiles (read : String → Except ReadError String) (orders : Nat → ClassOrder)
    (paths : List String) : List InputFile :=
  paths.zipIdx.map fun (path, i) => { unit := loadUnit read path, order := orders i }

/-- Does what an invocation asks for. -/
def Invocation.perform (color : Bool) (read : String → Except ReadError String)
    (orders : Nat → ClassOrder) : Invocation → Exit
  | version => .ofPassed true [⟨.out, versionText⟩]
  | help => .ofPassed true [⟨.out, helpText⟩]
  | .check level files config format filters =>
    let display : Display := { color, level }
    withConfig display read config fun config =>
      let run := Command.check display format config filters (inputFiles read orders files)
      .ofPassed run.passed run.printed
  | .rules level config =>
    let display : Display := { color, level }
    withConfig display read config fun config => .ofPassed true (listRules display config)

/-- The code of a command line that cannot be understood. -/
def usageCode : Nat := 2

/-- Runs a command line. -/
def run (color : Bool) (read : String → Except ReadError String) (orders : Nat → ClassOrder)
    (args : List String) : Exit :=
  match Invocation.parse? args with
  | some invocation => invocation.perform color read orders
  | none => { code := usageCode, printed := [⟨.err, helpText⟩] }

end HandleLint.Command
