import HandleLint.Rule.Severity

/-!
# Reports

The outcome of checking one unit: its diagnostics with their places in the source text, and how many
there are of each severity.
-/

namespace HandleLint

/-- The start of a span in a source text. Without the text only the offset is known; then line and
column are 0 and the line is empty. -/
structure Location where
  offset : UInt64
  line : UInt64
  column : UInt64
  sourceLine : String
  deriving DecidableEq, Repr, Inhabited

structure Diagnostic where
  rule : String
  legacyKey : Option String
  severity : Severity
  message : String
  var : String
  location : Location
  fix : String
  deriving DecidableEq, Repr, Inhabited

structure Report where
  version : UInt32
  file : String
  success : Bool
  diagnostics : List Diagnostic
  errorCount : Nat
  warningCount : Nat
  infoCount : Nat
  deriving DecidableEq, Repr, Inhabited

namespace Report

/-- How many diagnostics have a severity. -/
def count (severity : Severity) (diagnostics : List Diagnostic) : Nat :=
  diagnostics.countP (·.severity = severity)

/-- The report of a file with these diagnostics. It is a success unless one of them is an error. -/
def ofDiagnostics (file : String) (diagnostics : List Diagnostic) : Report :=
  { version := 1
    file
    success := count .error diagnostics = 0
    diagnostics
    errorCount := count .error diagnostics
    warningCount := count .warning diagnostics
    infoCount := count .info diagnostics }

end Report

end HandleLint
