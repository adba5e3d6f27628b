import HandleLint.Command.Arguments
import HandleLint.Command.Display
import HandleLint.Lint
import HandleLint.Report.Format
import HandleLint.Tree.Decode

/-!
# Checking files

Files are checked one after the other; one that cannot be loaded does not keep the others from being
checked, but the check fails. In text form a line with the totals ends the check.

* `checkFile`: what one file adds to what the files before it came to;
* `check`: what all of them come to.
-/

namespace HandleLint.Command

/-- A unit file, from its path. -/
def loadUnit (read : String → Except ReadError String) (path : String) :
    Except Failure SourceUnit :=
  match read path with
  | .error cause => .error (.unreadableUnit path cause)
  | .ok text =>
    match SourceUnit.load? text path with
    | some unit => .ok unit
    | none => .error (.badUnit path)

/-- A file of a check: what loading it gives, and the order in which its classes are gone
through. -/
structure InputFile where
  unit : Except Failure SourceUnit
  order : ClassOrder

/-- How many diagnostics there are of each severity. -/
structure Totals where
  errors : Nat := 0
  warnings : Nat := 0
  infos : Nat := 0

/-- The totals with those of one more report. -/
def Totals.add (t : Totals) (report : Report) : Totals where
  errors := t.errors + report.errorCount
  warnings := t.warnings + report.warningCount
  infos := t.infos + report.infoCount

/-- What the files so far came to. -/
structure Progress where
  failed : Bool := false
  totals : Totals := {}
  printed : List Printed := []

/-- A report in the form asked for. -/
def printReport (display : Display) (format : Format) (report : Report) : List Printed :=
  match format with
  | .text => report.diagnostics.flatMap (display.diagnostic report.file)
  | .json => [.outLine report.toText]

/-- Checks the next file. -/
def checkFile (display : Display) (format : Format) (config : LintConfig) (filters : Filters)
    (p : Progress) (file : InputFile) : Progress :=
  match file.unit with
  | .error failure => { p with failed := true, printed := p.printed ++ [display.failure failure] }
  | .ok unit =>
    let run := lint file.order unit config filters
    let count := Note.findings run.report.file run.report.diagnostics.length
    let notes := display.notes (run.notes.toList ++ [count])
    { failed := p.failed || !run.report.success
      totals := p.totals.add run.report
      printed := p.printed ++ (notes ++ printReport display format run.report) }

/-- The line with the totals. -/
def Totals.summary (display : Display) (t : Totals) : Printed :=
  if t.errors + t.warnings + t.infos = 0 then
    .outLine (display.mark true ++ " No resource issues found")
  else
    .errLine (display.mark (t.errors = 0)
      ++ s!" {t.errors} error(s), {t.warnings} warning(s), {t.infos} info")

/-- What a check comes to. -/
structure CheckRun where
  passed : Bool
  printed : List Printed

/-- Checks files in order. -/
def check (display : Display) (format : Format) (config : LintConfig) (filters : Filters)
    (files : List InputFile) : CheckRun :=
  let done := files.foldl (checkFile display format config filters) {}
  let totals :=
    match format with
    | .text => [done.totals.summary display]
    | .json => []
  { passed := !done.failed, printed := done.printed ++ totals }

end HandleLint.Command
