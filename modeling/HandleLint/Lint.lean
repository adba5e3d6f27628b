import HandleLint.Lifecycle.Finding
import HandleLint.Report.Basic
import HandleLint.Resolution.Resolver
import HandleLint.Rule.Selection
import HandleLint.Source.LineIndex

/-!
# Checking a unit

`examine` resolves the names of a unit, finds its new handles, and lets the selected rules judge
what becomes of them. `lint` reports the findings at their places in the source text. Its arithmetic
on lines and columns wraps around; `lint?` does the same in checked arithmetic, and gives no report
where a number does not fit.
-/

namespace HandleLint

/-- A source text with its lines. -/
structure SourceText where
  text : String
  lines : LineIndex

namespace SourceText

def ofText (text : String) : SourceText :=
  ⟨text, .ofText text⟩

end SourceText

namespace Location

/-- The location of an offset without a text. -/
def ofOffset (offset : UInt64) : Location :=
  { offset, line := 0, column := 0, sourceLine := "" }

/-- The location of an offset that lies at a position of a text. -/
def ofPosition (source : SourceText) (offset : UInt64) (place : Position) : Location :=
  { offset
    line := place.line
    column := place.column
    sourceLine := (source.lines.lineText? source.text place.line).getD "" }

/-- The place where a span starts. -/
def ofSpan (source : Option SourceText) (span : Span) : Location :=
  match source with
  | none => ofOffset span.start
  | some source => ofPosition source span.start (source.lines.position span.start)

/-- The place where a span starts, in checked arithmetic. -/
def ofSpan? (source : Option SourceText) (span : Span) : Option Location :=
  match source with
  | none => some (ofOffset span.start)
  | some source => (source.lines.position? span.start).map (ofPosition source span.start)

end Location

/-- A finding at its location. -/
def Finding.toDiagnostic (f : Finding) (location : Location) : Diagnostic :=
  { rule := f.rule
    legacyKey := f.legacyKey
    severity := f.severity
    message := f.message
    var := f.var
    location
    fix := f.fix }

namespace Diagnostic

def ofFinding (source : Option SourceText) (f : Finding) : Diagnostic :=
  f.toDiagnostic (.ofSpan source f.span)

/-- A diagnostic whose location is computed in checked arithmetic. -/
def ofFinding? (source : Option SourceText) (f : Finding) : Option Diagnostic :=
  (Location.ofSpan? source f.span).map f.toDiagnostic

end Diagnostic

/-- The signatures that a unit is resolved against: its own, with the watched types known. -/
def lintSignatures (source : SourceUnit) (config : LintConfig) : Signatures :=
  ((Signatures.ofList source.signatures).declare config.resource.handleType).declare
    config.resource.factoryType

/-- What the rules find in a unit, and the notes taken on the way. -/
structure Examination where
  findings : List Finding
  notes : Array Note

/-- Resolves the names of a unit, finds its new handles and lets the selected rules judge what
becomes of them. -/
def examine (order : ClassOrder) (source : SourceUnit) (config : LintConfig) (opts : Filters) :
    Examination :=
  let resolution := resolve order source.unit (lintSignatures source config)
  let problems := resolution.model.problems.map (.problem source.path ·)
  let watch : Watch := { model := resolution.model, resource := config.resource }
  let (findings, notes) := checkUnit watch (config.selectedRules opts) source.unit
  { findings, notes := resolution.notes ++ problems ++ notes }

/-- A report, and the notes taken on the way. -/
structure LintRun where
  report : Report
  notes : Array Note

/-- The outcome of an examination, with its findings as diagnostics. -/
def Examination.toRun (e : Examination) (path : String) (diagnostics : List Diagnostic) : LintRun :=
  { report := .ofDiagnostics path diagnostics, notes := e.notes }

/-- Checks a unit. -/
def lint (order : ClassOrder) (source : SourceUnit) (config : LintConfig) (opts : Filters) :
    LintRun :=
  let e := examine order source config opts
  e.toRun source.path (e.findings.map (.ofFinding (source.source.map .ofText)))

/-- Checks a unit in checked arithmetic. -/
def lint? (order : ClassOrder) (source : SourceUnit) (config : LintConfig) (opts : Filters) :
    Option LintRun :=
  let e := examine order source config opts
  (e.findings.mapM (Diagnostic.ofFinding? (source.source.map .ofText))).map (e.toRun source.path)

end HandleLint
