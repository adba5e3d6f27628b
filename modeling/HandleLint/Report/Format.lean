import HandleLint.Json.Decode
import HandleLint.Json.Printer
import HandleLint.Json.Reader
import HandleLint.Report.Basic

/-!
# The JSON form of reports

* `Report.toText`: a report as JSON, a field a line;
* `Report.parse?`: a report from such a text.
-/

namespace HandleLint

namespace Report

open Json (text nat record list Decoder slots? required optionalField textOf boolOf
  natBelow word32 word64)

/-! ## Writing -/

def encodeLocation (l : Location) : Json :=
  record [("offset", nat l.offset.toNat), ("line", nat l.line.toNat),
    ("column", nat l.column.toNat),
    ("source_line", text l.sourceLine)]

/-- The earlier key of a rule, if it has one. -/
def legacyField : Option String → List (String × Json)
  | none => []
  | some key => [("legacy_key", text key)]

def encodeDiagnostic (d : Diagnostic) : Json :=
  record ([("rule", text d.rule)] ++ legacyField d.legacyKey ++
    [("severity", text d.severity.name), ("message", text d.message), ("variable", text d.var),
      ("location", encodeLocation d.location), ("fix", text d.fix)])

def toJson (r : Report) : Json :=
  record [("version", nat r.version.toNat), ("file", text r.file), ("success", .bool r.success),
    ("diagnostics", list encodeDiagnostic r.diagnostics), ("error_count", nat r.errorCount),
    ("warning_count", nat r.warningCount), ("info_count", nat r.infoCount)]

def toText (r : Report) : String :=
  r.toJson.pretty

/-! ## Reading -/

def decodeLocation : Decoder Location
  | _ + 1, j => do
    let [offset, line, column, sourceLine] ← slots? ["offset", "line", "column", "source_line"] j
      | none
    return { offset := ← required word64 offset, line := ← required word64 line,
             column := ← required word64 column, sourceLine := ← required textOf sourceLine }
  | 0, _ => none

def decodeDiagnostic : Decoder Diagnostic
  | n + 1, j => do
    let [rule, legacyKey, severity, message, var, location, fix] ←
      slots? ["rule", "legacy_key", "severity", "message", "variable", "location", "fix"] j | none
    return { rule := ← required textOf rule, legacyKey := ← optionalField textOf legacyKey,
             severity := ← required (Severity.ofJson? n) severity,
             message := ← required textOf message, var := ← required textOf var,
             location := ← required (decodeLocation n) location, fix := ← required textOf fix }
  | 0, _ => none

def decodeDiagnostics : Decoder (List Diagnostic)
  | n + 1, .array items => items.mapM (decodeDiagnostic n)
  | _, _ => none

/-- A count fits into 64 bits. -/
def countOf : Json → Option Nat :=
  natBelow UInt64.size

def decode : Decoder Report
  | n + 1, j => do
    let [version, file, success, diagnostics, errorCount, warningCount, infoCount] ←
      slots? ["version", "file", "success", "diagnostics", "error_count", "warning_count",
        "info_count"] j | none
    return { version := ← required word32 version, file := ← required textOf file,
             success := ← required boolOf success,
             diagnostics := ← required (decodeDiagnostics n) diagnostics,
             errorCount := ← required countOf errorCount,
             warningCount := ← required countOf warningCount,
             infoCount := ← required countOf infoCount }
  | 0, _ => none

/-- The report that a text holds. -/
def parse? (source : String) : Option Report := do
  decode Json.maxNesting (← Json.parse? source)

end Report

end HandleLint
