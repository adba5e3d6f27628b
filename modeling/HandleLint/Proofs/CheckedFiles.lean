import HandleLint.Command.Check
import HandleLint.Proofs.ReportOrder

/-!
# What a check of several files comes to

A check passes if every file loads and none has an error. What it prints is what each file alone
gives, in order, and in text form a line with the totals. Only reports in JSON form, and the line
that says that there is nothing to report, are results; everything else is printed beside them.

* `shown`, `report?`: what one file gives, whatever the others are;
* `Progress.Sums`: what files come to, with `Progress.Sums.checkFile` for one file more and
  `sums_foldl_checkFile` for all;
* `textOn_out_shown_json`: the results that one file gives;
* `check_outcome`: the whole check.
-/

namespace HandleLint.Command

variable {display : Display} {format : Format} {config : LintConfig} {filters : Filters}

/-- A file passes if it loads and no diagnostic on it is an error. -/
def Passes (config : LintConfig) (filters : Filters) (file : InputFile) : Prop :=
  ∃ unit, file.unit = .ok unit ∧
    ∀ d ∈ (lint file.order unit config filters).report.diagnostics, d.severity ≠ .error

/-- The report of a file, if it can be loaded. -/
def report? (config : LintConfig) (filters : Filters) (file : InputFile) : Option Report :=
  match file.unit with
  | .error _ => none
  | .ok unit => some (lint file.order unit config filters).report

/-- What is printed for a file: why it cannot be loaded, or the notes on it and its report. -/
def shown (display : Display) (format : Format) (config : LintConfig) (filters : Filters)
    (file : InputFile) : List Printed :=
  match file.unit with
  | .error failure => [display.failure failure]
  | .ok unit =>
    let run := lint file.order unit config filters
    display.notes (run.notes.toList ++ [.findings unit.path run.report.diagnostics.length]) ++
      printReport display format run.report

/-- The diagnostics of all files that can be loaded, in order. -/
def found (config : LintConfig) (filters : Filters) (files : List InputFile) : List Diagnostic :=
  (files.filterMap (report? config filters)).flatMap (·.diagnostics)

/-- The line that ends a check in text form: how many diagnostics there are of each severity. -/
def closing (display : Display) (ds : List Diagnostic) : Printed :=
  let errors := Report.count .error ds
  let warnings := Report.count .warning ds
  let infos := Report.count .info ds
  if errors + warnings + infos = 0 then .outLine (display.mark true ++ " No resource issues found")
  else
    .errLine (display.mark (errors = 0)
      ++ s!" {errors} error(s), {warnings} warning(s), {infos} info")

/-! ## One file after the other -/

namespace Totals

def ofDiagnostics (ds : List Diagnostic) : Totals where
  errors := Report.count .error ds
  warnings := Report.count .warning ds
  infos := Report.count .info ds

theorem add_ofDiagnostics (ds ds' : List Diagnostic) (path : String) :
    (ofDiagnostics ds).add (.ofDiagnostics path ds') = ofDiagnostics (ds ++ ds') := by
  simp only [ofDiagnostics, add, Report.ofDiagnostics, Report.count, List.countP_append]

theorem summary_ofDiagnostics (ds : List Diagnostic) :
    (ofDiagnostics ds).summary display = closing display ds :=
  rfl

end Totals

theorem found_append (files files' : List InputFile) :
    found config filters (files ++ files') =
      found config filters files ++ found config filters files' := by
  rw [found, List.filterMap_append, List.flatMap_append]
  rfl

theorem success_lint (order : ClassOrder) (unit : SourceUnit) :
    (lint order unit config filters).report.success = true ↔
      ∀ d ∈ (lint order unit config filters).report.diagnostics, d.severity ≠ .error :=
  decide_eq_true_iff.trans Report.count_eq_zero_iff

/-- What files come to: whether one of them fails, how many diagnostics there are, and what is
printed for each of them. -/
structure Progress.Sums (display : Display) (format : Format) (config : LintConfig)
    (filters : Filters) (files : List InputFile) (p : Progress) : Prop where
  failed : p.failed = false ↔ ∀ file ∈ files, Passes config filters file
  totals : p.totals = .ofDiagnostics (found config filters files)
  printed : p.printed = files.flatMap (shown display format config filters)

namespace Progress.Sums

variable {files : List InputFile} {p : Progress}

theorem empty : Sums display format config filters [] {} where
  failed := iff_of_true rfl nofun
  totals := rfl
  printed := rfl

/-- One file. -/
theorem checkFile (h : p.Sums display format config filters files) (file : InputFile) :
    (checkFile display format config filters p file).Sums display format config filters
      (files ++ [file]) := by
  obtain ⟨unit, order⟩ := file
  cases unit with
  | error failure =>
    refine ⟨iff_of_false nofun fun hall => ?_, ?_, ?_⟩
    · obtain ⟨unit, hunit, -⟩ := hall ⟨.error failure, order⟩ (by simp)
      cases hunit
    · have hnone : found config filters [⟨.error failure, order⟩] = [] := rfl
      rw [found_append, hnone, List.append_nil]
      exact h.totals
    · rw [List.flatMap_append, List.flatMap_singleton, ← h.printed]
      rfl
  | ok unit =>
    let run := lint order unit config filters
    have hpasses : Passes config filters ⟨.ok unit, order⟩ ↔ run.report.success = true := by
      rw [success_lint]
      exact ⟨fun ⟨_, hunit, hnone⟩ => by cases hunit; exact hnone, fun h => ⟨unit, rfl, h⟩⟩
    refine ⟨?_, ?_, ?_⟩
    · show (p.failed || !run.report.success) = false ↔ _
      simp [h.failed, hpasses, or_imp, forall_and]
    · show p.totals.add run.report = _
      rw [h.totals, found_append]
      refine (Totals.add_ofDiagnostics _ _ _).trans (congrArg Totals.ofDiagnostics ?_)
      exact congrArg _ (List.flatMap_singleton ..).symm
    · rw [List.flatMap_append, List.flatMap_singleton, ← h.printed]
      rfl

/-- More files. -/
theorem foldl_checkFile (h : p.Sums display format config filters files) (rest : List InputFile) :
    (rest.foldl (Command.checkFile display format config filters) p).Sums display format config
      filters (files ++ rest) := by
  induction rest generalizing p files with
  | nil => rwa [List.append_nil]
  | cons file rest ih =>
    rw [List.append_cons]
    exact ih (h.checkFile file)

end Progress.Sums

/-- All files. -/
theorem sums_foldl_checkFile (display : Display) (format : Format) (config : LintConfig)
    (filters : Filters) (files : List InputFile) :
    (files.foldl (checkFile display format config filters) {}).Sums display format config filters
      files :=
  Progress.Sums.empty.foldl_checkFile files

/-- A check passes if all files pass. -/
theorem passed_check_iff (files : List InputFile) :
    (check display format config filters files).passed = true ↔
      ∀ file ∈ files, Passes config filters file := by
  rw [← (sums_foldl_checkFile display format config filters files).failed]
  exact iff_of_eq (Bool.not_eq_true' _)

/-- A check prints what each file alone gives, and in text form the totals. -/
theorem printed_check (display : Display) (format : Format) (config : LintConfig)
    (filters : Filters) (files : List InputFile) :
    (check display format config filters files).printed =
      files.flatMap (shown display format config filters) ++
        if format = .text then [closing display (found config filters files)] else [] := by
  have hdone := sums_foldl_checkFile display format config filters files
  rw [← hdone.printed, ← Totals.summary_ofDiagnostics, ← hdone.totals]
  cases format <;> rfl

/-! ## Results -/

theorem Printed.textOn_append (channel : Channel) (xs ys : List Printed) :
    textOn channel (xs ++ ys) = textOn channel xs ++ textOn channel ys := by
  rw [textOn, List.filter_append, List.map_append, String.join_append]
  rfl

theorem Printed.textOn_out_of_err {pieces : List Printed} (h : ∀ p ∈ pieces, p.channel = .err) :
    textOn .out pieces = "" := by
  have hnone : pieces.filter (·.channel = .out) = [] := by
    refine List.filter_eq_nil_iff.2 fun p hp => ?_
    rw [h p hp]
    decide
  rw [textOn, hnone]
  rfl

/-- Notes and failures are printed beside the results. -/
theorem textOn_out_notes (ns : List Note) : Printed.textOn .out (display.notes ns) = "" := by
  refine Printed.textOn_out_of_err fun p hp => ?_
  obtain ⟨n, -, rfl⟩ := List.mem_map.1 hp
  rfl

/-- A report in text form is printed beside the results. -/
theorem channel_of_mem_printReport_text {report : Report} {p : Printed}
    (h : p ∈ printReport display .text report) : p.channel = .err := by
  obtain ⟨d, -, hp⟩ := List.mem_flatMap.1 h
  obtain ⟨line, -, rfl⟩ := List.mem_map.1 hp
  rfl

theorem channel_of_mem_shown_text {file : InputFile} {p : Printed}
    (h : p ∈ shown display .text config filters file) : p.channel = .err := by
  obtain ⟨unit, order⟩ := file
  cases unit with
  | error failure =>
    obtain rfl := List.mem_singleton.1 h
    rfl
  | ok unit =>
    obtain hnote | hreport := List.mem_append.1 h
    · obtain ⟨n, -, rfl⟩ := List.mem_map.1 hnote
      rfl
    · exact channel_of_mem_printReport_text hreport

/-- In JSON form the result of a file is its report. -/
theorem textOn_out_shown_json (file : InputFile) :
    Printed.textOn .out (shown display .json config filters file) =
      String.join ((report? config filters file).toList.map fun r => r.toText ++ "\n") := by
  obtain ⟨unit, order⟩ := file
  cases unit with
  | error failure => rfl
  | ok unit =>
    rw [shown, Printed.textOn_append, textOn_out_notes, String.empty_append]
    rfl

theorem textOn_out_check_json (files : List InputFile) :
    Printed.textOn .out (files.flatMap (shown display .json config filters)) =
      String.join ((files.filterMap (report? config filters)).map fun r => r.toText ++ "\n") := by
  induction files with
  | nil => rfl
  | cons file files ih =>
    rw [List.flatMap_cons, Printed.textOn_append, ih, textOn_out_shown_json, ← String.join_append,
      ← List.map_append]
    cases hreport : report? config filters file <;> simp [hreport]

/-- The totals are a result only if there is nothing to count. -/
theorem textOn_out_closing (ds : List Diagnostic) :
    Printed.textOn .out [closing display ds] =
      if Report.count .error ds + Report.count .warning ds + Report.count .info ds = 0 then
        display.mark true ++ " No resource issues found\n"
      else "" := by
  by_cases hnone : Report.count .error ds + Report.count .warning ds + Report.count .info ds = 0
  · rw [if_pos hnone, closing, if_pos hnone]
    show "" ++ (display.mark true ++ " No resource issues found" ++ "\n") = _
    rw [String.empty_append, String.append_assoc]
    rfl
  · rw [if_neg hnone, closing, if_neg hnone]
    rfl

/-- A check passes just if every file loads and no report has an error. It prints what each file
alone gives, in order. In JSON form its results are the reports, a text and a line end each; in text
form the totals of all files end it, and are a result just if there is nothing to report. -/
theorem check_outcome (display : Display) (config : LintConfig) (filters : Filters)
    (files : List InputFile) :
    (∀ format, (check display format config filters files).passed = true ↔
      ∀ file ∈ files, ∃ unit, file.unit = .ok unit ∧
        ∀ d ∈ (lint file.order unit config filters).report.diagnostics, d.severity ≠ .error) ∧
    (check display .json config filters files).printed =
      files.flatMap (shown display .json config filters) ∧
    Printed.textOn .out (check display .json config filters files).printed =
      String.join ((files.filterMap (report? config filters)).map fun r => r.toText ++ "\n") ∧
    (check display .text config filters files).printed =
      files.flatMap (shown display .text config filters) ++
        [closing display (found config filters files)] ∧
    Printed.textOn .out (check display .text config filters files).printed =
      (if Report.count .error (found config filters files) +
          Report.count .warning (found config filters files) +
          Report.count .info (found config filters files) = 0 then
        display.mark true ++ " No resource issues found\n"
      else "") := by
  have hjson := printed_check display .json config filters files
  have htext := printed_check display .text config filters files
  rw [if_neg (by decide), List.append_nil] at hjson
  rw [if_pos rfl] at htext
  refine ⟨fun format => passed_check_iff files, hjson, ?_, htext, ?_⟩
  · rw [hjson, textOn_out_check_json]
  · have hshown :
        Printed.textOn .out (files.flatMap (shown display .text config filters)) = "" := by
      refine Printed.textOn_out_of_err fun p hp => ?_
      obtain ⟨file, -, hp⟩ := List.mem_flatMap.1 hp
      exact channel_of_mem_shown_text hp
    rw [htext, Printed.textOn_append, hshown, String.empty_append, textOn_out_closing]

end HandleLint.Command
