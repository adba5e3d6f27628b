import HandleLint.Lint
import HandleLint.Proofs.Anchors
import HandleLint.Proofs.LineNumbers
import Mathlib.Data.List.Permutation

/-!
# Reports in order

A report shows its diagnostics in the order of reading, each with the line that it is about.

* `exists_var_of_finding`: the span of a finding is that of a variable, whatever the numbers of the
  nodes are;
* `Location.position_le_ofSpan`, `Location.isShown_ofSpan`: places in a source text;
* `Report.count_add`: every diagnostic counts for one severity;
* `report_lint_ordered`: the report of a unit.
-/

namespace HandleLint

/-! ## Findings -/

theorem Finding.start_le_of_le {a b : Finding} (h : a.le b = true) :
    a.span.start ≤ b.span.start := by
  have hstart : (compare a.span.start b.span.start).isLE = true := by
    have hle : (((compare a.span.start b.span.start).then (compare a.span.stop b.span.stop)).then
        (compare a.rule b.rule)).isLE = true := h
    cases hc : compare a.span.start b.span.start with
    | lt => rfl
    | eq => rfl
    | gt =>
      rw [hc] at hle
      cases hle
  exact Std.isLE_compare.1 hstart

section Unit

variable {u : CompilationUnit} {order : ClassOrder} {signatures : Signatures}
  {resource : ResourceConfig}

/-- The symbol of a candidate is that of a variable of the unit. -/
theorem exists_var_of_mem_candidates {m : MethodDecl} {candidate : SymbolId × Creation}
    (h : candidate ∈
      (Watch.candidates { model := (resolve order u signatures).model, resource } m).entries) :
    ∃ s place v, (resolve order u signatures).model.symbol? candidate.1 = some s ∧
      (place, v) ∈ u.vars ∧ s.site = v.site := by
  obtain ⟨i, hi⟩ := ((Watch.tracks_candidates _ m).mem_iff _ _).1 h
  obtain ⟨event, -, target, value, rfl, ht, -⟩ := hi.opens
  obtain ⟨-, s, origin, hs, hk, -⟩ := Watch.boundLocal?_eq_some_iff.1 ht
  obtain ⟨v, hdeclare, -, hsite⟩ := exists_declare_of_variable hs hk
  obtain ⟨c, hc, m', hm', hstep⟩ := ClassDecl.declare_mem_stepsOf hdeclare
  obtain ⟨hparam, -⟩ | ⟨body, origin', hb, -, hd⟩ := MethodDecl.mem_vars_of_declare hstep
  · cases hparam
  · have hm'' : m' ∈ u.allMethods := List.mem_flatMap.2 ⟨c, hc, hm'⟩
    have hv := CompilationUnit.mem_vars_of_method hm'' (MethodDecl.body_mem_vars hb hd)
    exact ⟨s, _, v, hs, hv, hsite⟩

/-- A finding has the span of a variable of the unit. -/
theorem exists_var_of_finding {rules : List Rule} {x : Finding}
    (h : let w : Watch := { model := (resolve order u signatures).model, resource }
      x ∈ (checkUnit w rules u).1) :
    ∃ place v, (place, v) ∈ u.vars ∧ x.span = v.span := by
  have hx := (List.mergeSort_perm _ _).mem_iff.1 h
  rw [Finder.checkMethods_eq_flatMap (Finder.sound_fresh _)] at hx
  obtain ⟨m, -, hx⟩ := List.mem_flatMap.1 hx
  obtain ⟨candidate, hc, hx⟩ := List.mem_flatMap.1 hx
  obtain ⟨s, place, v, hs, hv, hsite⟩ := exists_var_of_mem_candidates hc
  obtain ⟨rule, -, rfl⟩ := Watch.mem_findingsOn hs hx
  exact ⟨place, v, hv, congrArg Site.span hsite⟩

end Unit

/-! ## Places -/

namespace Location

/-- The line and the column of a location. -/
def position (l : Location) : Position :=
  ⟨l.line, l.column⟩

theorem position_le_ofSpan {a b : Span} (hb : b.start.toNat < UInt64.size - 1)
    (h : a.start ≤ b.start) (text : String) :
    (ofSpan (some (.ofText text)) a).position ≤ (ofSpan (some (.ofText text)) b).position :=
  LineIndex.position_mono hb h text

/-- A location shows its line of the text. -/
theorem isShown_ofSpan {span : Span} (h : span.start.toNat < UInt64.size - 1) (text : String) :
    let l := ofSpan (some (.ofText text)) span
    ∃ i line, l.line.toNat = i + 1 ∧ (Text.lines text)[i]? = some line ∧
      Text.IsShown line l.sourceLine.toList := by
  intro l
  obtain ⟨i, line, hnumber, hline⟩ := LineIndex.exists_line_position h text
  have hshown : l.sourceLine = String.ofList (LineIndex.withoutReturn line) := by
    show ((LineIndex.ofText text).lineText? text
      ((LineIndex.ofText text).position span.start).line).getD "" = _
    rw [LineIndex.lineText?_ofText hnumber hline]
    rfl
  refine ⟨i, line, hnumber, hline, ?_⟩
  rw [hshown, String.toList_ofList]
  exact LineIndex.isShown_withoutReturn line

end Location

/-! ## Counts -/

namespace Report

theorem count_eq_zero_iff {severity : Severity} {ds : List Diagnostic} :
    count severity ds = 0 ↔ ∀ d ∈ ds, d.severity ≠ severity := by
  simp [count, List.countP_eq_zero]

/-- Every diagnostic is counted once, under its own severity. -/
theorem count_add (ds : List Diagnostic) :
    count .error ds + count .warning ds + count .info ds = ds.length := by
  induction ds with
  | nil => rfl
  | cons d ds ih =>
    unfold count at ih ⊢
    simp only [List.countP_cons, List.length_cons]
    cases hd : d.severity <;> simp <;> omega

end Report

/-! ## The report of a unit -/

theorem Diagnostic.offset_ofFinding (text : Option SourceText) (f : Finding) :
    (ofFinding text f).location.offset = f.span.start := by
  cases text <;> rfl

/-- The diagnostics of a report are about what is found in the methods of the unit. -/
theorem diagnostics_lint_perm (order : ClassOrder) (source : SourceUnit) (config : LintConfig)
    (opts : Filters) :
    let w : Watch :=
      { model := (resolve order source.unit (lintSignatures source config)).model
        resource := config.resource }
    (lint order source config opts).report.diagnostics.Perm
      ((Finder.checkMethods w (config.selectedRules opts)
        (source.unit.allMethods.filter (·.body.isSome)) {}).1.map
          (.ofFinding (source.source.map .ofText))) :=
  (List.mergeSort_perm _ _).map _

/-- The diagnostics of a report stand in the order of their offsets. With a source text they also
stand in the order of reading, and each shows the line of the text that has its number; without one,
lines and columns are 0. The counts of the report part its diagnostics by severity, and it is a
success unless one of them is an error.

The column of the very last 64-bit offset can wrap around to 0, so no variable may start there. -/
theorem report_lint_ordered (order : ClassOrder) (source : SourceUnit) (config : LintConfig)
    (opts : Filters)
    (starts : ∀ place v, (place, v) ∈ source.unit.vars → v.span.start.toNat < UInt64.size - 1) :
    let report := (lint order source config opts).report
    let ds := report.diagnostics
    ds.Pairwise (fun d d' => d.location.offset ≤ d'.location.offset) ∧
    (∀ text, source.source = some text →
      ds.Pairwise (fun d d' => d.location.position ≤ d'.location.position) ∧
      ∀ d ∈ ds, ∃ i line, d.location.line.toNat = i + 1 ∧ (Text.lines text)[i]? = some line ∧
        Text.IsShown line d.location.sourceLine.toList) ∧
    (source.source = none → ∀ d ∈ ds, d.location.line = 0 ∧ d.location.column = 0) ∧
    report.errorCount = (ds.filter (·.severity = .error)).length ∧
    report.warningCount = (ds.filter (·.severity = .warning)).length ∧
    report.infoCount = (ds.filter (·.severity = .info)).length ∧
    report.errorCount + report.warningCount + report.infoCount = ds.length ∧
    (report.success = true ↔ ∀ d ∈ ds, d.severity ≠ .error) := by
  intro report ds
  let xs := (examine order source config opts).findings
  have hds : ds = xs.map (.ofFinding (source.source.map .ofText)) := rfl
  have hordered : xs.Pairwise fun x y => x.span.start ≤ y.span.start :=
    (List.pairwise_mergeSort Finding.le_trans Finding.le_total _).imp Finding.start_le_of_le
  have hstart : ∀ x ∈ xs, x.span.start.toNat < UInt64.size - 1 := by
    intro x hx
    obtain ⟨place, v, hv, hspan⟩ := exists_var_of_finding hx
    exact hspan ▸ starts place v hv
  have hoffset := Diagnostic.offset_ofFinding (source.source.map .ofText)
  refine ⟨?_, ?_, ?_, ?_, ?_, ?_, Report.count_add ds, ?_⟩
  · rw [hds, List.pairwise_map]
    exact hordered.imp fun {x y} hle => by rwa [hoffset x, hoffset y]
  · intro text htext
    rw [htext] at hds
    rw [hds]
    constructor
    · refine List.pairwise_map.2 (hordered.imp_of_mem fun _ hy hle => ?_)
      exact Location.position_le_ofSpan (hstart _ hy) hle text
    · rintro d hd
      obtain ⟨x, hx, rfl⟩ := List.mem_map.1 hd
      exact Location.isShown_ofSpan (hstart x hx) text
  · intro htext d hd
    rw [htext] at hds
    rw [hds] at hd
    obtain ⟨x, -, rfl⟩ := List.mem_map.1 hd
    exact ⟨rfl, rfl⟩
  · exact List.countP_eq_length_filter
  · exact List.countP_eq_length_filter
  · exact List.countP_eq_length_filter
  · exact decide_eq_true_iff.trans Report.count_eq_zero_iff

/-- Two handles that are never closed, on two lines of text; the tree has the second line first. -/
def reversedUnit : SourceUnit where
  path := "A.java"
  source := some "Handle é = Pool.get();\r\nHandle b = Pool.get();"
  unit := {
    package := some "p"
    imports := ["p.Pool", "p.Handle"]
    classes := [{
      site := ⟨0, {}⟩
      name := "A"
      fields := []
      methods := [{
        site := ⟨1, {}⟩
        name := "m"
        params := []
        returnType := none
        body := some [
          .localVar ⟨2, {}⟩ ⟨⟨3, ⟨25, 48⟩⟩, "b", "Handle", some (poolCall 4)⟩,
          .localVar ⟨6, {}⟩ ⟨⟨7, ⟨0, 23⟩⟩, "é", "Handle", some (poolCall 8)⟩] }]
      nested := [] }] }
  signatures := [⟨"p.Pool", "get", "p.Handle"⟩]

/-- What is found in it, in the order of the tree. -/
theorem found_reversedUnit :
    let config : LintConfig := { resource := poolResource }
    let w : Watch :=
      { model := (resolve .increasing reversedUnit.unit (lintSignatures reversedUnit config)).model
        resource := poolResource }
    ((Finder.checkMethods w (config.selectedRules {})
      (reversedUnit.unit.allMethods.filter (·.body.isSome)) {}).1.map fun x =>
        (x.var, Location.ofSpan (reversedUnit.source.map .ofText) x.span)) =
      [("b", ⟨25, 2, 1, "Handle b = Pool.get();"⟩),
        ("é", ⟨0, 1, 1, "Handle é = Pool.get();"⟩)] := by
  decide +kernel

/-- The report has it in the order of the text, at the beginnings of its two lines. -/
theorem report_lint_ordered_reversedUnit :
    let report := (lint .increasing reversedUnit { resource := poolResource } {}).report
    (∀ place v, (place, v) ∈ reversedUnit.unit.vars → v.span.start.toNat < UInt64.size - 1) ∧
    (report.diagnostics.map fun d => (d.var, d.location)) =
      [("é", ⟨0, 1, 1, "Handle é = Pool.get();"⟩), ("b", ⟨25, 2, 1, "Handle b = Pool.get();"⟩)] ∧
    report.errorCount + report.warningCount + report.infoCount = 2 := by
  intro report
  have hstarts : ∀ x ∈ reversedUnit.unit.vars, x.2.span.start.toNat < UInt64.size - 1 := by decide
  have starts : ∀ place v, (place, v) ∈ reversedUnit.unit.vars →
      v.span.start.toNat < UInt64.size - 1 := fun place v hv => hstarts (place, v) hv
  obtain ⟨hordered, -, -, -, -, -, hcounts, -⟩ :=
    report_lint_ordered .increasing reversedUnit { resource := poolResource } {} starts
  have hperm := (diagnostics_lint_perm .increasing reversedUnit { resource := poolResource } {}).map
    fun d => (d.var, d.location)
  rw [List.map_map] at hperm
  have hperm' := hperm.trans (.of_eq found_reversedUnit)
  have hlength := hperm'.length_eq
  rw [List.length_map] at hlength
  refine ⟨starts, ?_, hcounts.trans hlength⟩
  obtain htree | htext := List.perm_pair.1 hperm'
  · -- In the order of the tree the offsets would go down.
    have hsorted : (report.diagnostics.map fun d => (d.var, d.location)).Pairwise
        fun p q => p.2.offset ≤ q.2.offset := List.pairwise_map.2 hordered
    rw [htree] at hsorted
    have hle := List.rel_of_pairwise_cons hsorted List.mem_cons_self
    exact absurd hle (by decide)
  · exact htext

end HandleLint
