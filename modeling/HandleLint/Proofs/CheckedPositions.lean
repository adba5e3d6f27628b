import HandleLint.Proofs.LinePositions
import HandleLint.Proofs.ReportOrder

/-!
# Reports in checked arithmetic

A number that does not fit 64 bits is the one thing that can keep a unit from being reported on:

* `LineIndex.Overflows`: the offsets whose line or column is too large;
* `LineIndex.position?_eq_none_iff`: no other offset lacks a checked position;
* `lint?_eq_none_iff_overflows`: a unit has no report just where one of its diagnostics is at such
  an offset of its source text.
-/

namespace HandleLint

namespace LineIndex

open Text

/-- The largest offset, on the first line of a text or after line ends only. -/
def Overflows (text : String) (offset : UInt64) : Prop :=
  offset.toNat = UInt64.size - 1 ∧
    (lineEndsBefore text offset.toNat = 0 ∨ lineEndsBefore text offset.toNat = UInt64.size - 1)

instance (text : String) (offset : UInt64) : Decidable (Overflows text offset) :=
  inferInstanceAs (Decidable (_ ∧ _))

theorem lineStart_succ_pos {text : String} {i : Nat} (h : i + 1 < (lines text).length) :
    0 < lineStart text (i + 1) := by
  unfold lineStart
  cases hlines : lines text with
  | nil =>
    rw [hlines] at h
    cases h
  | cons line rest =>
    have hend : byteSize ['\n'] = 1 := rfl
    rw [List.take_succ_cons, List.flatMap_cons, byteSize_append, byteSize_append, hend]
    omega

theorem lineEndsBefore_lt (text : String) (offset : UInt64) :
    lineEndsBefore text offset.toNat < (lines text).length := by
  have hle : ((ofText text).startsUpTo offset).length ≤ (ofText text).lineCount :=
    List.length_filter_le ..
  rwa [length_startsUpTo, lineCount_ofText] at hle

/-- Only the first line begins at the start of the text. -/
theorem lineStart_lineEndsBefore_eq_zero_iff (text : String) (offset : UInt64) :
    lineStart text (lineEndsBefore text offset.toNat) = 0 ↔
      lineEndsBefore text offset.toNat = 0 := by
  have hlt := lineEndsBefore_lt text offset
  cases hends : lineEndsBefore text offset.toNat with
  | zero => exact iff_of_true rfl rfl
  | succ i =>
    rw [hends] at hlt
    exact iff_of_false (Nat.ne_of_gt (lineStart_succ_pos hlt)) (Nat.succ_ne_zero i)

theorem position?_eq_none_iff {text : String} {offset : UInt64} :
    (ofText text).position? offset = none ↔ Overflows text offset := by
  have hstart := lineStart_lineEndsBefore_eq_zero_iff text offset
  have hlength := length_startsUpTo text offset
  have hle := (ofText text).length_startsUpTo_le offset
  have hoffset := offset.toNat_lt_size
  rw [position?_ofText, Overflows]
  simp only [ite_eq_right_iff, reduceCtorEq, imp_false]
  omega

end LineIndex

/-! ## Diagnostics -/

theorem Diagnostic.ofFinding?_ofText (text : String) (f : Finding) :
    ofFinding? (some (.ofText text)) f =
      ((LineIndex.ofText text).position? f.span.start).map
        fun _ => ofFinding (some (.ofText text)) f := by
  have hlines : (SourceText.ofText text).lines = LineIndex.ofText text := rfl
  simp only [ofFinding?, Location.ofSpan?, hlines]
  cases hposition : (LineIndex.ofText text).position? f.span.start with
  | none => rfl
  | some p =>
    obtain rfl := LineIndex.eq_position_of_position? hposition
    rfl

theorem mapM_eq_none_iff {α β : Type} {f : α → Option β} {as : List α} :
    as.mapM f = none ↔ ∃ a ∈ as, f a = none := by
  induction as with
  | nil => simp
  | cons a as ih =>
    rw [List.mapM_cons]
    cases ha : f a with
    | none => simp [ha]
    | some b =>
      have hrest : (∃ x ∈ a :: as, f x = none) ↔ ∃ x ∈ as, f x = none := by simp [ha]
      rw [hrest, ← ih]
      cases as.mapM f <;> simp

theorem eq_map_of_mapM {α β : Type} {f : α → Option β} {g : α → β}
    (hf : ∀ a b, f a = some b → b = g a) {as : List α} {bs : List β}
    (h : as.mapM f = some bs) : bs = as.map g := by
  induction as generalizing bs with
  | nil => simpa using h.symm
  | cons a as ih =>
    rw [List.mapM_cons] at h
    obtain ⟨b, hb, h⟩ := Option.bind_eq_some_iff.1 h
    obtain ⟨cs, hcs, h⟩ := Option.bind_eq_some_iff.1 h
    rw [← Option.some.inj h, hf a b hb, ih hcs, List.map_cons]

/-! ## The report of a unit -/

section Unit

variable {order : ClassOrder} (config : LintConfig) (opts : Filters)

theorem diagnostics_lint (source : SourceUnit) :
    (lint order source config opts).report.diagnostics =
      (examine order source config opts).findings.map (.ofFinding (source.source.map .ofText)) :=
  rfl

/-- A unit with a source text has no report just where a finding is at an offset too large. -/
theorem lint?_eq_none_iff_of_text {source : SourceUnit} {text : String}
    (h : source.source = some text) :
    lint? order source config opts = none ↔
      ∃ f ∈ (examine order source config opts).findings,
        LineIndex.Overflows text f.span.start := by
  rw [lint?, Option.map_eq_none_iff, mapM_eq_none_iff, h]
  refine exists_congr fun f => and_congr_right fun _ => ?_
  rw [Option.map_some, Diagnostic.ofFinding?_ofText, Option.map_eq_none_iff,
    LineIndex.position?_eq_none_iff]

theorem lint?_ne_none_of_no_text {source : SourceUnit} (h : source.source = none) :
    lint? order source config opts ≠ none := by
  rw [lint?, ne_eq, Option.map_eq_none_iff, mapM_eq_none_iff, h]
  rintro ⟨f, -, hf⟩
  cases hf

/-- A checked report is the report. -/
theorem eq_lint_of_lint? {source : SourceUnit} {run : LintRun}
    (h : lint? order source config opts = some run) : run = lint order source config opts := by
  obtain ⟨diagnostics, hdiagnostics, rfl⟩ := Option.map_eq_some_iff.1 h
  have heq := eq_map_of_mapM (g := .ofFinding (source.source.map .ofText)) (fun f d hd => ?_)
    hdiagnostics
  · rw [heq]
    rfl
  · cases htext : source.source with
    | none =>
      rw [htext] at hd
      exact (Option.some.inj hd).symm
    | some text =>
      rw [htext, Option.map_some, Diagnostic.ofFinding?_ofText] at hd
      obtain ⟨-, -, rfl⟩ := Option.map_eq_some_iff.1 hd
      rfl

/-- With a source text, the diagnostics of a checked report stand where they say. -/
theorem isPosition_of_lint? {source : SourceUnit} {run : LintRun} {text : String}
    (htext : source.source = some text) (h : lint? order source config opts = some run)
    {d : Diagnostic} (hd : d ∈ run.report.diagnostics) :
    LineIndex.IsPosition text d.location.offset.toNat d.location.position := by
  obtain rfl := eq_lint_of_lint? config opts h
  rw [diagnostics_lint, htext] at hd
  obtain ⟨f, hf, rfl⟩ := List.mem_map.1 hd
  have hfits : (LineIndex.ofText text).position? f.span.start ≠ none := by
    intro hnone
    have hoverflows := LineIndex.position?_eq_none_iff.1 hnone
    rw [(lint?_eq_none_iff_of_text config opts htext).2 ⟨f, hf, hoverflows⟩] at h
    cases h
  obtain ⟨p, hp⟩ := Option.ne_none_iff_exists'.1 hfits
  have hposition := LineIndex.isPosition_of_position? hp
  rw [LineIndex.eq_position_of_position? hp] at hposition
  exact hposition

/-- In checked arithmetic a unit has no report just where one of its diagnostics is at the largest
offset, on the first line of its source text or after as many line ends: its column or its line
would be one more than that offset. A variable of the unit then starts there. Else the report is the
one of wrapping arithmetic, and with a source text its lines and columns count from 1. -/
theorem lint?_eq_none_iff_overflows (order : ClassOrder) (source : SourceUnit)
    (config : LintConfig) (opts : Filters) :
    (lint? order source config opts = none ↔
      ∃ text, source.source = some text ∧
        ∃ d ∈ (lint order source config opts).report.diagnostics,
          LineIndex.Overflows text d.location.offset) ∧
    (lint? order source config opts = none →
      ∃ place v, (place, v) ∈ source.unit.vars ∧ v.span.start.toNat = UInt64.size - 1) ∧
    ∀ run, lint? order source config opts = some run →
      run = lint order source config opts ∧
      ∀ text, source.source = some text → ∀ d ∈ run.report.diagnostics,
        1 ≤ d.location.column ∧
          LineIndex.IsPosition text d.location.offset.toNat d.location.position := by
  refine ⟨⟨fun h => ?_, ?_⟩, fun h => ?_, fun run h => ⟨eq_lint_of_lint? config opts h, ?_⟩⟩
  · cases htext : source.source with
    | none => exact absurd h (lint?_ne_none_of_no_text config opts htext)
    | some text =>
      obtain ⟨f, hf, hoverflows⟩ := (lint?_eq_none_iff_of_text config opts htext).1 h
      rw [diagnostics_lint]
      exact ⟨text, rfl, _, List.mem_map_of_mem hf, by rwa [Diagnostic.offset_ofFinding]⟩
  · rintro ⟨text, htext, d, hd, hoverflows⟩
    rw [diagnostics_lint] at hd
    obtain ⟨f, hf, rfl⟩ := List.mem_map.1 hd
    rw [Diagnostic.offset_ofFinding] at hoverflows
    exact (lint?_eq_none_iff_of_text config opts htext).2 ⟨f, hf, hoverflows⟩
  · cases htext : source.source with
    | none => exact absurd h (lint?_ne_none_of_no_text config opts htext)
    | some text =>
      obtain ⟨f, hf, hoverflows⟩ := (lint?_eq_none_iff_of_text config opts htext).1 h
      obtain ⟨place, v, hv, hspan⟩ := exists_var_of_finding hf
      exact ⟨place, v, hv, hspan ▸ hoverflows.1⟩
  · intro text htext d hd
    have hposition := isPosition_of_lint? config opts htext h hd
    exact ⟨UInt64.le_iff_toNat_le.2 hposition.column_pos, hposition⟩

end Unit

/-- A report that fits: its text and its variables end long before the largest offset. -/
theorem lint?_eq_none_iff_overflows_reversedUnit :
    ∃ run, lint? .increasing reversedUnit { resource := poolResource } {} = some run ∧
      ∀ d ∈ run.report.diagnostics, 1 ≤ d.location.column := by
  obtain ⟨-, hvar, hrun⟩ :=
    lint?_eq_none_iff_overflows .increasing reversedUnit { resource := poolResource } {}
  have hstarts : ∀ x ∈ reversedUnit.unit.vars, x.2.span.start.toNat ≠ UInt64.size - 1 := by decide
  have hsome : lint? .increasing reversedUnit { resource := poolResource } {} ≠ none := by
    intro hnone
    obtain ⟨place, v, hv, hstart⟩ := hvar hnone
    exact hstarts (place, v) hv hstart
  obtain ⟨run, h⟩ := Option.ne_none_iff_exists'.1 hsome
  exact ⟨run, h, fun d hd => ((hrun run h).2 _ rfl d hd).1⟩

/-- A handle that is never closed, declared at the largest offset of a text of one line. -/
def farUnit : SourceUnit where
  path := "A.java"
  source := some "class A { void run() { Handle h = Pool.get(); } }"
  unit := {
    package := some "p"
    imports := ["p.Pool", "p.Handle"]
    classes := [{
      site := ⟨0, {}⟩
      name := "A"
      fields := []
      methods := [{
        site := ⟨1, {}⟩
        name := "run"
        params := []
        returnType := none
        body := some [.localVar ⟨2, {}⟩
          ⟨⟨3, ⟨18446744073709551615, 18446744073709551615⟩⟩, "h", "Handle", some (poolCall 4)⟩] }]
      nested := [] }] }
  signatures := [⟨"p.Pool", "get", "p.Handle"⟩]

theorem found_farUnit :
    let config : LintConfig := { resource := poolResource }
    let w : Watch :=
      { model := (resolve .increasing farUnit.unit (lintSignatures farUnit config)).model
        resource := poolResource }
    (Finder.checkMethods w (config.selectedRules {})
      (farUnit.unit.allMethods.filter (·.body.isSome)) {}).1.map (·.span.start) =
      [18446744073709551615] := by
  decide +kernel

/-- It has no report in checked arithmetic. -/
theorem lint?_farUnit : lint? .increasing farUnit { resource := poolResource } {} = none := by
  refine (lint?_eq_none_iff_of_text _ _ rfl).2 ?_
  have hmem := List.mem_of_mem_head? (congrArg List.head? found_farUnit)
  obtain ⟨f, hf, hstart⟩ := List.mem_map.1 hmem
  refine ⟨f, (List.mergeSort_perm _ _).mem_iff.2 hf, ?_⟩
  rw [hstart]
  decide

end HandleLint
