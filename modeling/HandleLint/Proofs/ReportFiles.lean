import HandleLint.Proofs.UnitFiles
import HandleLint.Report.Format

/-!
# Reading written reports

A report that is written as JSON is read back as it was, whatever its texts hold and however many
diagnostics it has, as long as its counts fit into 64 bits; a report with a larger count is refused.

* `Location.readsAs_toJson`, `Diagnostic.readsAs_toJson`: the parts of a report;
* `Diagnostic.nesting_list_le`: no list of diagnostics nests too deep to be read;
* `Report.parse?_toText`: whole reports.
-/

namespace HandleLint

open Json (ReadsAs nullable textOf)

theorem Location.readsAs_toJson (l : Location) :
    ReadsAs Report.decodeLocation (Report.encodeLocation l) l :=
  .record ⟨trivial, trivial, trivial, trivial⟩ fun n _ => by
    show (do
      return Location.mk (← Json.word64 _) (← Json.word64 _) (← Json.word64 _)
        (← textOf (.text l.sourceLine))) = some l
    rw [Json.word64_nat, Json.word64_nat, Json.word64_nat]
    rfl

theorem Severity.readsAs_name (s : Severity) : ReadsAs Severity.ofJson? (.text s.name) s := by
  cases s <;> exact ⟨trivial, fun _ => rfl⟩

/-- A diagnostic is read back from its JSON form, with an earlier key of its rule or without. -/
theorem Diagnostic.readsAs_toJson (d : Diagnostic) :
    ReadsAs Report.decodeDiagnostic (Report.encodeDiagnostic d) d := by
  obtain ⟨rule, legacyKey, severity, message, var, location, fix⟩ := d
  have hseverity := severity.readsAs_name
  have hlocation := location.readsAs_toJson
  cases legacyKey with
  | none =>
    refine .record ⟨trivial, trivial, trivial, trivial, hlocation.whole, trivial⟩
      fun n ⟨_, hs, _, _, hl, _⟩ => ?_
    show (do
      return Diagnostic.mk (← textOf (.text rule)) (← some none)
        (← Severity.ofJson? n (.text severity.name)) (← textOf (.text message))
        (← textOf (.text var)) (← Report.decodeLocation n _) (← textOf (.text fix))) = _
    rw [hseverity.decode hs, hlocation.decode hl]
    rfl
  | some key =>
    refine .record ⟨trivial, trivial, trivial, trivial, trivial, hlocation.whole, trivial⟩
      fun n ⟨_, _, hs, _, _, hl, _⟩ => ?_
    show (do
      return Diagnostic.mk (← textOf (.text rule)) (← nullable textOf (.text key))
        (← Severity.ofJson? n (.text severity.name)) (← textOf (.text message))
        (← textOf (.text var)) (← Report.decodeLocation n _) (← textOf (.text fix))) = _
    rw [hseverity.decode hs, hlocation.decode hl]
    rfl

theorem Diagnostic.readsAs_list (ds : List Diagnostic) :
    ReadsAs Report.decodeDiagnostics (Json.list Report.encodeDiagnostic ds) ds :=
  .array (fun _ _ => rfl) fun d _ => d.readsAs_toJson

/-- Its own level, and the one of its place. -/
theorem Diagnostic.nesting_toJson (d : Diagnostic) : (Report.encodeDiagnostic d).nesting = 2 := by
  obtain ⟨rule, legacyKey, severity, message, var, location, fix⟩ := d
  cases legacyKey <;> rfl

theorem Diagnostic.nesting_list_le (ds : List Diagnostic) :
    (Json.list Report.encodeDiagnostic ds).nesting ≤ 3 := by
  refine Nat.succ_le_succ (Json.nestingItems_le_iff.2 ?_)
  simp [Diagnostic.nesting_toJson]

namespace Report

theorem whole_toJson (r : Report) : r.toJson.Whole :=
  ⟨trivial, trivial, trivial, (Diagnostic.readsAs_list r.diagnostics).whole, trivial, trivial,
    trivial, trivial⟩

theorem countOf_nat (k : Nat) :
    countOf (.nat k) = if k < UInt64.size then some k else none :=
  rfl

/-- Whether a report is read back depends on its counts alone. -/
theorem decode_toJson (r : Report) :
    decode Json.maxNesting r.toJson = do
      return { r with
        errorCount := ← countOf (.nat r.errorCount)
        warningCount := ← countOf (.nat r.warningCount)
        infoCount := ← countOf (.nat r.infoCount) } := by
  have hnesting : (Json.list encodeDiagnostic r.diagnostics).nesting ≤ 126 :=
    Nat.le_trans (Diagnostic.nesting_list_le r.diagnostics) (by decide)
  show (do
    return Report.mk (← Json.word32 (.nat r.version.toNat)) (← textOf (.text r.file))
      (← Json.boolOf (.bool r.success)) (← decodeDiagnostics 126 (Json.list encodeDiagnostic _))
      (← countOf (.nat r.errorCount)) (← countOf (.nat r.warningCount))
      (← countOf (.nat r.infoCount))) = _
  rw [Json.word32_nat, (Diagnostic.readsAs_list r.diagnostics).decode hnesting]
  rfl

/-- A written report is read back as it was if its counts fit into 64 bits, and is refused
otherwise. -/
theorem parse?_toText (r : Report) :
    parse? r.toText =
      if r.errorCount < UInt64.size ∧ r.warningCount < UInt64.size ∧ r.infoCount < UInt64.size then
        some r
      else none := by
  have hparse : parse? r.toText = decode Json.maxNesting r.toJson := by
    rw [parse?, toText, Json.parse?_pretty r.whole_toJson]
    rfl
  rw [hparse, decode_toJson, countOf_nat, countOf_nat, countOf_nat]
  by_cases herror : r.errorCount < UInt64.size
  · by_cases hwarning : r.warningCount < UInt64.size
    · by_cases hinfo : r.infoCount < UInt64.size
      · simp only [herror, hwarning, hinfo, and_self, if_true]
        rfl
      · simp [hinfo]
    · simp [hwarning]
  · simp [herror]

end Report

end HandleLint
