import HandleLint.Lint
import HandleLint.Proofs.Anchors
import HandleLint.Proofs.MirroredResolution

/-!
# The numbers of nodes are only names

Whoever builds a tree may number its nodes in any way, as long as nodes that had different numbers
keep different ones. The report of a unit stays the same: the numbers tie the tables of a unit to
its tree, and nothing is ever read off their size or order but the class of a name, which is the
only one of that name.

* `LintConfig.isBuiltIn_of_mem_selectedRules`: the rules that run fire as built-in ones do;
* `report_lint_renumber`: the report of a unit with other numbers.
-/

namespace HandleLint

/-- The unit with other numbers for its nodes. -/
def SourceUnit.renumber (f : NodeId → NodeId) (source : SourceUnit) : SourceUnit :=
  { source with unit := source.unit.relabel { node := f } }

theorem LintConfig.isBuiltIn_of_mem_selectedRules {config : LintConfig} {opts : Filters}
    {rule : Rule} (h : rule ∈ config.selectedRules opts) : rule.IsBuiltIn := by
  obtain ⟨base, hbase, rfl⟩ := List.mem_map.1 h
  refine ⟨base, List.mem_of_mem_filter hbase, ?_⟩
  unfold LintConfig.adjust
  split <;> rfl

/-- A unit gets the same report whatever numbers its nodes have, and in whatever order its classes
are looked at, provided that no two of its classes get the same qualified name. -/
theorem report_lint_renumber (order order' : ClassOrder) (source : SourceUnit)
    (config : LintConfig) (opts : Filters) (f : NodeId → NodeId) (hf : Function.Injective f)
    (names : source.unit.ClassNamesDiffer (lintSignatures source config)) :
    (lint order' (source.renumber f) config opts).report =
      (lint order source config opts).report := by
  let w : Watch :=
    { model := (resolve order' source.unit (lintSignatures source config)).model
      resource := config.resource }
  let u' := source.unit.relabel { node := f }
  let w' : Watch :=
    { model := (resolve order' u' (lintSignatures source config)).model
      resource := config.resource }
  let rules := config.selectedRules opts
  let text := source.source.map SourceText.ofText
  have hrelabels : w.Relabels { node := f } w' :=
    ⟨rfl, mirrors_resolve hf order' names, coherent_resolve order' source.unit _⟩
  have hrules : ∀ rule ∈ rules, rule.Ignores f :=
    fun rule hr => (LintConfig.isBuiltIn_of_mem_selectedRules hr).ignores
  -- A diagnostic does not show the anchor of its finding.
  have hanchor : ∀ x : Finding, Diagnostic.ofFinding text (x.renumber f) = .ofFinding text x :=
    fun _ => rfl
  have hdiagnostics :
      (checkUnit w' rules u').1.map (Diagnostic.ofFinding text) =
        (checkUnit w rules source.unit).1.map (Diagnostic.ofFinding text) := by
    rw [hrelabels.checkUnit hrules, List.map_map]
    exact List.map_congr_left fun x _ => hanchor x
  rw [← lint_eq_of_order opts (.inr names : order' = order ∨ _)]
  exact congrArg (Report.ofDiagnostics source.path) hdiagnostics

/-- Two classes, of which the second is the factory that the first gets a handle from. All nodes in
the body of a method share one number. -/
def sharedUnit : SourceUnit where
  path := "A.java"
  unit := {
    package := some "p"
    classes := [
      { site := ⟨0, {}⟩
        name := "A"
        fields := []
        methods := [{
          site := ⟨1, {}⟩
          name := "m"
          params := []
          returnType := none
          body := some [.localVar ⟨2, {}⟩ ⟨⟨2, {}⟩, "h", "Handle",
            some (.call ⟨2, {}⟩ (some (.new ⟨2, {}⟩ "Pool" [])) "get" [])⟩] }]
        nested := [] },
      { site := ⟨3, {}⟩
        name := "Pool"
        fields := []
        methods := [{
          site := ⟨4, {}⟩, name := "get", params := [], returnType := some "p.Handle"
          body := none }]
        nested := [] }] }

def sharedConfig : LintConfig where
  resource := poolResource

/-- Turning the order of all numbers around, those of classes included, leaves the leak reported,
also when the classes are looked at in the order of the greatest number first. -/
theorem report_lint_renumber_sharedUnit :
    let f : NodeId → NodeId := fun i => ~~~i
    Function.Injective f ∧
    sharedUnit.unit.ClassNamesDiffer (lintSignatures sharedUnit sharedConfig) ∧
    (lint .decreasing (sharedUnit.renumber f) sharedConfig {}).report =
      (lint .increasing sharedUnit sharedConfig {}).report ∧
    ((lint .decreasing (sharedUnit.renumber f) sharedConfig {}).report.diagnostics.map fun d =>
      (d.rule, d.var)) = [("resource/unclosed", "h")] := by
  intro f
  have hf : Function.Injective f := fun _ _ h => UInt32.not_inj.1 h
  have names : sharedUnit.unit.ClassNamesDiffer (lintSignatures sharedUnit sharedConfig) := by
    unfold CompilationUnit.ClassNamesDiffer
    decide +kernel
  have hreport := report_lint_renumber .increasing .decreasing sharedUnit sharedConfig {} f hf names
  refine ⟨hf, names, hreport, ?_⟩
  rw [hreport]
  decide +kernel

end HandleLint
