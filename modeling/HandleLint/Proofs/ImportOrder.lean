import HandleLint.Proofs.Anchors
import HandleLint.Proofs.KnownNames

/-!
# The order of imports and signatures

What is reported on a unit depends on its imports and signatures only through the types that names
stand for and the types that methods return.

* `lint_eq_of_types`: units with the same classes, in which names stand for the same;
* `lint_reordered`: imports and signatures in another order, or given more than once.
-/

namespace HandleLint

open HandleLint.Resolver (Step)

/-! ## Units with other imports and signatures -/

namespace SourceUnit

def withImports (source : SourceUnit) (imports : List String) : SourceUnit :=
  { source with unit := { source.unit with imports } }

def withSignatures (source : SourceUnit) (signatures : List MethodSignature) : SourceUnit :=
  { source with signatures }

end SourceUnit

/-- Nothing but the classes of a unit, the types that its names stand for and the types that methods
return shows in what is reported. -/
theorem lint_eq_of_types {source source' : SourceUnit} {config : LintConfig} {order : ClassOrder}
    (opts : Filters) (hpath : source'.path = source.path) (htext : source'.source = source.source)
    (hclasses : source'.unit.classes = source.unit.classes)
    (types : TypeNames.ofUnit source'.unit (lintSignatures source' config) =
      TypeNames.ofUnit source.unit (lintSignatures source config))
    (returns : ∀ owner method, (lintSignatures source' config).returns? owner method =
      (lintSignatures source config).returns? owner method) :
    lint order source' config opts = lint order source config opts :=
  lint_eq_of_resolve opts hpath htext hclasses
    (resolve_eq_of_agrees hclasses ⟨types, returns, fun _ => rfl⟩)

/-! ## Order and repetition -/

theorem Text.simpleName_of_splitQualified? {name package simple : String}
    (h : splitQualified? name = some (package, simple)) : simpleName name = simple := by
  rw [simpleName, h]

/-- What is imported by itself, where no two such imports have one last segment. -/
theorem TypeNames.lookup_importEntries_eq_some_iff {imports : List String}
    (segments : ∀ i ∈ imports, ∀ j ∈ imports, importedPackage? i = none →
      importedPackage? j = none → Text.simpleName i = Text.simpleName j → i = j) {k t : String} :
    (importEntries imports).reverse.lookup k = some t ↔ (k, t) ∈ importEntries imports := by
  refine lookup_reverse_eq_some_iff fun i j hi hj => ?_
  obtain ⟨hi, hsingle, package, hsplit⟩ := mem_importEntries_iff.1 hi
  obtain ⟨hj, hsingle', package', hsplit'⟩ := mem_importEntries_iff.1 hj
  have hsimple := Text.simpleName_of_splitQualified? hsplit
  have hsimple' := Text.simpleName_of_splitQualified? hsplit'
  exact segments i hi j hj hsingle hsingle' (hsimple.trans hsimple'.symm)

theorem TypeNames.held_congr {imports imports' : List String}
    (h : ∀ i, i ∈ imports' ↔ i ∈ imports) {types : List String} {k t : String} :
    Held imports' types k t ↔ Held imports types k t := by
  simp only [Held, List.mem_filterMap, h]

/-- Known types are kept in order, so the same signatures make the same list of them. -/
theorem Signatures.types_lintSignatures_congr {source source' : SourceUnit} (config : LintConfig)
    (h : ∀ m, m ∈ source'.signatures ↔ m ∈ source.signatures) :
    (lintSignatures source' config).types = (lintSignatures source config).types := by
  refine eq_of_strictly_ordered (fun a b => Std.OrientedCmp.not_lt_of_lt)
    (pairwise_types _) (pairwise_types _) fun t => ?_
  rw [mem_types_lintSignatures_iff, mem_types_lintSignatures_iff]
  simp only [SourceUnit.knownTypes, List.mem_append, List.mem_flatMap, h]

/-- Neither the order of the imports and signatures of a unit nor how often one is given shows in
what is reported, if imports with one last segment are the same import, and signatures of one method
return the same. Two lists that hold the same entries are the same list up to order and repeated
entries. Classes are looked at in the same order, unless they all get names of their own. -/
theorem lint_reordered (order order' : ClassOrder) (source : SourceUnit) (config : LintConfig)
    (opts : Filters) (imports : List String) (signatures : List MethodSignature)
    (segments : ∀ i ∈ source.unit.imports, ∀ j ∈ source.unit.imports,
      TypeNames.importedPackage? i = none → TypeNames.importedPackage? j = none →
      Text.simpleName i = Text.simpleName j → i = j)
    (methods : ∀ m ∈ source.signatures, ∀ m' ∈ source.signatures, m.owner = m'.owner →
      m.method = m'.method → m.returns = m'.returns)
    (himports : ∀ i, i ∈ imports ↔ i ∈ source.unit.imports)
    (hsignatures : ∀ m, m ∈ signatures ↔ m ∈ source.signatures)
    (orders : order' = order ∨ source.unit.ClassNamesDiffer (lintSignatures source config)) :
    lint order' ((source.withImports imports).withSignatures signatures) config opts =
      lint order source config opts := by
  let source' := (source.withImports imports).withSignatures signatures
  have segments' : ∀ i ∈ imports, ∀ j ∈ imports, TypeNames.importedPackage? i = none →
      TypeNames.importedPackage? j = none → Text.simpleName i = Text.simpleName j → i = j :=
    fun i hi j hj => segments i ((himports i).1 hi) j ((himports j).1 hj)
  have methods' : ∀ m ∈ source'.signatures, ∀ m' ∈ source'.signatures, m.owner = m'.owner →
      m.method = m'.method → m.returns = m'.returns :=
    fun m hm m' hm' => methods m ((hsignatures m).1 hm) m' ((hsignatures m').1 hm')
  have htypes : (lintSignatures source' config).types = (lintSignatures source config).types :=
    Signatures.types_lintSignatures_congr config hsignatures
  rw [← lint_eq_of_order opts orders]
  refine lint_eq_of_types opts rfl rfl rfl (TypeNames.ofUnit_eq rfl rfl fun k => ?_)
    fun owner method => ?_
  · have himport : (TypeNames.importEntries imports).reverse.lookup k =
        (TypeNames.importEntries source.unit.imports).reverse.lookup k := by
      refine Option.ext fun t => ?_
      rw [TypeNames.lookup_importEntries_eq_some_iff segments',
        TypeNames.lookup_importEntries_eq_some_iff segments, TypeNames.mem_importEntries_iff,
        TypeNames.mem_importEntries_iff, himports]
    have hdemand :
        (TypeNames.onDemandEntries imports (lintSignatures source' config).types).reverse.lookup k =
          (TypeNames.onDemandEntries source.unit.imports
            (lintSignatures source config).types).reverse.lookup k := by
      refine Option.ext fun t => ?_
      simp only [TypeNames.lookup_onDemandEntries_eq_some_iff, TypeNames.held_congr himports,
        htypes]
    exact congr (congrArg Option.or himport) hdemand
  · refine Option.ext fun type => ?_
    have hreturns' :=
      Signatures.returns?_lintSignatures_eq_some_iff config methods' owner method type
    have hreturns := Signatures.returns?_lintSignatures_eq_some_iff config methods owner method type
    have hmem := hsignatures ⟨owner, method, type⟩
    exact hreturns'.trans ((and_congr_right fun _ => hmem).trans hreturns.symm)

/-- A leak that is seen only because two types are imported by themselves. -/
def importingUnit : SourceUnit where
  path := "A.java"
  unit := {
    imports := ["p.Pool", "q.*", "p.Handle"]
    classes := [{
      site := ⟨0, {}⟩
      name := "A"
      fields := []
      methods := [{
        site := ⟨1, {}⟩
        name := "m"
        params := []
        returnType := none
        body := some [.localVar ⟨2, {}⟩ ⟨⟨3, {}⟩, "h", "Handle", some (poolCall 4)⟩] }]
      nested := [] }] }
  signatures := [⟨"p.Pool", "get", "p.Handle"⟩, ⟨"q.Socket", "open", "void"⟩]

def poolConfig : LintConfig where
  resource := poolResource

/-- The imports turned around and one of them given twice, and so the signatures. The one class is
looked at in another order. -/
theorem lint_reordered_importingUnit :
    let source' := (importingUnit.withImports
      ["p.Handle", "q.*", "p.Handle", "p.Pool"]).withSignatures
      [⟨"q.Socket", "open", "void"⟩, ⟨"p.Pool", "get", "p.Handle"⟩, ⟨"p.Pool", "get", "p.Handle"⟩]
    lint .decreasing source' poolConfig {} = lint .increasing importingUnit poolConfig {} ∧
    ((lint .decreasing source' poolConfig {}).report.diagnostics.map fun d => (d.rule, d.var)) =
      [("resource/unclosed", "h")] := by
  intro source'
  have heq : lint .decreasing source' poolConfig {} =
      lint .increasing importingUnit poolConfig {} := by
    apply lint_reordered
    · decide +kernel
    · decide +kernel
    · intro i
      simp only [importingUnit, List.mem_cons, List.not_mem_nil, or_false]
      tauto
    · intro m
      simp only [importingUnit, List.mem_cons, List.not_mem_nil, or_false]
      tauto
    · exact .inr (List.nodup_singleton _)
  refine ⟨heq, ?_⟩
  rw [heq]
  decide +kernel

end HandleLint
