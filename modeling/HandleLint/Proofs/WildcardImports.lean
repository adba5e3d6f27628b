import HandleLint.Proofs.ImportOrder

/-!
# Packages imported whole

A package that is imported whole brings in those of its types that are known. This is as good as
importing them one by one, unless another type of the same name is in the way.

* `Text.splitQualified?_eq_some_iff`: a qualified name, around its last dot;
* `TypeNames.importEntries_wildcard`: the imports that are left are those of other types;
* `TypeNames.held_wildcard_iff_of_named`, `TypeNames.held_wildcard_iff_of_not_named`: what is held
  under a name when one more package is imported whole;
* `lint_wildcard`: the report of a unit.
-/

namespace HandleLint

namespace Text

/-- The package that a qualified name lies in. -/
def packageOf? (name : String) : Option String :=
  (splitQualified? name).map Prod.fst

theorem packageOf?_eq_some_iff {name package : String} :
    packageOf? name = some package ↔ ∃ simple, splitQualified? name = some (package, simple) := by
  simp [packageOf?, Option.map_eq_some_iff]

section Cut

variable {sep : Char} {cs before after : List Char}

theorem cutLast?_eq_none_iff : cutLast? sep cs = none ↔ sep ∉ cs := by
  induction cs with
  | nil => simp [cutLast?]
  | cons c cs ih =>
    rw [cutLast?]
    cases hcut : cutLast? sep cs with
    | some parts =>
      have hsep : sep ∈ cs := by
        by_contra h
        rw [ih.2 h] at hcut
        cases hcut
      simp [hsep]
    | none => simp [ih.1 hcut, eq_comm]

theorem cutLast?_append (h : sep ∉ after) :
    cutLast? sep (before ++ sep :: after) = some (before, after) := by
  induction before with
  | nil => simp [cutLast?, cutLast?_eq_none_iff.2 h]
  | cons c before ih => rw [List.cons_append, cutLast?, ih]

theorem cutLast?_eq_some_iff :
    cutLast? sep cs = some (before, after) ↔ sep ∉ after ∧ cs = before ++ sep :: after := by
  constructor
  · intro h
    have hsep : sep ∈ cs := by
      by_contra hsep
      rw [cutLast?_eq_none_iff.2 hsep] at h
      cases h
    obtain ⟨after', before', heq, hafter⟩ := List.eq_append_cons_of_mem (List.mem_reverse.2 hsep)
    have hcs : cs = before'.reverse ++ sep :: after'.reverse := by
      simpa using congrArg List.reverse heq
    have hlast : sep ∉ after'.reverse := mt List.mem_reverse.1 hafter
    rw [hcs, cutLast?_append hlast] at h
    cases h
    exact ⟨hlast, hcs⟩
  · rintro ⟨hafter, rfl⟩
    exact cutLast?_append hafter

end Cut

/-- A name is split around its last dot. -/
theorem splitQualified?_eq_some_iff {name package simple : String} :
    splitQualified? name = some (package, simple) ↔
      '.' ∉ simple.toList ∧ name = package ++ "." ++ simple := by
  simp only [splitQualified?, Option.map_eq_some_iff, Prod.exists, Prod.mk.injEq,
    cutLast?_eq_some_iff]
  constructor
  · rintro ⟨before, after, ⟨hdot, hname⟩, rfl, rfl⟩
    exact ⟨by simpa using hdot, String.toList_inj.1 (by simpa using hname)⟩
  · rintro ⟨hdot, rfl⟩
    exact ⟨package.toList, simple.toList, ⟨hdot, by simp⟩, by simp, by simp⟩

/-- A qualified name is its package and its last segment. -/
theorem eq_of_splitQualified? {name name' : String} {parts : String × String}
    (h : splitQualified? name = some parts) (h' : splitQualified? name' = some parts) :
    name = name' := by
  rw [(splitQualified?_eq_some_iff.1 h).2, (splitQualified?_eq_some_iff.1 h').2]

end Text

/-- What stands under a key is not changed by leaving out entries under other keys. -/
theorem lookup_filter {κ α : Type} [BEq κ] [LawfulBEq κ] {entries : List (κ × α)} {k : κ}
    {keep : κ × α → Bool} (h : ∀ v, (k, v) ∈ entries → keep (k, v) = true) :
    (entries.filter keep).lookup k = entries.lookup k := by
  induction entries with
  | nil => rfl
  | cons e es ih =>
    obtain ⟨key, v⟩ := e
    have ih := ih fun v hv => h v (List.mem_cons_of_mem _ hv)
    by_cases hk : k = key
    · have hkeep : keep (key, v) = true := hk ▸ h v (hk ▸ List.mem_cons_self)
      rw [List.filter_cons_of_pos hkeep, List.lookup_cons, List.lookup_cons, ih]
    · have hne : (k == key) = false := beq_false_of_ne hk
      by_cases hkeep : keep (key, v) = true
      · rw [List.filter_cons_of_pos hkeep, List.lookup_cons, List.lookup_cons, ih]
      · rw [List.filter_cons_of_neg hkeep, List.lookup_cons, hne, ih]

namespace TypeNames

/-- The package of an import that ends in `.*` stands before that ending. -/
theorem importedPackage?_eq_some_iff {imported package : String} :
    importedPackage? imported = some package ↔ imported = package ++ ".*" := by
  simp only [importedPackage?, Option.map_eq_some_iff, Text.withoutSuffix?_eq_some_iff]
  constructor
  · rintro ⟨cs, hcs, rfl⟩
    exact String.toList_inj.1 (by simpa using hcs)
  · rintro rfl
    exact ⟨package.toList, by simp, by simp⟩

theorem importedPackage?_wildcard (package : String) :
    importedPackage? (package ++ ".*") = some package :=
  importedPackage?_eq_some_iff.2 rfl

/-- An import of one type of a package. -/
def ImportsFrom (package imported : String) : Prop :=
  importedPackage? imported = none ∧ Text.packageOf? imported = some package

instance (package imported : String) : Decidable (ImportsFrom package imported) :=
  inferInstanceAs (Decidable (_ ∧ _))

theorem importsFrom_iff {package imported : String} :
    ImportsFrom package imported ↔ importedPackage? imported = none ∧
      Text.splitQualified? imported = some (package, Text.simpleName imported) := by
  unfold ImportsFrom
  rw [Text.packageOf?_eq_some_iff]
  refine and_congr_right fun _ => ⟨?_, fun h => ⟨_, h⟩⟩
  rintro ⟨simple, h⟩
  rw [Text.simpleName_of_splitQualified? h, h]

section Wildcard

variable {imports before after types : List String} {p k : String}

/-- A package imported whole is no import of one type. -/
theorem importEntries_wildcard
    (h : before ++ after = imports.filter fun i => ¬ ImportsFrom p i) :
    importEntries (before ++ (p ++ ".*") :: after) =
      (importEntries imports).filter fun entry => ¬ ImportsFrom p entry.2 := by
  have hdrop : importEntries (before ++ (p ++ ".*") :: after) =
      importEntries (before ++ after) := by
    simp only [importEntries, List.filterMap_append, List.filterMap_cons, importedPackage?_wildcard]
  rw [hdrop, h]
  unfold importEntries
  rw [List.filterMap_filter, List.filter_filterMap]
  refine List.filterMap_congr fun i _ => ?_
  cases importedPackage? i with
  | some q => simp
  | none =>
    cases Text.splitQualified? i with
    | none => simp
    | some parts => by_cases hi : ImportsFrom p i <;> simp [hi, Option.filter]

theorem mem_packages_wildcard_iff
    (h : before ++ after = imports.filter fun i => ¬ ImportsFrom p i) {q : String} :
    q ∈ (before ++ (p ++ ".*") :: after).filterMap importedPackage? ↔
      q = p ∨ q ∈ imports.filterMap importedPackage? := by
  have hrest : q ∈ (before ++ after).filterMap importedPackage? ↔
      q ∈ imports.filterMap importedPackage? := by
    rw [h]
    simp only [List.mem_filterMap, List.mem_filter, decide_eq_true_eq]
    constructor
    · rintro ⟨i, ⟨hi, -⟩, hq⟩
      exact ⟨i, hi, hq⟩
    · rintro ⟨i, hi, hq⟩
      refine ⟨i, ⟨hi, fun himports => ?_⟩, hq⟩
      rw [himports.1] at hq
      cases hq
  rw [← hrest]
  simp only [List.filterMap_append, List.filterMap_cons, importedPackage?_wildcard, List.mem_append,
    List.mem_cons]
  exact or_left_comm

/-- With its package imported whole, a type is alone under its name if no other package that is
imported whole has a type of that name. -/
theorem held_wildcard_iff_of_named
    (h : before ++ after = imports.filter fun i => ¬ ImportsFrom p i) {t : String} (ht : t ∈ types)
    (hsplit : Text.splitQualified? t = some (p, k))
    (apart : ∀ t' ∈ types, ∀ q ∈ imports.filterMap importedPackage?,
      Text.splitQualified? t' = some (q, k) → q = p) (t' : String) :
    Held (before ++ (p ++ ".*") :: after) types k t' ↔ t' = t := by
  simp only [Held, mem_packages_wildcard_iff h]
  constructor
  · rintro ⟨ht', q, hsplit', hq⟩
    obtain rfl : q = p := hq.elim id fun hq => apart t' ht' q hq hsplit'
    exact Text.eq_of_splitQualified? hsplit' hsplit
  · rintro rfl
    exact ⟨ht, p, hsplit, .inl rfl⟩

/-- Where a package has no type of a name, importing it whole changes nothing under that name. -/
theorem held_wildcard_iff_of_not_named
    (h : before ++ after = imports.filter fun i => ¬ ImportsFrom p i)
    (hnone : ∀ t ∈ types, Text.splitQualified? t ≠ some (p, k)) (t : String) :
    Held (before ++ (p ++ ".*") :: after) types k t ↔ Held imports types k t := by
  simp only [Held, mem_packages_wildcard_iff h]
  refine and_congr_right fun ht => exists_congr fun q => and_congr_right fun hsplit => ?_
  refine or_iff_right ?_
  rintro rfl
  exact hnone t ht hsplit

/-- The types of a package that are imported by themselves are exactly those of its types that are
known; no other type that is imported by itself has the last segment of one of them, and no other
package that is imported whole has a known type with such a last segment. -/
structure Replaceable (imports types : List String) (p : String) : Prop where
  known : ∀ i ∈ imports, ImportsFrom p i → i ∈ types
  imported : ∀ t ∈ types, Text.packageOf? t = some p → t ∈ imports ∧ importedPackage? t = none
  alone : ∀ i ∈ imports, ImportsFrom p i → ∀ j ∈ imports, importedPackage? j = none →
    Text.simpleName j = Text.simpleName i → j = i
  apart : ∀ i ∈ imports, ImportsFrom p i → ∀ q ∈ imports.filterMap importedPackage?, q ≠ p →
    ∀ t ∈ types, Text.packageOf? t = some q → Text.simpleName t ≠ Text.simpleName i

namespace Replaceable

/-- What is imported by itself under the last segment of a type of the package. -/
theorem eq_of_mem_importEntries (h : Replaceable imports types p) {i j : String} (hi : i ∈ imports)
    (hfrom : ImportsFrom p i) (hj : (Text.simpleName i, j) ∈ importEntries imports) : j = i := by
  obtain ⟨hj, hsingle, q, hsplit⟩ := mem_importEntries_iff.1 hj
  exact h.alone i hi hfrom j hj hsingle (Text.simpleName_of_splitQualified? hsplit)

/-- A type of the package was imported by itself; then the package is found to hold it. -/
theorem lookup_of_named (h : Replaceable imports types p)
    (others : before ++ after = imports.filter fun i => ¬ ImportsFrom p i) {i : String}
    (hi : i ∈ imports) (hfrom : ImportsFrom p i) :
    (importEntries imports).reverse.lookup (Text.simpleName i) = some i ∧
    (importEntries (before ++ (p ++ ".*") :: after)).reverse.lookup (Text.simpleName i) = none ∧
    (onDemandEntries (before ++ (p ++ ".*") :: after) types).reverse.lookup (Text.simpleName i) =
      some i := by
  obtain ⟨hsingle, hsplit⟩ := importsFrom_iff.1 hfrom
  refine ⟨?_, ?_, ?_⟩
  · refine (lookup_reverse_eq_some_iff fun a b ha hb => ?_).2
      (mem_importEntries_iff.2 ⟨hi, hsingle, p, hsplit⟩)
    rw [h.eq_of_mem_importEntries hi hfrom ha, h.eq_of_mem_importEntries hi hfrom hb]
  · rw [importEntries_wildcard others]
    refine List.lookup_eq_none_iff.2 fun ⟨key, j⟩ hentry => ?_
    obtain ⟨hmem, hkeep⟩ := List.mem_filter.1 (List.mem_reverse.1 hentry)
    refine bne_iff_ne.2 fun heq => ?_
    obtain rfl : Text.simpleName i = key := heq
    obtain rfl := h.eq_of_mem_importEntries hi hfrom hmem
    exact of_decide_eq_true hkeep hfrom
  · refine lookup_onDemandEntries_eq_some_iff.2
      (held_wildcard_iff_of_named others (h.known i hi hfrom) hsplit ?_)
    intro t ht q hq hsplit'
    by_contra hne
    exact h.apart i hi hfrom q hq hne t ht (Text.packageOf?_eq_some_iff.2 ⟨_, hsplit'⟩)
      (Text.simpleName_of_splitQualified? hsplit')

/-- Under other names everything is as it was. -/
theorem lookup_of_not_named (h : Replaceable imports types p)
    (others : before ++ after = imports.filter fun i => ¬ ImportsFrom p i)
    (hk : ∀ i ∈ imports, ImportsFrom p i → Text.simpleName i ≠ k) :
    (importEntries (before ++ (p ++ ".*") :: after)).reverse.lookup k =
      (importEntries imports).reverse.lookup k ∧
    (onDemandEntries (before ++ (p ++ ".*") :: after) types).reverse.lookup k =
      (onDemandEntries imports types).reverse.lookup k := by
  constructor
  · rw [importEntries_wildcard others, ← List.filter_reverse]
    refine lookup_filter fun i hi => decide_eq_true fun hfrom => ?_
    obtain ⟨hi, -, q, hsplit⟩ := mem_importEntries_iff.1 (List.mem_reverse.1 hi)
    exact hk i hi hfrom (Text.simpleName_of_splitQualified? hsplit)
  · have hnone : ∀ t ∈ types, Text.splitQualified? t ≠ some (p, k) := by
      intro t ht hsplit
      have hpackage : Text.packageOf? t = some p := Text.packageOf?_eq_some_iff.2 ⟨k, hsplit⟩
      obtain ⟨hi, hsingle⟩ := h.imported t ht hpackage
      exact hk t hi ⟨hsingle, hpackage⟩ (Text.simpleName_of_splitQualified? hsplit)
    refine Option.ext fun t => ?_
    simp only [lookup_onDemandEntries_eq_some_iff, held_wildcard_iff_of_not_named others hnone]

end Replaceable

end Wildcard

end TypeNames

/-- Importing a package whole is as good as importing its types one by one. Where the types of a
package are imported by themselves, all that are known and no others, and nothing else goes by their
names, one import of the whole package in place of those imports, wherever it stands among the
others, leaves what is reported as it was. Classes are looked at in the same order, unless they all
get names of their own. -/
theorem lint_wildcard (order order' : ClassOrder) (source : SourceUnit) (config : LintConfig)
    (opts : Filters) (p : String) (before after : List String)
    (replaceable : TypeNames.Replaceable source.unit.imports (source.knownTypes config) p)
    (others : before ++ after = source.unit.imports.filter fun i => ¬ TypeNames.ImportsFrom p i)
    (orders : order' = order ∨ source.unit.ClassNamesDiffer (lintSignatures source config)) :
    lint order' (source.withImports (before ++ (p ++ ".*") :: after)) config opts =
      lint order source config opts := by
  have hknown : ∀ t, t ∈ (lintSignatures source config).types ↔ t ∈ source.knownTypes config :=
    fun t => Signatures.mem_types_lintSignatures_iff
  have hreplaceable : TypeNames.Replaceable source.unit.imports
      (lintSignatures source config).types p := by
    obtain ⟨known, imported, alone, apart⟩ := replaceable
    simp only [← hknown] at known imported apart
    exact ⟨known, imported, alone, apart⟩
  rw [← lint_eq_of_order opts orders]
  refine lint_eq_of_types opts rfl rfl rfl (TypeNames.ofUnit_eq rfl rfl fun k => ?_) fun _ _ => rfl
  by_cases hk : ∃ i ∈ source.unit.imports, TypeNames.ImportsFrom p i ∧ Text.simpleName i = k
  · obtain ⟨i, hi, hfrom, rfl⟩ := hk
    obtain ⟨hbefore, hnone, hafter⟩ := hreplaceable.lookup_of_named others hi hfrom
    have hleft := congr (congrArg Option.or hnone) hafter
    rw [hbefore]
    exact hleft
  · have hother : ∀ i ∈ source.unit.imports, TypeNames.ImportsFrom p i → Text.simpleName i ≠ k :=
      fun i hi hfrom heq => hk ⟨i, hi, hfrom, heq⟩
    obtain ⟨himport, hdemand⟩ := hreplaceable.lookup_of_not_named others hother
    exact congr (congrArg Option.or himport) hdemand

/-- With `p.*` for the imports of `p.Pool` and `p.Handle`, the leak is still seen, in another order
of the one class. -/
theorem lint_wildcard_importingUnit :
    let source' := importingUnit.withImports ["p.*", "q.*"]
    TypeNames.Replaceable importingUnit.unit.imports (importingUnit.knownTypes poolConfig) "p" ∧
    lint .decreasing source' poolConfig {} = lint .increasing importingUnit poolConfig {} ∧
    ((lint .decreasing source' poolConfig {}).report.diagnostics.map fun d => (d.rule, d.var)) =
      [("resource/unclosed", "h")] := by
  intro source'
  have hreplaceable : TypeNames.Replaceable importingUnit.unit.imports
      (importingUnit.knownTypes poolConfig) "p" := by
    constructor <;> decide +kernel
  have heq : lint .decreasing source' poolConfig {} =
      lint .increasing importingUnit poolConfig {} :=
    lint_wildcard .increasing .decreasing importingUnit poolConfig {} "p" [] ["q.*"] hreplaceable
      (by decide +kernel) (.inr (List.nodup_singleton _))
  refine ⟨hreplaceable, heq, ?_⟩
  rw [heq]
  decide +kernel

end HandleLint
