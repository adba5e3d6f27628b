import HandleLint.Proofs.ClassLookups
import HandleLint.Proofs.Findings

/-!
# Choosing rules

Rules are judged one by one, so leaving some of them out takes their findings away and changes
nothing else. Running the chosen rules is the same as running all rules and keeping what the chosen
ones said, as long as both runs find the same classes under the same names.

* `IsStableSort.unique`, `filter_mergeSort`: a stable sort may be filtered before or after;
* `Covers`, `patternMatches_iff`: the rules that a pattern stands for;
* `LintConfig.mem_selectedKeys_iff`, `LintConfig.selectedRules_eq_filter`: the chosen rules;
* `Finder.judge_filter`, `checkUnit_filter`: what the chosen rules find;
* `diagnostics_lint_eq_filter`: the diagnostics of a run;
* `diagnostics_lint_twinUnit`: two runs that find different classes under one name.
-/

namespace HandleLint

/-! ## Stable sorts -/

namespace IsStableSort

variable {α : Type} {le : α → α → Bool} {xs ys zs : List α}

/-- Lists in order with the same classes of equals are the same list. -/
theorem eq_of_ordered (refl : ∀ a, le a a = true) (hys : ys.Pairwise fun a b => le a b = true)
    (hzs : zs.Pairwise fun a b => le a b = true)
    (h : ∀ a, (ys.filter fun b => le a b && le b a) = zs.filter fun b => le a b && le b a) :
    ys = zs := by
  induction ys generalizing zs with
  | nil =>
    cases zs with
    | nil => rfl
    | cons z zs => simpa [refl] using h z
  | cons y ys ih =>
    have hmem : ∀ a, a ∈ y :: ys ↔ a ∈ zs := by
      intro a
      have ha := congrArg (a ∈ ·) (h a)
      simpa [refl] using ha
    cases zs with
    | nil => exact absurd ((hmem y).1 List.mem_cons_self) List.not_mem_nil
    | cons z zs =>
      obtain ⟨hy, hystail⟩ := List.pairwise_cons.1 hys
      obtain ⟨hz, hzstail⟩ := List.pairwise_cons.1 hzs
      have hyz : le y z = true := by
        rcases List.mem_cons.1 ((hmem z).2 List.mem_cons_self) with rfl | hm
        · exact refl z
        · exact hy z hm
      have hzy : le z y = true := by
        rcases List.mem_cons.1 ((hmem y).1 List.mem_cons_self) with rfl | hm
        · exact refl y
        · exact hz y hm
      -- Both stand first in one class of equals.
      have hheads := h y
      simp only [List.filter_cons, refl, hyz, hzy, Bool.and_self, if_true] at hheads
      obtain ⟨rfl, -⟩ := List.cons.inj hheads
      refine congrArg _ (ih hystail hzstail fun a => ?_)
      have ha := h a
      rw [List.filter_cons, List.filter_cons] at ha
      split at ha
      · exact (List.cons.inj ha).2
      · exact ha

theorem unique (refl : ∀ a, le a a = true) (hys : IsStableSort le xs ys)
    (hzs : IsStableSort le xs zs) : ys = zs :=
  eq_of_ordered refl hys.ordered hzs.ordered fun a => (hys.stable a).trans (hzs.stable a).symm

theorem filter (h : IsStableSort le xs ys) (p : α → Bool) :
    IsStableSort le (xs.filter p) (ys.filter p) where
  perm := h.perm.filter p
  ordered := h.ordered.filter p
  stable := by
    intro a
    rw [List.filter_comm, h.stable a, List.filter_comm]

end IsStableSort

theorem filter_mergeSort {α : Type} {le : α → α → Bool}
    (trans : ∀ a b c, le a b = true → le b c = true → le a c = true)
    (total : ∀ a b, (le a b || le b a) = true) (p : α → Bool) (xs : List α) :
    (xs.mergeSort le).filter p = (xs.filter p).mergeSort le := by
  have refl : ∀ a, le a a = true := fun a => by simpa using total a a
  exact ((isStableSort_mergeSort trans total xs).filter p).unique refl
    (isStableSort_mergeSort trans total (xs.filter p))

/-! ## Patterns -/

/-- A pattern stands for a rule: it is the key of the rule, or `*`, or the category of the rule, up
to the first slash of its key, with `/*`. -/
def Covers (pattern key : String) : Prop :=
  pattern = key ∨ pattern = "*" ∨ ∃ category name,
    '/' ∉ category.toList ∧ key = category ++ "/" ++ name ∧ pattern = category ++ "/*"

theorem Text.cutFirst?_eq_some_iff {sep : Char} {cs before after : List Char} :
    cutFirst? sep cs = some (before, after) ↔ sep ∉ before ∧ cs = before ++ sep :: after := by
  induction cs generalizing before with
  | nil => simp [cutFirst?]
  | cons c cs ih =>
    by_cases hc : c = sep
    · subst hc
      simp only [cutFirst?, if_true, Option.some_inj, Prod.mk.injEq]
      constructor
      · rintro ⟨rfl, rfl⟩
        exact ⟨List.not_mem_nil, rfl⟩
      · rintro ⟨hb, he⟩
        cases before with
        | nil => exact ⟨rfl, (List.cons.inj he).2⟩
        | cons b rest => exact absurd ((List.cons.inj he).1 ▸ List.mem_cons_self) hb
    · simp only [cutFirst?, hc, if_false, Option.map_eq_some_iff, Prod.exists, Prod.mk.injEq]
      constructor
      · rintro ⟨rest, after, h, rfl, rfl⟩
        obtain ⟨hr, rfl⟩ := ih.1 h
        exact ⟨by simp [hr, Ne.symm hc], rfl⟩
      · rintro ⟨hb, he⟩
        cases before with
        | nil => exact absurd (List.cons.inj he).1 hc
        | cons b rest =>
          obtain ⟨rfl, rfl⟩ := List.cons.inj he
          refine ⟨rest, after, ih.2 ⟨fun hm => hb (List.mem_cons_of_mem c hm), rfl⟩, rfl, rfl⟩

theorem patternCategory?_eq_some_iff {pattern category : String} :
    patternCategory? pattern = some category ↔ pattern = category ++ "/*" := by
  simp only [patternCategory?, Option.map_eq_some_iff, Text.withoutSuffix?_eq_some_iff]
  constructor
  · rintro ⟨cs, hp, rfl⟩
    exact String.toList_inj.1 (by simpa using hp)
  · rintro rfl
    exact ⟨category.toList, by simp, by simp⟩

theorem ruleCategory?_eq_some_iff {key category : String} :
    ruleCategory? key = some category ↔
      '/' ∉ category.toList ∧ ∃ name, key = category ++ "/" ++ name := by
  simp only [ruleCategory?, Option.map_eq_some_iff, Prod.exists, Text.cutFirst?_eq_some_iff]
  constructor
  · rintro ⟨cs, name, ⟨hs, hk⟩, rfl⟩
    exact ⟨by simpa using hs, String.ofList name, String.toList_inj.1 (by simpa using hk)⟩
  · rintro ⟨hs, name, rfl⟩
    exact ⟨category.toList, name.toList, ⟨hs, by simp⟩, by simp⟩

theorem patternMatches_iff {key pattern : String} :
    patternMatches key pattern = true ↔ Covers pattern key := by
  have hcategory : (∃ category name,
      '/' ∉ category.toList ∧ key = category ++ "/" ++ name ∧ pattern = category ++ "/*") ↔
      ∃ category, patternCategory? pattern = some category ∧ ruleCategory? key = some category := by
    refine exists_congr fun category => ?_
    rw [patternCategory?_eq_some_iff, ruleCategory?_eq_some_iff]
    constructor
    · rintro ⟨name, hs, hk, hp⟩
      exact ⟨hp, hs, name, hk⟩
    · rintro ⟨hp, hs, name, hk⟩
      exact ⟨name, hs, hk, hp⟩
  rw [Covers, hcategory, patternMatches, Bool.or_eq_true, Bool.or_eq_true, decide_eq_true_eq,
    decide_eq_true_eq, or_assoc]
  refine or_congr_right (or_congr_right ?_)
  cases patternCategory? pattern <;> cases ruleCategory? key <;> simp [eq_comm]

/-! ## Chosen rules -/

theorem Filters.selects_iff {filters : Filters} {key : String} :
    filters.selects key = true ↔ (∀ pattern ∈ filters.excludes, ¬ Covers pattern key) ∧
      (filters.rules = [] ∨ ∃ pattern ∈ filters.rules, Covers pattern key) := by
  simp [selects, ← patternMatches_iff]

namespace LintConfig

variable (config : LintConfig) (opts : Filters)

/-- A configuration without its patterns. -/
def unfiltered : LintConfig :=
  { config with rules := [], exclude := [] }

@[simp] theorem key_adjust (rule : Rule) : (config.adjust rule).info.key = rule.info.key := by
  unfold adjust
  split <;> rfl

theorem selectedRules_unfiltered :
    config.unfiltered.selectedRules {} = Rule.all.map config.adjust := by
  have hall : (Filters.merge {} config.unfiltered).selects = fun _ => true := rfl
  rw [selectedRules, hall, List.filter_true]
  rfl

/-- The keys of the chosen rules. -/
def selectedKeys : List String :=
  (config.selectedRules opts).map (·.info.key)

theorem mem_selectedKeys_iff {key : String} :
    key ∈ config.selectedKeys opts ↔
      key ∈ Rule.keys ∧ (opts.merge config).selects key = true := by
  simp only [selectedKeys, selectedRules, Rule.keys, List.mem_map, List.mem_filter,
    exists_exists_and_eq_and, key_adjust]
  constructor
  · rintro ⟨rule, ⟨hr, hs⟩, rfl⟩
    exact ⟨⟨rule, hr, rfl⟩, hs⟩
  · rintro ⟨⟨rule, hr, rfl⟩, hs⟩
    exact ⟨rule, ⟨hr, hs⟩, rfl⟩

/-- The chosen rules, out of all rules with their severities. -/
theorem selectedRules_eq_filter :
    config.selectedRules opts = (config.unfiltered.selectedRules {}).filter
      fun rule => rule.info.key ∈ config.selectedKeys opts := by
  rw [selectedRules_unfiltered, selectedRules, List.filter_map]
  congr 1
  refine List.filter_congr fun rule hr => ?_
  have hkey : rule.info.key ∈ Rule.keys := List.mem_map_of_mem hr
  simp only [Function.comp_apply, key_adjust, mem_selectedKeys_iff, hkey, true_and,
    Bool.decide_eq_true]

end LintConfig

/-! ## What chosen rules find -/

section Filter

variable (w : Watch) (rules : List Rule) (p : String → Bool)

theorem Finder.judge_filter (o : Outcome) :
    judge w (rules.filter (p ·.info.key)) o = (judge w rules o).filter (p ·.rule) := by
  rw [judge, judge, List.filter_map, List.filter_comm]
  rfl

theorem Watch.findingsOn_filter (m : MethodDecl) (candidate : SymbolId × Creation) :
    w.findingsOn (rules.filter (p ·.info.key)) m candidate =
      (w.findingsOn rules m candidate).filter (p ·.rule) := by
  rw [findingsOn, findingsOn, List.filter_flatMap]
  simp only [← Finder.judge_filter]

/-- The rules that are kept find what they find among all. -/
theorem checkUnit_filter (u : CompilationUnit) :
    (checkUnit w (rules.filter (p ·.info.key)) u).1 =
      (checkUnit w rules u).1.filter (p ·.rule) := by
  have hfresh := Finder.sound_fresh w
  show (Finder.checkMethods w _ _ {}).1.mergeSort Finding.le =
    ((Finder.checkMethods w _ _ {}).1.mergeSort Finding.le).filter _
  rw [filter_mergeSort Finding.le_trans Finding.le_total, Finder.checkMethods_eq_flatMap hfresh,
    Finder.checkMethods_eq_flatMap hfresh]
  simp only [List.filter_flatMap, ← Watch.findingsOn_filter]

end Filter

/-- The diagnostics of a run are those of the run without patterns whose rules are chosen, in the
same order. A rule is chosen if and only if no pattern of those to leave out stands for it, be it
from the run or from the configuration, and a pattern of those to run does, unless there are none
from either. Both runs look at classes in the same order, unless all classes get names of their
own. -/
theorem diagnostics_lint_eq_filter (order order' : ClassOrder) (source : SourceUnit)
    (config : LintConfig) (opts : Filters)
    (orders : order' = order ∨ source.unit.ClassNamesDiffer (lintSignatures source config)) :
    (lint order' source config opts).report.diagnostics =
      (lint order source config.unfiltered {}).report.diagnostics.filter
        (fun d => d.rule ∈ config.selectedKeys opts) ∧
    ∀ key, key ∈ config.selectedKeys opts ↔ key ∈ Rule.keys ∧
      (∀ pattern, pattern ∈ opts.excludes ∨ pattern ∈ config.exclude → ¬ Covers pattern key) ∧
      (opts.rules = [] ∧ config.rules = [] ∨
        ∃ pattern, (pattern ∈ opts.rules ∨ pattern ∈ config.rules) ∧ Covers pattern key) := by
  constructor
  · let w : Watch :=
      { model := (resolve order source.unit (lintSignatures source config)).model
        resource := config.resource }
    rw [lint_eq_of_order opts orders]
    show (checkUnit w (config.selectedRules opts) source.unit).1.map _ =
      ((checkUnit w (config.unfiltered.selectedRules {}) source.unit).1.map _).filter _
    rw [config.selectedRules_eq_filter opts, List.filter_map,
      checkUnit_filter w _ fun key => key ∈ config.selectedKeys opts]
    rfl
  · intro key
    rw [LintConfig.mem_selectedKeys_iff, Filters.selects_iff]
    simp [Filters.merge]

/-- A handle is got from a member class `Inner`. Another member class may have the same name, and
has no method to get it from. -/
def twinUnit (other : String) : SourceUnit where
  path := "A.java"
  unit := {
    package := some "p"
    classes := [
      { site := ⟨0, {}⟩, name := "A", fields := [], methods := []
        nested := [{
          site := ⟨1, {}⟩, name := "Inner", fields := []
          methods := [⟨⟨2, {}⟩, "get", [], some "p.Handle", none⟩]
          nested := [] }] },
      { site := ⟨3, {}⟩, name := "B", fields := [], methods := []
        nested := [{ site := ⟨4, {}⟩, name := other, fields := [], methods := [], nested := [] }] },
      { site := ⟨5, {}⟩, name := "C", fields := []
        methods := [⟨⟨6, {}⟩, "run", [], none, some [
          .localVar ⟨7, {}⟩ ⟨⟨8, {}⟩, "h", "p.Handle",
            some (.call ⟨9, {}⟩ (some (.ident ⟨10, {}⟩ "Inner")) "get" [])⟩]⟩]
        nested := [] }] }

def twinConfig (factory : String) : LintConfig where
  resource := { handleType := "p.Handle", factoryType := factory }

/-- Where all classes get names of their own, the leak is reported in another order too, under a
pattern for its rule and one that stands for no rule. -/
theorem diagnostics_lint_eq_filter_twinUnit :
    let source := twinUnit "Outer"
    let config := twinConfig "p.A.Inner"
    let opts : Filters := { rules := ["resource/*"], excludes := ["resource/try-*"] }
    source.unit.ClassNamesDiffer (lintSignatures source config) ∧
    (lint .decreasing source config opts).report.diagnostics =
      (lint .increasing source config.unfiltered {}).report.diagnostics.filter
        (fun d => d.rule ∈ config.selectedKeys opts) ∧
    ((lint .decreasing source config opts).report.diagnostics.map fun d => (d.rule, d.var)) =
      [("resource/unclosed", "h")] := by
  intro source config opts
  have names : source.unit.ClassNamesDiffer (lintSignatures source config) := by
    unfold CompilationUnit.ClassNamesDiffer
    decide +kernel
  obtain ⟨heq, -⟩ :=
    diagnostics_lint_eq_filter .increasing .decreasing source config opts (.inr names)
  exact ⟨names, heq, by decide +kernel⟩

/-- Where both classes get one name, a run that comes upon the first of them finds the leak, and a
run that comes upon the second finds nothing, under the same rules. -/
theorem diagnostics_lint_twinUnit :
    let source := twinUnit "Inner"
    let config := twinConfig "p.B.Inner"
    ¬ source.unit.ClassNamesDiffer (lintSignatures source config) ∧
    (lint .decreasing source config {}).report.diagnostics = [] ∧
    (lint .decreasing source config {}).report.diagnostics ≠
      (lint .increasing source config.unfiltered {}).report.diagnostics.filter
        (fun d => d.rule ∈ config.selectedKeys {}) := by
  intro source config
  have hnone : (lint .decreasing source config {}).report.diagnostics = [] := by
    decide +kernel
  have hfound : ((lint .increasing source config.unfiltered {}).report.diagnostics.filter
      (fun d => d.rule ∈ config.selectedKeys {})).length = 1 := by
    decide +kernel
  refine ⟨?_, hnone, fun heq => ?_⟩
  · unfold CompilationUnit.ClassNamesDiffer
    decide +kernel
  · rw [← heq, hnone] at hfound
    cases hfound

end HandleLint
