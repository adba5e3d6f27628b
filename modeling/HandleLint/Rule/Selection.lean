import HandleLint.Config.Basic
import HandleLint.Rule.Basic
import HandleLint.Text.Cut

/-!
# Which rules run

Rules are chosen by patterns: the key of a rule, `*` for all rules, or a category with `/*` for the
rules of that category. Leaving a rule out wins over choosing it.
-/

namespace HandleLint

/-- The part of a key before its first slash. -/
def ruleCategory? (key : String) : Option String :=
  (Text.cutFirst? '/' key.toList).map fun (category, _) => String.ofList category

/-- The category that a pattern names as a whole. -/
def patternCategory? (pattern : String) : Option String :=
  (Text.withoutSuffix? ['/', '*'] pattern.toList).map String.ofList

/-- Whether a pattern covers a rule. -/
def patternMatches (key pattern : String) : Bool :=
  pattern = key || pattern = "*" ||
    match patternCategory? pattern, ruleCategory? key with
    | some category, some own => own = category
    | _, _ => false

namespace Filters

/-- The filters of a configuration and of a run taken together. -/
def merge (opts : Filters) (config : LintConfig) : Filters :=
  { rules := opts.rules ++ config.rules, excludes := opts.excludes ++ config.exclude }

/-- Whether a rule is chosen and not left out. -/
def selects (filters : Filters) (key : String) : Bool :=
  !filters.excludes.any (patternMatches key) &&
    (filters.rules.isEmpty || filters.rules.any (patternMatches key))

end Filters

namespace LintConfig

/-- A rule with the severity that the configuration gives it. -/
def adjust (config : LintConfig) (rule : Rule) : Rule :=
  match config.severity.get? rule.info.key with
  | some severity => { rule with info := { rule.info with severity } }
  | none => rule

/-- The rules that run. -/
def selectedRules (config : LintConfig) (opts : Filters) : List Rule :=
  (Rule.all.filter fun rule => (opts.merge config).selects rule.info.key).map config.adjust

end LintConfig

end HandleLint
