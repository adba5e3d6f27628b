import HandleLint.Config.Resource
import HandleLint.Rule.Severity
import HandleLint.Table

/-!
# Configuration

What a configuration file chooses: the handles to watch, which rules run, and how much their
findings matter.
-/

namespace HandleLint

structure LintConfig where
  resource : ResourceConfig := {}
  /-- Patterns of rules to run; none stands for all. -/
  rules : List String := []
  /-- Patterns of rules to leave out. -/
  exclude : List String := []
  /-- Severities that rules have instead of their own. -/
  severity : Table String Severity := {}
  deriving Repr, Inhabited

/-- The filters of a single run, beside those of the configuration. -/
structure Filters where
  rules : List String := []
  excludes : List String := []
  deriving DecidableEq, Repr, Inhabited

end HandleLint
