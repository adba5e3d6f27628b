import HandleLint.Lifecycle.Outcome
import HandleLint.Rule.Severity

/-!
# Rules

A rule says when the outcome of a handle is worth a finding, and in which words. In its texts a mark
stands for the type of the handle, and in its advice another for the variable.
-/

namespace HandleLint

/-- The description of a rule. -/
structure RuleInfo where
  key : String
  /-- The key that the rule was published under before. -/
  legacyKey : Option String := none
  title : String
  severity : Severity
  tags : List String := []
  message : String
  fix : String
  deriving DecidableEq, Repr

namespace RuleInfo

def handleMark : String := "\x7bhandle\x7d"

def varMark : String := "\x7bvar\x7d"

def renderTitle (r : RuleInfo) (handle : String) : String :=
  Text.replaceAll handleMark handle r.title

def renderMessage (r : RuleInfo) (handle : String) : String :=
  Text.replaceAll handleMark handle r.message

def renderFix (r : RuleInfo) (handle var : String) : String :=
  Text.replaceAll varMark var (Text.replaceAll handleMark handle r.fix)

end RuleInfo

structure Rule where
  info : RuleInfo
  fires : Outcome → Bool

namespace Rule

/-- The handle is released in place. -/
def closedExplicitly (o : Outcome) : Bool :=
  o.release.isSome

/-- The handle is neither released in place nor passed on for release. -/
def neverClosed (o : Outcome) : Bool :=
  o.release.isNone && o.handedOff.isNone

/-- A handle that is released in place could be declared in the head of a `try`. -/
def tryWithResources : Rule where
  info := {
    key := "resource/try-with-resources"
    legacyKey := some "AEM-5"
    title := "\x7bhandle\x7d can be closed using try-with-resources"
    severity := .info
    tags := ["java7"]
    message := "\x7bhandle\x7d can be closed using try-with-resources Java 7 feature."
    fix := "declare `\x7bvar\x7d` in the resource list: " ++
      "`try (\x7bhandle\x7d \x7bvar\x7d = ...) \x7b ... \x7d`" }
  fires := closedExplicitly

/-- A handle that is never released leaks. -/
def unclosed : Rule where
  info := {
    key := "resource/unclosed"
    legacyKey := some "AEM-3"
    title := "Manually created \x7bhandle\x7d should be closed"
    severity := .warning
    tags := ["bug", "leak"]
    message := "\x7bhandle\x7d should be closed in finally block or with try-with-resources."
    fix := "call `\x7bvar\x7d.close()` in a finally block, " ++
      "or declare it in a try-with-resources header" }
  fires := neverClosed

/-- The rules there are. -/
def all : List Rule :=
  [tryWithResources, unclosed]

def keys : List String :=
  all.map (·.info.key)

end Rule

end HandleLint
