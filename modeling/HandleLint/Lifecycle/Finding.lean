import HandleLint.Rule.Basic

/-!
# Findings

The findings of rules on the handles of a method, and of all methods of a unit in the order of their
positions.

* `Finding.ofRule`: the finding of a rule on a handle;
* `Finder.checkMethod`: the findings of a method;
* `checkUnit`: the findings of a unit, sorted by span and then by rule.
-/

namespace HandleLint

structure Finding where
  rule : String
  legacyKey : Option String
  severity : Severity
  /-- The declaration that the finding is about. -/
  anchor : NodeId
  span : Span
  var : String
  message : String
  fix : String
  deriving DecidableEq, Repr

namespace Finding

/-- What a rule has to say about a local. -/
def ofRule (handle : String) (symbol : Symbol) (rule : RuleInfo) : Finding :=
  { rule := rule.key
    legacyKey := rule.legacyKey
    severity := rule.severity
    anchor := symbol.decl
    span := symbol.span
    var := symbol.name
    message := rule.renderMessage handle
    fix := rule.renderFix handle symbol.name }

/-- No later span, and with the same span no greater rule key. -/
def le (a b : Finding) : Bool :=
  ((compare a.span b.span).then (compare a.rule b.rule)).isLE

end Finding

namespace Finder

/-- The findings on an outcome, one for each rule that fires. -/
def judge (w : Watch) (rules : List Rule) (o : Outcome) : List Finding :=
  (rules.filter (·.fires o)).map fun rule => .ofRule w.resource.handleName o.symbol rule.info

/-- The findings of a method, for its candidates in order and for each the rules in order. -/
def checkMethod (w : Watch) (rules : List Rule) (method : MethodDecl) (f : Finder) :
    List Finding × Finder :=
  if rules.isEmpty then ([], f)
  else
    let (outcomes, f) := f.outcomes w method
    let findings := outcomes.flatMap (judge w rules)
    (findings, findings.foldl (fun f x => f.note (.ruleFires method.name x.var x.rule)) f)

/-- The findings of methods one after the other. -/
def checkMethods (w : Watch) (rules : List Rule) : List MethodDecl → Finder → List Finding × Finder
  | [], f => ([], f)
  | m :: ms, f =>
    let (found, f) := f.checkMethod w rules m
    let (rest, f) := checkMethods w rules ms f
    (found ++ rest, f)

end Finder

/-- The findings of a unit, sorted, and the notes taken on the way. -/
def checkUnit (w : Watch) (rules : List Rule) (u : CompilationUnit) : List Finding × Array Note :=
  let (findings, f) := Finder.checkMethods w rules (u.allMethods.filter (·.body.isSome)) {}
  (findings.mergeSort Finding.le, f.notes)

end HandleLint
