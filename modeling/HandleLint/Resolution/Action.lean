import HandleLint.Names.Symbol

/-!
# What a body does to the scopes

A method body flattened into the order in which its names are resolved: scopes are entered and left,
variables are declared, expressions are evaluated.

* The branches of an `if`, the body of a loop and a `finally` are blocks.
* The variables of a `for` cover its condition, its updates and its body.
* The variable of a for-each covers the body, not what is iterated over.
* The resources of a `try` cover the later ones and the body, not the handlers.
* A catch parameter shares one scope with the statements of its handler.
-/

namespace HandleLint

inductive Action
  | enter
  | leave
  | evaluate (value : Expr)
  /-- A variable comes into force, after its initial value was evaluated. -/
  | declare (origin : VarOrigin) (var : VarDecl)

namespace Action

/-- Actions in a scope of their own. -/
def inScope (actions : List Action) : List Action :=
  .enter :: actions ++ [.leave]

/-- The evaluation of expressions, one after the other. -/
def evaluateAll (values : List Expr) : List Action :=
  values.map .evaluate

end Action

open HandleLint.Action (inScope evaluateAll)

mutual

def Stmt.actions : Stmt → List Action
  | .exprStmt _ value => [.evaluate value]
  | .localVar _ var => [.declare .localVar var]
  | .returnStmt _ value => evaluateAll value.toList
  | .block _ body => inScope (actionsOf body)
  | .ifStmt _ condition thenBranch none => .evaluate condition :: inScope (actionsOf thenBranch)
  | .ifStmt _ condition thenBranch (some elseBranch) =>
    .evaluate condition :: inScope (actionsOf thenBranch) ++ inScope (actionsOf elseBranch)
  | .whileStmt _ condition body => .evaluate condition :: inScope (actionsOf body)
  | .forStmt _ init condition update body =>
    inScope (actionsOf init ++ evaluateAll condition.toList ++ evaluateAll update ++
      inScope (actionsOf body))
  | .forEachStmt _ var iterated body =>
    .evaluate iterated :: inScope (.declare .loopVar var :: inScope (actionsOf body))
  | .tryStmt _ resources body catches none =>
    inScope (resources.map (.declare .tryResource) ++ inScope (actionsOf body)) ++
      actionsOfCatches catches
  | .tryStmt _ resources body catches (some finallyBlock) =>
    inScope (resources.map (.declare .tryResource) ++ inScope (actionsOf body)) ++
      actionsOfCatches catches ++ inScope (actionsOf finallyBlock)
  | .throwStmt _ value => [.evaluate value]
  | .breakStmt _ => []
  | .continueStmt _ => []

/-- The actions of a list of statements. -/
def actionsOf : List Stmt → List Action
  | [] => []
  | s :: rest => s.actions ++ actionsOf rest

def actionsOfCatches : List CatchClause → List Action
  | [] => []
  | .mk param body :: rest =>
    inScope (.declare .catchParam param :: actionsOf body) ++ actionsOfCatches rest

end

end HandleLint
