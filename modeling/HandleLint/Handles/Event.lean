import HandleLint.Tree.Order

/-!
# Events of a body

The points of a method body that matter for handles, in the order in which a reader meets them:
variables are bound to values, values are returned, methods are called. An expression gives its own
event before those of its parts.

The initial value of a catch parameter is passed over. The resources of a `try` are passed over or
not, as the reader wishes (`ResourceLists`).
-/

namespace HandleLint

/-- What a value is bound to. -/
inductive BindTarget
  | declared (var : VarDecl)
  | assigned (target : Expr)

inductive Event
  | bind (target : BindTarget) (value : Expr)
  | returned (value : Expr)
  | call (site : Site) (receiver : Option Expr) (method : String) (args : List Expr)

/-- Whether the resource lists of `try` statements are read. -/
inductive ResourceLists
  | skip
  | visit
  deriving DecidableEq, Repr

/-- The event of an expression itself, if it is an assignment or a call. -/
def Expr.ownEvent? : Expr → Option Event
  | .assign _ target value => some (.bind (.assigned target) value)
  | .call site receiver method args => some (.call site receiver method args)
  | _ => none

def Expr.events (e : Expr) : List Event :=
  e.preorder.filterMap Expr.ownEvent?

/-- The events of a declaration: it binds its initial value, if it has one. -/
def VarDecl.events (v : VarDecl) : List Event :=
  match v.init with
  | none => []
  | some value => .bind (.declared v) value :: value.events

/-- The events of a list of resources. -/
def ResourceLists.events (lists : ResourceLists) (resources : List VarDecl) : List Event :=
  match lists with
  | .skip => []
  | .visit => resources.flatMap VarDecl.events

mutual

def Stmt.events (lists : ResourceLists) : Stmt → List Event
  | .exprStmt _ value => value.events
  | .localVar _ var => var.events
  | .returnStmt _ none => []
  | .returnStmt _ (some value) => .returned value :: value.events
  | .block _ body => eventsOf lists body
  | .ifStmt _ condition thenBranch none => condition.events ++ eventsOf lists thenBranch
  | .ifStmt _ condition thenBranch (some elseBranch) =>
    condition.events ++ eventsOf lists thenBranch ++ eventsOf lists elseBranch
  | .whileStmt _ condition body => condition.events ++ eventsOf lists body
  | .forStmt _ init condition update body =>
    eventsOf lists init ++ condition.toList.flatMap Expr.events ++ update.flatMap Expr.events ++
      eventsOf lists body
  | .forEachStmt _ var iterated body => var.events ++ iterated.events ++ eventsOf lists body
  | .tryStmt _ resources body catches none =>
    lists.events resources ++ eventsOf lists body ++ eventsOfCatches lists catches
  | .tryStmt _ resources body catches (some finallyBlock) =>
    lists.events resources ++ eventsOf lists body ++ eventsOfCatches lists catches ++
      eventsOf lists finallyBlock
  | .throwStmt _ value => value.events
  | .breakStmt _ => []
  | .continueStmt _ => []

/-- The events of a list of statements. -/
def eventsOf (lists : ResourceLists) : List Stmt → List Event
  | [] => []
  | s :: rest => s.events lists ++ eventsOf lists rest

def eventsOfCatches (lists : ResourceLists) : List CatchClause → List Event
  | [] => []
  | .mk _ body :: rest => eventsOf lists body ++ eventsOfCatches lists rest

end

end HandleLint
