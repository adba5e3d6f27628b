import HandleLint.Proofs.LexicalScope
import HandleLint.Proofs.ResolverSteps
import Mathlib.Data.List.Flatten
import Mathlib.Data.List.Perm.Basic

/-!
# The contents of a body

A body as a list of all the statements in it, whatever their depth, and what each of these holds of
its own. Two passes go through bodies: the one that gathers events and the one that resolves names.
They meet the parts of a statement in different orders, so they are compared with this list, up to
order.

* `Stmt.preorder`, `statementsOf`: the statements;
* `Stmt.locals`, `Stmt.resources`, `Stmt.declarations`: the variables that one statement declares;
* `Stmt.perm_flatMap_preorder`: a pass that meets what a statement holds of its own and what stands
  inside it meets what all the statements hold of their own;
* `events_perm`, `visits_perm`: the two passes;
* `declarations_perm`: what resolving a body declares.
-/

namespace HandleLint

open HandleLint.Resolver (Step)
open HandleLint.Action (inScope evaluateAll)

/-! ## Statements in statements -/

namespace Stmt

mutual

/-- A statement, then the statements inside it from left to right. -/
def preorder : Stmt → List Stmt
  | s@(.block _ body) => s :: statementsOf body
  | s@(.ifStmt _ _ thenBranch none) => s :: statementsOf thenBranch
  | s@(.ifStmt _ _ thenBranch (some elseBranch)) =>
    s :: (statementsOf thenBranch ++ statementsOf elseBranch)
  | s@(.whileStmt _ _ body) => s :: statementsOf body
  | s@(.forStmt _ init _ _ body) => s :: (statementsOf init ++ statementsOf body)
  | s@(.forEachStmt _ _ _ body) => s :: statementsOf body
  | s@(.tryStmt _ _ body catches none) => s :: (statementsOf body ++ statementsOfCatches catches)
  | s@(.tryStmt _ _ body catches (some finallyBlock)) =>
    s :: (statementsOf body ++ statementsOfCatches catches ++ statementsOf finallyBlock)
  | s@(.exprStmt _ _) | s@(.localVar _ _) | s@(.returnStmt _ _) | s@(.throwStmt _ _)
  | s@(.breakStmt _) | s@(.continueStmt _) => [s]

/-- All the statements in a list of statements. -/
def statementsOf : List Stmt → List Stmt
  | [] => []
  | s :: rest => s.preorder ++ statementsOf rest

def statementsOfCatches : List CatchClause → List Stmt
  | [] => []
  | .mk _ body :: rest => statementsOf body ++ statementsOfCatches rest

end

theorem statementsOf_eq_flatMap (body : List Stmt) : statementsOf body = body.flatMap preorder := by
  induction body with
  | nil => rw [statementsOf, List.flatMap_nil]
  | cons s rest ih => rw [statementsOf, ih, List.flatMap_cons]

theorem statementsOfCatches_eq_flatMap (catches : List CatchClause) :
    statementsOfCatches catches = (catches.flatMap CatchClause.body).flatMap preorder := by
  induction catches with
  | nil => rw [statementsOfCatches, List.flatMap_nil, List.flatMap_nil]
  | cons c rest ih =>
    cases c
    rw [statementsOfCatches, ih, statementsOf_eq_flatMap, List.flatMap_cons, List.flatMap_append,
      CatchClause.body]

/-- A statement comes first, then the statements directly inside it one after the other. -/
theorem preorder_eq_cons (s : Stmt) : s.preorder = s :: s.inner.flatMap preorder := by
  cases s with
  | ifStmt site condition thenBranch elseBranch =>
    cases elseBranch <;> simp [preorder, inner, statementsOf_eq_flatMap]
  | tryStmt site resources body catches finallyBlock =>
    cases finallyBlock <;>
      simp [preorder, inner, statementsOf_eq_flatMap, statementsOfCatches_eq_flatMap]
  | _ => simp [preorder, inner, statementsOf_eq_flatMap]

/-- What a pass over a statement meets is, up to order, what each of the statements in it holds of
its own, provided that this is so at one level. -/
theorem perm_flatMap_preorder {β : Type} {pass own : Stmt → List β}
    (level : ∀ s, (pass s).Perm (own s ++ s.inner.flatMap pass)) (s : Stmt) :
    (pass s).Perm (s.preorder.flatMap own) := by
  induction s using induction_inner with
  | step s ih =>
    rw [preorder_eq_cons, List.flatMap_cons, List.flatMap_assoc]
    exact (level s).trans ((List.Perm.flatMap_left s.inner ih).append_left (own s))

theorem perm_flatMap_statementsOf {β : Type} {pass own : Stmt → List β}
    (level : ∀ s, (pass s).Perm (own s ++ s.inner.flatMap pass)) (body : List Stmt) :
    (body.flatMap pass).Perm ((statementsOf body).flatMap own) := by
  rw [statementsOf_eq_flatMap, List.flatMap_assoc]
  exact List.Perm.flatMap_left body fun s _ => perm_flatMap_preorder level s

/-! ## What one statement declares -/

/-- The variable of a local declaration or of a for-each. -/
def locals : Stmt → List VarDecl
  | .localVar _ var => [var]
  | .forEachStmt _ var _ _ => [var]
  | _ => []

/-- The variables in the head of a `try`. -/
def resources : Stmt → List VarDecl
  | .tryStmt _ resources _ _ _ => resources
  | _ => []

/-- All variables that a statement declares itself, with their origins. -/
def declarations : Stmt → List (VarOrigin × VarDecl)
  | .localVar _ var => [(.localVar, var)]
  | .forEachStmt _ var _ _ => [(.loopVar, var)]
  | .tryStmt _ resources _ catches _ =>
    resources.map (.tryResource, ·) ++ catches.map fun c => (.catchParam, c.param)
  | _ => []

/-- The value of a `return`. -/
def returnedValues : Stmt → List Expr
  | .returnStmt _ value => value.toList
  | _ => []

end Stmt

/-- The event of binding the initial value of a variable, if it has one. -/
def VarDecl.binding? (v : VarDecl) : Option Event :=
  v.init.map (.bind (.declared v))

/-! ## The events of a body -/

/-- The events that a statement gives by itself. -/
def Stmt.ownEvents (s : Stmt) : List Event :=
  s.returnedValues.map .returned ++ (s.locals ++ s.resources).filterMap VarDecl.binding? ++
    s.expressions.flatMap Expr.events

theorem VarDecl.events_eq (v : VarDecl) :
    v.events = v.binding?.toList ++ v.init.toList.flatMap Expr.events := by
  unfold VarDecl.events VarDecl.binding?
  cases v.init <;> simp

theorem VarDecl.filterMap_binding?_singleton (v : VarDecl) :
    [v].filterMap VarDecl.binding? = v.binding?.toList := by
  rw [List.filterMap_eq_flatMap_toList, List.flatMap_singleton]

theorem VarDecl.flatMap_events_perm (vs : List VarDecl) :
    (vs.flatMap VarDecl.events).Perm
      (vs.filterMap VarDecl.binding? ++ (vs.flatMap (·.init.toList)).flatMap Expr.events) := by
  have hsplit : vs.flatMap VarDecl.events =
      vs.flatMap fun v => v.binding?.toList ++ v.init.toList.flatMap Expr.events :=
    congrArg vs.flatMap (funext VarDecl.events_eq)
  rw [hsplit, List.filterMap_eq_flatMap_toList, List.flatMap_assoc]
  exact (List.flatMap_append_perm vs _ _).symm

theorem Stmt.events_perm_level (s : Stmt) :
    (s.events .visit).Perm (s.ownEvents ++ s.inner.flatMap (events .visit)) := by
  cases s with
  | returnStmt site value =>
    cases value <;>
      simp [events, ownEvents, locals, resources, expressions, returnedValues, inner]
  | ifStmt site condition thenBranch elseBranch =>
    cases elseBranch <;>
      simp [events, ownEvents, locals, resources, expressions, returnedValues, inner,
        eventsOf_eq_flatMap]
  | forStmt site init condition update body =>
    simp only [events, ownEvents, locals, resources, expressions, returnedValues, inner,
      eventsOf_eq_flatMap, List.flatMap_append, List.filterMap_nil, List.nil_append, List.map_nil,
      List.append_assoc]
    exact (List.perm_append_comm_assoc _ _ _).trans
      ((List.perm_append_comm_assoc _ _ _).append_left _)
  | tryStmt site rs body catches finallyBlock =>
    have hresources := VarDecl.flatMap_events_perm rs
    cases finallyBlock <;>
      simp only [events, ownEvents, locals, resources, expressions, returnedValues, inner,
        eventsOf_eq_flatMap, eventsOfCatches_eq_flatMap, ResourceLists.events, List.flatMap_append,
        ← List.flatMap_assoc, List.map_nil, List.nil_append, List.append_nil, Option.getD_none,
        Option.getD_some, List.append_assoc] <;>
      simpa using hresources.append_right _
  | _ =>
    simp [events, ownEvents, locals, resources, expressions, returnedValues, inner,
      eventsOf_eq_flatMap, VarDecl.events_eq, VarDecl.filterMap_binding?_singleton]

/-- The events of a body, resource lists read, are those that its statements give by themselves. -/
theorem events_perm (body : List Stmt) :
    (eventsOf .visit body).Perm ((Stmt.statementsOf body).flatMap Stmt.ownEvents) := by
  rw [eventsOf_eq_flatMap]
  exact Stmt.perm_flatMap_statementsOf Stmt.events_perm_level body

/-! ## The expressions that are resolved -/

/-- The expressions that an action resolves, in order. -/
def Action.visits : Action → List Expr
  | .evaluate e => e.postorder
  | .declare _ v => v.init.toList.flatMap Expr.postorder
  | _ => []

@[simp] theorem Action.visits_evaluate (e : Expr) : (Action.evaluate e).visits = e.postorder := rfl

@[simp] theorem Action.visits_declare (origin : VarOrigin) (v : VarDecl) :
    (Action.declare origin v).visits = v.init.toList.flatMap Expr.postorder := rfl

@[simp] theorem Action.flatMap_visits_inScope (actions : List Action) :
    (inScope actions).flatMap Action.visits = actions.flatMap Action.visits := by
  simp [inScope, visits]

@[simp] theorem Action.flatMap_visits_evaluateAll (values : List Expr) :
    (evaluateAll values).flatMap Action.visits = values.flatMap Expr.postorder := by
  simp [evaluateAll, List.flatMap_map]

theorem actionsOf_eq_flatMap (body : List Stmt) : actionsOf body = body.flatMap Stmt.actions := by
  induction body with
  | nil => rw [actionsOf, List.flatMap_nil]
  | cons s rest ih => rw [actionsOf, ih, List.flatMap_cons]

theorem flatMap_visits_actionsOf (body : List Stmt) :
    (actionsOf body).flatMap Action.visits =
      body.flatMap fun s => s.actions.flatMap Action.visits := by
  rw [actionsOf_eq_flatMap, List.flatMap_assoc]

theorem flatMap_visits_actionsOfCatches (catches : List CatchClause) :
    ((actionsOfCatches catches).flatMap Action.visits).Perm
      ((catches.flatMap (·.param.init.toList)).flatMap Expr.postorder ++
        (catches.flatMap CatchClause.body).flatMap fun s => s.actions.flatMap Action.visits) := by
  induction catches with
  | nil => simp [actionsOfCatches]
  | cons c rest ih =>
    obtain ⟨param, body⟩ := c
    simp only [actionsOfCatches, List.flatMap_append, Action.flatMap_visits_inScope,
      List.flatMap_cons, Action.visits_declare, flatMap_visits_actionsOf, CatchClause.param,
      CatchClause.body, List.append_assoc]
    exact (((ih.append_left _).trans (List.perm_append_comm_assoc _ _ _))).append_left _

theorem Stmt.visits_perm_level (s : Stmt) :
    (s.actions.flatMap Action.visits).Perm
      ((s.expressions ++ s.caughtValues).flatMap Expr.postorder ++
        s.inner.flatMap fun t => t.actions.flatMap Action.visits) := by
  cases s with
  | ifStmt site condition thenBranch elseBranch =>
    cases elseBranch <;>
      simp [actions, expressions, caughtValues, inner, flatMap_visits_actionsOf]
  | forStmt site init condition update body =>
    simp only [actions, expressions, caughtValues, inner, flatMap_visits_actionsOf,
      Action.flatMap_visits_inScope, Action.flatMap_visits_evaluateAll, List.flatMap_append,
      List.append_nil, List.append_assoc]
    exact (List.perm_append_comm_assoc _ _ _).trans
      ((List.perm_append_comm_assoc _ _ _).append_left _)
  | forEachStmt site var iterated body =>
    simp only [actions, expressions, caughtValues, inner, flatMap_visits_actionsOf,
      Action.flatMap_visits_inScope, List.flatMap_append, List.flatMap_cons, List.flatMap_nil,
      Action.visits_evaluate, Action.visits_declare, List.append_nil, List.append_assoc]
    exact List.perm_append_comm_assoc _ _ _
  | tryStmt site rs body catches finallyBlock =>
    have hcatches := flatMap_visits_actionsOfCatches catches
    cases finallyBlock with
    | none =>
      simp only [actions, expressions, caughtValues, inner, flatMap_visits_actionsOf,
        Action.flatMap_visits_inScope, List.flatMap_append, List.flatMap_map, Action.visits_declare,
        Option.getD_none, List.append_nil, List.append_assoc]
      rw [← List.flatMap_assoc]
      exact ((hcatches.append_left _).trans (List.perm_append_comm_assoc _ _ _)).append_left _
    | some finallyBlock =>
      simp only [actions, expressions, caughtValues, inner, flatMap_visits_actionsOf,
        Action.flatMap_visits_inScope, List.flatMap_append, List.flatMap_map, Action.visits_declare,
        Option.getD_some, List.append_assoc]
      rw [← List.flatMap_assoc]
      refine List.Perm.append_left _ ?_
      refine ((hcatches.append_right _).append_left _).trans ?_
      rw [List.append_assoc]
      exact List.perm_append_comm_assoc _ _ _
  | _ => simp [actions, expressions, caughtValues, inner, flatMap_visits_actionsOf]

/-- The expressions that are resolved in a body are the parts of the expressions of its statements
and of the initial values of its catch parameters. -/
theorem visits_perm (body : List Stmt) :
    ((actionsOf body).flatMap Action.visits).Perm ((Stmt.statementsOf body).flatMap fun s =>
      (s.expressions ++ s.caughtValues).flatMap Expr.postorder) := by
  rw [flatMap_visits_actionsOf]
  exact Stmt.perm_flatMap_statementsOf Stmt.visits_perm_level body

theorem Expr.postorder_perm_preorder (e : Expr) : e.postorder.Perm e.preorder := by
  induction e using induction_parts with
  | step e ih =>
    rw [postorder_eq_concat, preorder_eq_cons]
    exact ((List.Perm.flatMap_left e.parts ih).append_right [e]).trans
      (List.perm_append_singleton e _)

/-! ## The variables that are declared -/

/-- The variables that a body declares, with their origins. -/
def declarationsOf (body : List Stmt) : List (VarOrigin × VarDecl) :=
  (Stmt.statementsOf body).flatMap Stmt.declarations

/-- The variable that an action brings into force. -/
def Action.declaration? : Action → Option (VarOrigin × VarDecl)
  | .declare origin v => some (origin, v)
  | _ => none

theorem Action.declare_mem_iff {actions : List Action} {origin : VarOrigin} {v : VarDecl} :
    .declare origin v ∈ actions ↔ (origin, v) ∈ actions.filterMap Action.declaration? := by
  rw [List.mem_filterMap]
  constructor
  · intro h
    exact ⟨_, h, rfl⟩
  · rintro ⟨a, ha, hd⟩
    cases a <;> cases hd
    exact ha

@[simp] theorem Action.filterMap_declaration?_inScope (actions : List Action) :
    (inScope actions).filterMap Action.declaration? = actions.filterMap Action.declaration? := by
  simp [inScope, declaration?, List.filterMap_cons]

@[simp] theorem Action.filterMap_declaration?_evaluateAll (values : List Expr) :
    (evaluateAll values).filterMap Action.declaration? = [] := by
  simp [evaluateAll, List.filterMap_map, List.filterMap_eq_nil_iff, declaration?]

@[simp] theorem Action.filterMap_declaration?_declare (origin : VarOrigin) (vs : List VarDecl) :
    (vs.map (Action.declare origin)).filterMap Action.declaration? = vs.map (origin, ·) := by
  rw [List.filterMap_map, ← List.filterMap_eq_map]
  rfl

theorem filterMap_declaration?_actionsOf (body : List Stmt) :
    (actionsOf body).filterMap Action.declaration? =
      body.flatMap fun s => s.actions.filterMap Action.declaration? := by
  rw [actionsOf_eq_flatMap, List.filterMap_flatMap]

theorem filterMap_declaration?_actionsOfCatches (catches : List CatchClause) :
    ((actionsOfCatches catches).filterMap Action.declaration?).Perm
      (catches.map (fun c => (.catchParam, c.param)) ++
        (catches.flatMap CatchClause.body).flatMap fun s =>
          s.actions.filterMap Action.declaration?) := by
  induction catches with
  | nil => simp [actionsOfCatches]
  | cons c rest ih =>
    obtain ⟨param, body⟩ := c
    simp only [actionsOfCatches, List.filterMap_append, Action.filterMap_declaration?_inScope,
      List.filterMap_cons, Action.declaration?, filterMap_declaration?_actionsOf, List.map_cons,
      List.flatMap_cons, List.flatMap_append, List.cons_append, CatchClause.param,
      CatchClause.body]
    exact ((ih.append_left _).trans (List.perm_append_comm_assoc _ _ _)).cons _

theorem Stmt.declarations_perm_level (s : Stmt) :
    (s.actions.filterMap Action.declaration?).Perm
      (s.declarations ++ s.inner.flatMap fun t => t.actions.filterMap Action.declaration?) := by
  cases s with
  | ifStmt site condition thenBranch elseBranch =>
    cases elseBranch <;>
      simp [actions, declarations, inner, filterMap_declaration?_actionsOf, Action.declaration?,
        List.filterMap_cons]
  | tryStmt site rs body catches finallyBlock =>
    have hcatches := filterMap_declaration?_actionsOfCatches catches
    cases finallyBlock with
    | none =>
      simp only [actions, declarations, inner, filterMap_declaration?_actionsOf,
        Action.filterMap_declaration?_inScope, Action.filterMap_declaration?_declare,
        List.filterMap_append, List.flatMap_append, Option.getD_none, List.append_nil,
        List.append_assoc]
      exact ((hcatches.append_left _).trans (List.perm_append_comm_assoc _ _ _)).append_left _
    | some finallyBlock =>
      simp only [actions, declarations, inner, filterMap_declaration?_actionsOf,
        Action.filterMap_declaration?_inScope, Action.filterMap_declaration?_declare,
        List.filterMap_append, List.flatMap_append, Option.getD_some, List.append_assoc]
      refine List.Perm.append_left _ ?_
      refine ((hcatches.append_right _).append_left _).trans ?_
      rw [List.append_assoc]
      exact List.perm_append_comm_assoc _ _ _
  | _ =>
    simp [actions, declarations, inner, filterMap_declaration?_actionsOf, Action.declaration?,
      List.filterMap_cons]

/-- Resolving a body declares the variables that its statements declare. -/
theorem declarations_perm (body : List Stmt) :
    ((actionsOf body).filterMap Action.declaration?).Perm (declarationsOf body) := by
  rw [filterMap_declaration?_actionsOf]
  exact Stmt.perm_flatMap_statementsOf Stmt.declarations_perm_level body

end HandleLint
