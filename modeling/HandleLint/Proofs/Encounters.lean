import HandleLint.Proofs.BodyTraversals
import HandleLint.Proofs.EnvironmentSteps

/-!
# What is met in a unit

A unit is gone through in one order: in a class first the names of its fields, then their initial
values, its methods and its member classes; in a body each statement after the one before, and each
expression after its parts. Here that order is written down as a list, without symbols and scopes. A
declaration is listed with those that stand before it in its own scope.

* `Encounter`, `CompilationUnit.encounters`: what is met, in order;
* `Env.encountersAlong`: the same along the steps of resolving names;
* `CompilationUnit.encountersAlong_steps`: along the steps of a unit one meets what is in it;
* `CompilationUnit.expressions_encounters`, `CompilationUnit.declarations_encounters_perm`: the
  expressions and the declarations that are met.
-/

namespace HandleLint

open HandleLint.Resolver (Step)
open HandleLint.Action (inScope evaluateAll)

/-- An expression, or a declaration with the earlier ones of its scope. -/
inductive Encounter
  | expression (e : Expr)
  | declaration (v : VarDecl) (earlier : List VarDecl)

/-- An expression is met after its parts. -/
def Expr.encounters (e : Expr) : List Encounter :=
  e.postorder.map .expression

namespace VarDecl

/-- A variable is declared after its initial value, in a scope that has some declarations
already. -/
def encounters (scope : List VarDecl) (v : VarDecl) : List Encounter :=
  v.init.toList.flatMap Expr.encounters ++ [.declaration v scope]

/-- Variables of one scope, one after the other. -/
def encountersInTurn (scope : List VarDecl) : List VarDecl → List Encounter
  | [] => []
  | v :: rest => v.encounters scope ++ encountersInTurn (scope ++ [v]) rest

/-- Fields or parameters, whose initial values are not met with them. -/
def declarationsInTurn (scope : List VarDecl) : List VarDecl → List Encounter
  | [] => []
  | v :: rest => .declaration v scope :: declarationsInTurn (scope ++ [v]) rest

end VarDecl

/-- The declarations of a scope after a statement in it. -/
def Stmt.inForce (scope : List VarDecl) : Stmt → List VarDecl
  | .localVar _ var => scope ++ [var]
  | _ => scope

mutual

/-- What is met in a statement of a scope that has some declarations already. -/
def Stmt.encounters (scope : List VarDecl) : Stmt → List Encounter
  | .exprStmt _ value => value.encounters
  | .localVar _ var => var.encounters scope
  | .returnStmt _ value => value.toList.flatMap Expr.encounters
  | .block _ body => encountersOf [] body
  | .ifStmt _ condition thenBranch none => condition.encounters ++ encountersOf [] thenBranch
  | .ifStmt _ condition thenBranch (some elseBranch) =>
    condition.encounters ++ encountersOf [] thenBranch ++ encountersOf [] elseBranch
  | .whileStmt _ condition body => condition.encounters ++ encountersOf [] body
  | .forStmt _ init condition update body =>
    encountersOf [] init ++ condition.toList.flatMap Expr.encounters ++
      update.flatMap Expr.encounters ++ encountersOf [] body
  | .forEachStmt _ var iterated body =>
    iterated.encounters ++ var.encounters [] ++ encountersOf [] body
  | .tryStmt _ resources body catches none =>
    VarDecl.encountersInTurn [] resources ++ encountersOf [] body ++ encountersOfCatches catches
  | .tryStmt _ resources body catches (some finallyBlock) =>
    VarDecl.encountersInTurn [] resources ++ encountersOf [] body ++ encountersOfCatches catches ++
      encountersOf [] finallyBlock
  | .throwStmt _ value => value.encounters
  | .breakStmt _ => []
  | .continueStmt _ => []

/-- What is met in statements of one scope. -/
def encountersOf (scope : List VarDecl) : List Stmt → List Encounter
  | [] => []
  | s :: rest => s.encounters scope ++ encountersOf (s.inForce scope) rest

def encountersOfCatches : List CatchClause → List Encounter
  | [] => []
  | .mk param body :: rest =>
    param.encounters [] ++ encountersOf [param] body ++ encountersOfCatches rest

end

/-- What is met in a method, if it has a body: its parameters share the scope of the body. -/
def MethodDecl.encounters (m : MethodDecl) : List Encounter :=
  match m.body with
  | some body => VarDecl.declarationsInTurn [] m.params ++ encountersOf m.params body
  | none => []

namespace ClassDecl

mutual

/-- What is met in a class and in its member classes. -/
def encounters : ClassDecl → List Encounter
  | ⟨_, _, fields, methods, nested⟩ =>
    VarDecl.declarationsInTurn [] fields ++
      (fields.flatMap (·.init.toList)).flatMap Expr.encounters ++
      methods.flatMap MethodDecl.encounters ++ encountersOf nested

def encountersOf : List ClassDecl → List Encounter
  | [] => []
  | c :: cs => c.encounters ++ encountersOf cs

end

end ClassDecl

/-- What is met in a unit. -/
def CompilationUnit.encounters (u : CompilationUnit) : List Encounter :=
  ClassDecl.encountersOf u.classes

/-! ## Along steps -/

namespace Env

/-- What a step meets. -/
def encountersAt (env : Env) : Step → List Encounter
  | .openClass c => VarDecl.declarationsInTurn [] c.fields
  | .visit e => [.expression e]
  | .declare _ v => [.declaration v (env.headD [])]
  | .openMethod _ | .openBlock | .leave => []

/-- What steps meet. -/
def encountersAlong (env : Env) : List Step → List Encounter
  | [] => []
  | s :: rest => env.encountersAt s ++ (env.step s).encountersAlong rest

variable {env env' : Env}

theorem encountersAlong_append {first : List Step} (h : env.run first = env') (rest : List Step) :
    env.encountersAlong (first ++ rest) =
      env.encountersAlong first ++ env'.encountersAlong rest := by
  induction first generalizing env with
  | nil =>
    obtain rfl : env = env' := h
    rfl
  | cons s first ih =>
    rw [List.cons_append, encountersAlong, ih h, encountersAlong, List.append_assoc]

/-- Going through pieces of a tree that leave the environment as it is. -/
theorem encountersAlong_flatMap {α : Type} {steps : α → List Step} {met : α → List Encounter}
    {as : List α} (hrun : ∀ a ∈ as, env.run (steps a) = env)
    (hmet : ∀ a ∈ as, env.encountersAlong (steps a) = met a) :
    env.encountersAlong (as.flatMap steps) = as.flatMap met := by
  induction as with
  | nil => rfl
  | cons a rest ih =>
    obtain ⟨ha, hrest⟩ := List.forall_mem_cons.1 hrun
    obtain ⟨hmeta, hmetrest⟩ := List.forall_mem_cons.1 hmet
    rw [List.flatMap_cons, encountersAlong_append ha, hmeta, ih hrest hmetrest, List.flatMap_cons]

theorem encountersAlong_expr (env : Env) (e : Expr) :
    env.encountersAlong e.steps = e.encounters := by
  rw [Expr.steps, Expr.encounters]
  induction e.postorder with
  | nil => rfl
  | cons x rest ih => exact congrArg (.expression x :: ·) ih

theorem encountersAlong_exprs (env : Env) (es : List Expr) :
    env.encountersAlong (es.flatMap Expr.steps) = es.flatMap Expr.encounters :=
  encountersAlong_flatMap (fun e _ => (meets_expr env e).run)
    fun e _ => encountersAlong_expr env e

/-- Fields or parameters, one after the other. -/
theorem encountersAlong_declares (scope : List VarDecl) (outer : Env) (kind : SymbolKind)
    (vs : List VarDecl) :
    encountersAlong (scope :: outer) (vs.map (.declare kind)) =
      VarDecl.declarationsInTurn scope vs := by
  induction vs generalizing scope with
  | nil => rfl
  | cons v rest ih => exact congrArg (.declaration v scope :: ·) (ih (scope ++ [v]))

theorem foldl_declare_cons (scope : List VarDecl) (outer : Env) (vs : List VarDecl) :
    vs.foldl declare (scope :: outer) = (scope ++ vs) :: outer := by
  induction vs generalizing scope with
  | nil =>
    rw [List.append_nil]
    rfl
  | cons v rest ih =>
    rw [List.foldl_cons, declare, ih, List.append_assoc]
    rfl

theorem after_cons (scope : List VarDecl) (outer : Env) (s : Stmt) :
    after (scope :: outer) s = s.inForce scope :: outer := by
  cases s <;> rfl

/-! ## Bodies -/

/-- What the actions of a body meet. -/
def encountersDuring (env : Env) (actions : List Action) : List Encounter :=
  env.encountersAlong (actions.flatMap Action.steps)

theorem encountersDuring_append {first : List Action}
    (h : env.run (first.flatMap Action.steps) = env') (rest : List Action) :
    env.encountersDuring (first ++ rest) =
      env.encountersDuring first ++ env'.encountersDuring rest := by
  rw [encountersDuring, List.flatMap_append, encountersAlong_append h]
  rfl

theorem encountersDuring_evaluateAll (env : Env) (es : List Expr) :
    env.encountersDuring (evaluateAll es) = es.flatMap Expr.encounters := by
  rw [encountersDuring, evaluateAll, List.flatMap_map]
  exact encountersAlong_exprs env es

theorem encountersDuring_evaluate_cons (env : Env) (e : Expr) (rest : List Action) :
    env.encountersDuring (.evaluate e :: rest) = e.encounters ++ env.encountersDuring rest := by
  rw [encountersDuring, List.flatMap_cons, Action.steps,
    encountersAlong_append (meets_expr env e).run, encountersAlong_expr]
  rfl

theorem encountersAlong_declare (env : Env) (origin : VarOrigin) (v : VarDecl) :
    env.encountersAlong (Action.declare origin v).steps = v.encounters (env.headD []) := by
  rw [Action.steps, encountersAlong_append (meets_exprs _ _).run, encountersAlong_exprs]
  rfl

theorem encountersDuring_declare_cons (scope : List VarDecl) (outer : Env) (origin : VarOrigin)
    (v : VarDecl) (rest : List Action) :
    encountersDuring (scope :: outer) (.declare origin v :: rest) =
      v.encounters scope ++ encountersDuring ((scope ++ [v]) :: outer) rest := by
  rw [encountersDuring, List.flatMap_cons, encountersAlong_append (meets_declare _ origin v).run,
    encountersAlong_declare]
  rfl

theorem encountersDuring_declares_append (scope : List VarDecl) (outer : Env) (origin : VarOrigin)
    (vs : List VarDecl) (rest : List Action) :
    encountersDuring (scope :: outer) (vs.map (.declare origin) ++ rest) =
      VarDecl.encountersInTurn scope vs ++ encountersDuring ((scope ++ vs) :: outer) rest := by
  induction vs generalizing scope with
  | nil =>
    rw [List.append_nil]
    rfl
  | cons v vs ih =>
    rw [List.map_cons, List.cons_append, encountersDuring_declare_cons, ih,
      VarDecl.encountersInTurn, List.append_assoc, List.append_assoc]
    rfl

/-- A scope of its own meets what is inside. -/
theorem encountersDuring_inScope (env : Env) (actions : List Action) :
    env.encountersDuring (inScope actions) = env.nested.encountersDuring actions := by
  have hsteps : (inScope actions).flatMap Action.steps =
      .openBlock :: (actions.flatMap Action.steps ++ [.leave]) := by
    simp [inScope, Action.steps]
  rw [encountersDuring, hsteps, encountersAlong, encountersAlong_append rfl]
  exact List.append_nil _

/-- After a scope of its own the environment is what it was, if only the inside has changed. -/
theorem run_inScope {actions : List Action}
    (h : (env.nested.run (actions.flatMap Action.steps)).tail = env) :
    env.run ((inScope actions).flatMap Action.steps) = env := by
  have hsteps : (inScope actions).flatMap Action.steps =
      .openBlock :: (actions.flatMap Action.steps ++ [.leave]) := by
    simp [inScope, Action.steps]
  rw [hsteps, run, List.foldl_cons, List.foldl_append]
  exact h

theorem run_inScope_body (env : Env) (body : List Stmt) :
    env.run ((inScope (actionsOf body)).flatMap Action.steps) = env := by
  refine run_inScope ?_
  rw [(meets_body env.nested body).run, tail_foldl_after, tail_nested]

theorem run_inScope_try (env : Env) (resources : List VarDecl) (body : List Stmt) :
    env.run ((inScope (resources.map (.declare .tryResource) ++
      inScope (actionsOf body))).flatMap Action.steps) = env := by
  refine run_inScope ?_
  rw [List.flatMap_append, run, List.foldl_append]
  have hresources : env.nested.run _ = _ := (meets_inTurn env.nested .tryResource resources).run
  rw [run] at hresources
  rw [hresources]
  have hbody := run_inScope_body (resources.foldl declare env.nested) body
  rw [run] at hbody
  rw [hbody, tail_foldl_declare, tail_nested]

theorem run_inScope_catch (env : Env) (param : VarDecl) (body : List Stmt) :
    env.run ((inScope (.declare .catchParam param :: actionsOf body)).flatMap Action.steps) =
      env := by
  have hinside := (meets_declare env.nested .catchParam param).append
    (meets_body (env.nested.declare param) body)
  refine run_inScope ?_
  rw [List.flatMap_cons, hinside.run, tail_foldl_after, tail_declare, tail_nested]

mutual

theorem encountersDuring_stmt (scope : List VarDecl) (outer : Env) : (s : Stmt) →
    encountersDuring (scope :: outer) s.actions = s.encounters scope
  | .exprStmt _ value => by
    rw [Stmt.actions, Stmt.encounters, encountersDuring_evaluate_cons]
    exact List.append_nil _
  | .localVar _ var => by
    rw [Stmt.actions, Stmt.encounters, encountersDuring_declare_cons]
    exact List.append_nil _
  | .returnStmt _ value => by
    rw [Stmt.actions, Stmt.encounters, encountersDuring_evaluateAll]
  | .block _ body => by
    rw [Stmt.actions, Stmt.encounters, encountersDuring_inScope, nested,
      encountersDuring_body [] _ body]
  | .ifStmt _ condition thenBranch none => by
    rw [Stmt.actions, Stmt.encounters, encountersDuring_evaluate_cons, encountersDuring_inScope,
      nested, encountersDuring_body [] _ thenBranch]
  | .ifStmt _ condition thenBranch (some elseBranch) => by
    rw [Stmt.actions, Stmt.encounters, List.cons_append, encountersDuring_evaluate_cons,
      encountersDuring_append (run_inScope_body _ thenBranch), encountersDuring_inScope,
      encountersDuring_inScope, nested, encountersDuring_body [] _ thenBranch,
      encountersDuring_body [] _ elseBranch, List.append_assoc]
  | .whileStmt _ condition body => by
    rw [Stmt.actions, Stmt.encounters, encountersDuring_evaluate_cons, encountersDuring_inScope,
      nested, encountersDuring_body [] _ body]
  | .forStmt _ init condition update body => by
    rw [Stmt.actions, Stmt.encounters, encountersDuring_inScope, List.append_assoc,
      List.append_assoc, encountersDuring_append (meets_body _ init).run,
      encountersDuring_append (meets_evaluateAll _ _).run,
      encountersDuring_append (meets_evaluateAll _ _).run, encountersDuring_evaluateAll,
      encountersDuring_evaluateAll, encountersDuring_inScope, nested,
      encountersDuring_body [] _ init, nested, encountersDuring_body [] _ body, List.append_assoc,
      List.append_assoc]
  | .forEachStmt _ var iterated body => by
    rw [Stmt.actions, Stmt.encounters, encountersDuring_evaluate_cons, encountersDuring_inScope,
      nested, encountersDuring_declare_cons, encountersDuring_inScope, nested,
      encountersDuring_body [] _ body, List.append_assoc]
  | .tryStmt _ resources body catches none => by
    rw [Stmt.actions, Stmt.encounters, encountersDuring_append (run_inScope_try _ resources body),
      encountersDuring_inScope, nested, encountersDuring_declares_append, encountersDuring_inScope,
      nested, encountersDuring_body [] _ body, encountersDuring_catches _ catches]
  | .tryStmt _ resources body catches (some finallyBlock) => by
    rw [Stmt.actions, Stmt.encounters, List.append_assoc,
      encountersDuring_append (run_inScope_try _ resources body),
      encountersDuring_append (meets_catches _ catches).run, encountersDuring_inScope, nested,
      encountersDuring_declares_append, encountersDuring_inScope, encountersDuring_inScope, nested,
      encountersDuring_body [] _ body, encountersDuring_catches _ catches, nested,
      encountersDuring_body [] _ finallyBlock, List.append_assoc _ _ (encountersOf [] finallyBlock)]
  | .throwStmt _ value => by
    rw [Stmt.actions, Stmt.encounters, encountersDuring_evaluate_cons]
    exact List.append_nil _
  | .breakStmt _ => by
    rw [Stmt.actions, Stmt.encounters]
    rfl
  | .continueStmt _ => by
    rw [Stmt.actions, Stmt.encounters]
    rfl

theorem encountersDuring_body (scope : List VarDecl) (outer : Env) : (body : List Stmt) →
    encountersDuring (scope :: outer) (actionsOf body) = encountersOf scope body
  | [] => by
    rw [actionsOf, encountersOf]
    rfl
  | s :: rest => by
    rw [actionsOf, encountersOf, encountersDuring_append (meets_stmt _ s).run, after_cons,
      encountersDuring_stmt scope outer s, encountersDuring_body _ outer rest]

theorem encountersDuring_catches (env : Env) : (catches : List CatchClause) →
    env.encountersDuring (actionsOfCatches catches) = encountersOfCatches catches
  | [] => by
    rw [actionsOfCatches, encountersOfCatches]
    rfl
  | .mk param body :: rest => by
    rw [actionsOfCatches, encountersOfCatches,
      encountersDuring_append (run_inScope_catch _ param body), encountersDuring_inScope, nested,
      encountersDuring_declare_cons, List.nil_append, encountersDuring_body [param] _ body,
      encountersDuring_catches env rest]

end

/-! ## Classes -/

theorem encountersAlong_method (env : Env) (m : MethodDecl) :
    env.encountersAlong m.steps = m.encounters := by
  unfold MethodDecl.steps MethodDecl.encounters
  cases m.body with
  | none => rfl
  | some body =>
    have hparams : env.nested.run (m.params.map (.declare .parameter)) = m.params :: env := by
      rw [(meets_params env.nested .parameter m.params).run, nested, foldl_declare_cons,
        List.nil_append]
    have hbody := encountersDuring_body m.params env body
    rw [encountersDuring] at hbody
    simp only [List.cons_append, List.append_assoc]
    rw [encountersAlong, encountersAt, step, List.nil_append, encountersAlong_append hparams,
      encountersAlong_append rfl, hbody, nested, encountersAlong_declares]
    exact congrArg _ (List.append_nil _)

mutual

theorem encountersAlong_class (env : Env) : (c : ClassDecl) →
    env.encountersAlong c.steps = c.encounters
  | ⟨site, name, fields, methods, nested⟩ => by
    have hmethods := encountersAlong_flatMap
      (fun m (_ : m ∈ methods) => (meets_method (fields.foldl declare env.nested) m).run)
      (fun m _ => encountersAlong_method _ m)
    have hmethodsRun := (Meets.flatMap fun (m : MethodDecl) (_ : m ∈ methods) =>
      meets_method (fields.foldl declare env.nested) m).run
    rw [ClassDecl.steps, ClassDecl.encounters]
    simp only [List.cons_append, List.append_assoc]
    rw [encountersAlong, encountersAt, step, encountersAlong_append (meets_exprs _ _).run,
      encountersAlong_exprs, encountersAlong_append hmethodsRun, hmethods,
      encountersAlong_append (meets_classes _ nested).run, encountersAlong_classes _ nested]
    simp only [encountersAlong, encountersAt, List.append_nil]

theorem encountersAlong_classes (env : Env) : (cs : List ClassDecl) →
    env.encountersAlong (ClassDecl.stepsOf cs) = ClassDecl.encountersOf cs
  | [] => by
    rw [ClassDecl.stepsOf, ClassDecl.encountersOf]
    rfl
  | c :: cs => by
    rw [ClassDecl.stepsOf, ClassDecl.encountersOf, encountersAlong_append (meets_class env c).run,
      encountersAlong_class env c, encountersAlong_classes env cs]

end

end Env

/-- Going through a unit meets what is in it, in order. -/
theorem CompilationUnit.encountersAlong_steps (u : CompilationUnit) :
    Env.encountersAlong [] (ClassDecl.stepsOf u.classes) = u.encounters :=
  Env.encountersAlong_classes [] u.classes

/-! ## Expressions and declarations -/

namespace Encounter

/-- The expression that is met. -/
def expression? : Encounter → Option Expr
  | .expression e => some e
  | .declaration _ _ => none

/-- The variable whose declaration is met. -/
def declaration? : Encounter → Option VarDecl
  | .expression _ => none
  | .declaration v _ => some v

end Encounter

@[simp] theorem VarDecl.filterMap_expression?_declarationsInTurn (scope vs : List VarDecl) :
    (declarationsInTurn scope vs).filterMap Encounter.expression? = [] := by
  induction vs generalizing scope with
  | nil => rfl
  | cons v rest ih => exact ih (scope ++ [v])

@[simp] theorem VarDecl.filterMap_declaration?_declarationsInTurn (scope vs : List VarDecl) :
    (declarationsInTurn scope vs).filterMap Encounter.declaration? = vs := by
  induction vs generalizing scope with
  | nil => rfl
  | cons v rest ih => exact congrArg (v :: ·) (ih (scope ++ [v]))

@[simp] theorem Expr.filterMap_declaration?_encounters (e : Expr) :
    e.encounters.filterMap Encounter.declaration? = [] := by
  simp [encounters, List.filterMap_map, List.filterMap_eq_nil_iff, Encounter.declaration?]

theorem Env.filterMap_expression?_encountersAlong (env : Env) (steps : List Step) :
    (env.encountersAlong steps).filterMap Encounter.expression? =
      steps.filterMap Step.expression? := by
  induction steps generalizing env with
  | nil => rfl
  | cons s rest ih =>
    rw [encountersAlong, List.filterMap_append, ih]
    cases s with
    | openClass c =>
      rw [encountersAt, VarDecl.filterMap_expression?_declarationsInTurn]
      rfl
    | _ => rfl

/-- One meets the expressions that are visited, in the same order. -/
theorem CompilationUnit.expressions_encounters (u : CompilationUnit) :
    u.encounters.filterMap Encounter.expression? =
      (ClassDecl.stepsOf u.classes).filterMap Step.expression? := by
  rw [← u.encountersAlong_steps, Env.filterMap_expression?_encountersAlong]

@[simp] theorem VarDecl.filterMap_declaration?_encounters (scope : List VarDecl) (v : VarDecl) :
    (v.encounters scope).filterMap Encounter.declaration? = [v] := by
  simp [encounters, List.filterMap_flatMap, Encounter.declaration?]

theorem Env.filterMap_declaration?_encountersDuring (env : Env) (actions : List Action) :
    (env.encountersDuring actions).filterMap Encounter.declaration? =
      (actions.filterMap Action.declaration?).map Prod.snd := by
  induction actions generalizing env with
  | nil => rfl
  | cons a rest ih =>
    have hcons : env.encountersDuring (a :: rest) =
        env.encountersAlong a.steps ++ (env.run a.steps).encountersDuring rest :=
      encountersAlong_append rfl _
    rw [hcons, List.filterMap_append, ih]
    cases a with
    | evaluate e =>
      rw [Action.steps, encountersAlong_expr, Expr.filterMap_declaration?_encounters]
      rfl
    | declare origin v =>
      rw [encountersAlong_declare, VarDecl.filterMap_declaration?_encounters]
      rfl
    | _ => rfl

/-- The parameters and the variables of a method that has a body. -/
def MethodDecl.declaredVars (m : MethodDecl) : List VarDecl :=
  match m.body with
  | some body => m.params ++ (declarationsOf body).map Prod.snd
  | none => []

/-- The fields of a class, and the variables of its methods. -/
def ClassDecl.declaredVars (c : ClassDecl) : List VarDecl :=
  c.fields ++ c.methods.flatMap MethodDecl.declaredVars

theorem MethodDecl.declarations_encounters_perm (m : MethodDecl) :
    (m.encounters.filterMap Encounter.declaration?).Perm m.declaredVars := by
  unfold encounters declaredVars
  cases m.body with
  | none => exact .nil
  | some body =>
    simp only [List.filterMap_append, VarDecl.filterMap_declaration?_declarationsInTurn]
    rw [← Env.encountersDuring_body m.params [] body, Env.filterMap_declaration?_encountersDuring]
    exact ((declarations_perm body).map Prod.snd).append_left _

namespace ClassDecl

mutual

theorem declarations_encounters_perm : (c : ClassDecl) →
    (c.encounters.filterMap Encounter.declaration?).Perm (c.withNested.flatMap declaredVars)
  | ⟨site, name, fields, methods, nested⟩ => by
    have hinits : ((fields.flatMap (·.init.toList)).flatMap Expr.encounters).filterMap
        Encounter.declaration? = [] := by
      simp [List.filterMap_flatMap]
    have hmethods : ((methods.flatMap MethodDecl.encounters).filterMap
        Encounter.declaration?).Perm (methods.flatMap MethodDecl.declaredVars) := by
      rw [List.filterMap_flatMap]
      exact List.Perm.flatMap_left methods fun m _ => m.declarations_encounters_perm
    rw [encounters, withNested, List.flatMap_cons, declaredVars]
    simp only [List.filterMap_append, VarDecl.filterMap_declaration?_declarationsInTurn, hinits,
      List.append_nil]
    exact (hmethods.append_left _).append (declarations_encountersOf_perm nested)

theorem declarations_encountersOf_perm : (cs : List ClassDecl) →
    ((encountersOf cs).filterMap Encounter.declaration?).Perm
      ((withNestedAll cs).flatMap declaredVars)
  | [] => by
    rw [encountersOf, withNestedAll]
    exact .nil
  | c :: cs => by
    rw [encountersOf, withNestedAll, List.filterMap_append, List.flatMap_append]
    exact (declarations_encounters_perm c).append (declarations_encountersOf_perm cs)

end

end ClassDecl

/-- One meets the declarations of the fields of all classes, and of the parameters and the variables
of all methods that have a body. -/
theorem CompilationUnit.declarations_encounters_perm (u : CompilationUnit) :
    (u.encounters.filterMap Encounter.declaration?).Perm
      (u.allClasses.flatMap ClassDecl.declaredVars) :=
  ClassDecl.declarations_encountersOf_perm u.classes

end HandleLint
