import HandleLint.Proofs.LexicalScope
import HandleLint.Proofs.ResolverSteps

/-!
# Environments, step by step

The rules of lexical scope hand an environment down the tree. Here the same environments are
computed along the steps in which a unit is resolved, where scopes are entered and left.

* `Env.step`: what a step does to the environment;
* `Env.Meets`: the identifiers that steps meet, and the environment after them;
* `CompilationUnit.usesAlong_steps`: along the steps of a unit these are its identifiers, with the
  meanings they have by the rules.
-/

namespace HandleLint

open HandleLint.Resolver (Step)
open HandleLint.Action (inScope evaluateAll)

namespace Env

def step (env : Env) : Step → Env
  | .openClass c => c.fields.foldl declare env.nested
  | .openMethod _ => env.nested
  | .openBlock => env.nested
  | .leave => env.tail
  | .visit _ => env
  | .declare _ v => env.declare v

/-- The environment after steps. -/
def run (env : Env) (steps : List Step) : Env :=
  steps.foldl step env

/-- The identifier that a step visits. -/
def useAt? (env : Env) : Step → Option Use
  | .visit e => env.use? e
  | _ => none

theorem useAt?_eq_some {env : Env} {s : Step} {use : Use} (h : env.useAt? s = some use) :
    s = .visit (.ident use.site use.name) ∧ use.target = env.lookup? use.name := by
  cases s with
  | visit e =>
    cases e <;> cases h
    exact ⟨rfl, rfl⟩
  | _ => cases h

/-- The identifiers that steps visit, each with its meaning at that point. -/
def usesAlong (env : Env) : List Step → List Use
  | [] => []
  | s :: rest => (env.useAt? s).toList ++ (env.step s).usesAlong rest

/-- The steps start in `env`, meet the identifiers `uses` and end in `env'`. -/
structure Meets (env : Env) (steps : List Step) (uses : List Use) (env' : Env) : Prop where
  uses : env.usesAlong steps = uses
  run : env.run steps = env'

/-! ## Composing steps -/

variable {env env' env'' : Env} {first rest : List Step} {us vs : List Use}

theorem usesAlong_append (env : Env) (first rest : List Step) :
    env.usesAlong (first ++ rest) = env.usesAlong first ++ (env.run first).usesAlong rest := by
  induction first generalizing env with
  | nil => rfl
  | cons s first ih =>
    rw [List.cons_append, usesAlong, ih, usesAlong, List.append_assoc]
    rfl

/-- Steps meet an identifier by visiting it. -/
theorem usesAlong_sublist (env : Env) (steps : List Step) :
    ((env.usesAlong steps).map (·.site.id)).Sublist (steps.filterMap Step.visited?) := by
  induction steps generalizing env with
  | nil => exact .slnil
  | cons s rest ih =>
    rw [usesAlong, List.map_append]
    cases hu : env.useAt? s with
    | none => exact (ih _).trans ((List.sublist_cons_self s rest).filterMap _)
    | some use =>
      obtain ⟨rfl, -⟩ := useAt?_eq_some hu
      exact (ih _).cons_cons use.site.id

theorem Meets.nil (env : Env) : env.Meets [] [] env :=
  ⟨rfl, rfl⟩

theorem Meets.append (h : env.Meets first us env') (h' : env'.Meets rest vs env'') :
    env.Meets (first ++ rest) (us ++ vs) env'' := by
  obtain ⟨rfl, rfl⟩ := h
  obtain ⟨rfl, rfl⟩ := h'
  exact ⟨usesAlong_append env first rest, List.foldl_append⟩

/-- A step that visits nothing. -/
theorem Meets.silent {s : Step} (hs : env.useAt? s = none) (h : (env.step s).Meets rest us env') :
    env.Meets (s :: rest) us env' := by
  obtain ⟨rfl, rfl⟩ := h
  exact ⟨by rw [usesAlong, hs]; rfl, rfl⟩

/-- Steps between opening a scope and leaving it. -/
theorem Meets.scope {s : Step} (hs : env.useAt? s = none) (h : (env.step s).Meets rest us env')
    (ht : env'.tail = env) : env.Meets (s :: rest ++ [.leave]) us env := by
  have hleave : env'.Meets [.leave] [] env := .silent rfl (ht ▸ .nil _)
  have hall := Meets.silent hs (h.append hleave)
  rw [List.append_nil] at hall
  exact hall

/-- Pieces of a tree that leave the environment as it is. -/
theorem Meets.flatMap {α : Type} {steps : α → List Step} {uses : α → List Use} {as : List α}
    (h : ∀ a ∈ as, env.Meets (steps a) (uses a) env) :
    env.Meets (as.flatMap steps) (as.flatMap uses) env := by
  induction as with
  | nil => exact .nil env
  | cons a rest ih =>
    obtain ⟨ha, hrest⟩ := List.forall_mem_cons.1 h
    exact ha.append (ih hrest)

theorem meets_expr (env : Env) (e : Expr) : env.Meets e.steps (e.uses env) env := by
  unfold Expr.steps Expr.uses
  induction e.postorder with
  | nil => exact .nil env
  | cons x rest ih =>
    refine ⟨?_, ih.run⟩
    rw [List.map_cons, usesAlong, List.filterMap_cons, useAt?]
    have hrest : (env.step (.visit x)).usesAlong (rest.map .visit) = rest.filterMap env.use? :=
      ih.uses
    rw [hrest]
    cases env.use? x <;> rfl

theorem meets_exprs (env : Env) (es : List Expr) :
    env.Meets (es.flatMap Expr.steps) (es.flatMap (Expr.uses env)) env :=
  .flatMap fun e _ => meets_expr env e

/-! ## The innermost scope -/

@[simp] theorem tail_nested (env : Env) : env.nested.tail = env := rfl

@[simp] theorem tail_declare (env : Env) (v : VarDecl) : (env.declare v).tail = env.tail := by
  cases env <;> rfl

@[simp] theorem tail_after (env : Env) (s : Stmt) : (env.after s).tail = env.tail := by
  cases s <;> simp [after]

@[simp] theorem tail_foldl_declare (env : Env) (vs : List VarDecl) :
    (vs.foldl declare env).tail = env.tail := by
  induction vs generalizing env with
  | nil => rfl
  | cons v rest ih => rw [List.foldl_cons, ih, tail_declare]

@[simp] theorem tail_foldl_after (env : Env) (body : List Stmt) :
    (body.foldl after env).tail = env.tail := by
  induction body generalizing env with
  | nil => rfl
  | cons s rest ih => rw [List.foldl_cons, ih, tail_after]

/-! ## Statements -/

theorem meets_declare (env : Env) (origin : VarOrigin) (v : VarDecl) :
    env.Meets (Action.declare origin v).steps (v.uses env) (env.declare v) := by
  have hdeclare : env.Meets [.declare (.var origin) v] [] (env.declare v) := .silent rfl (.nil _)
  have h := (meets_exprs env v.init.toList).append hdeclare
  rw [List.append_nil] at h
  exact h

theorem meets_inTurn (env : Env) (origin : VarOrigin) (vs : List VarDecl) :
    env.Meets ((vs.map (Action.declare origin)).flatMap Action.steps) (VarDecl.usesInTurn env vs)
      (vs.foldl declare env) := by
  induction vs generalizing env with
  | nil => exact .nil env
  | cons v rest ih => exact (meets_declare env origin v).append (ih (env.declare v))

theorem meets_evaluateAll (env : Env) (es : List Expr) :
    env.Meets ((evaluateAll es).flatMap Action.steps) (es.flatMap (Expr.uses env)) env := by
  rw [evaluateAll, List.flatMap_map]
  exact meets_exprs env es

theorem Meets.inScope {actions : List Action}
    (h : env.nested.Meets (actions.flatMap Action.steps) us env') (ht : env'.tail = env) :
    env.Meets ((inScope actions).flatMap Action.steps) us env := by
  have hscope := Meets.scope (s := .openBlock) rfl h ht
  simpa [Action.inScope, Action.steps] using hscope

/-- The resources of a `try` cover its body. -/
theorem Meets.inTry {origin : VarOrigin} {resources : List VarDecl} {actions : List Action}
    (h : (resources.foldl declare env.nested).Meets (actions.flatMap Action.steps) us
      (resources.foldl declare env.nested)) :
    env.Meets ((Action.inScope (resources.map (.declare origin) ++ actions)).flatMap Action.steps)
      (VarDecl.usesInTurn env.nested resources ++ us) env := by
  have hall := (meets_inTurn env.nested origin resources).append h
  rw [← List.flatMap_append] at hall
  exact hall.inScope (by simp)

mutual

theorem meets_stmt (env : Env) : (s : Stmt) →
    env.Meets (s.actions.flatMap Action.steps) (s.uses env) (env.after s)
  | .exprStmt _ value => by
    simpa [Stmt.actions, Stmt.uses, Action.steps, after] using meets_expr env value
  | .localVar _ var => by
    simpa [Stmt.actions, Stmt.uses, after] using meets_declare env .localVar var
  | .returnStmt _ value => by
    rw [Stmt.actions, Stmt.uses]
    exact meets_evaluateAll env value.toList
  | .block _ body => by
    rw [Stmt.actions, Stmt.uses]
    exact (meets_body env.nested body).inScope (by simp)
  | .ifStmt _ condition thenBranch none => by
    rw [Stmt.actions, Stmt.uses]
    exact (meets_expr env condition).append ((meets_body env.nested thenBranch).inScope (by simp))
  | .ifStmt _ condition thenBranch (some elseBranch) => by
    have hthen := (meets_body env.nested thenBranch).inScope (by simp)
    have helse := (meets_body env.nested elseBranch).inScope (by simp)
    rw [Stmt.actions, Stmt.uses, List.flatMap_append]
    exact ((meets_expr env condition).append hthen).append helse
  | .whileStmt _ condition body => by
    rw [Stmt.actions, Stmt.uses]
    exact (meets_expr env condition).append ((meets_body env.nested body).inScope (by simp))
  | .forStmt _ init condition update body => by
    let covered := init.foldl after env.nested
    have hbody := (meets_body covered.nested body).inScope (by simp)
    have hhead := ((meets_body env.nested init).append
      (meets_evaluateAll covered condition.toList)).append (meets_evaluateAll covered update)
    have hloop := hhead.append hbody
    rw [Stmt.actions, Stmt.uses]
    simp only [← List.flatMap_append] at hloop
    exact hloop.inScope (by simp [covered])
  | .forEachStmt _ var iterated body => by
    have hbody := (meets_body (env.nested.declare var).nested body).inScope (by simp)
    have hloop := (meets_declare env.nested .loopVar var).append hbody
    rw [← List.flatMap_cons] at hloop
    rw [Stmt.actions, Stmt.uses, List.append_assoc]
    exact (meets_expr env iterated).append (hloop.inScope (by simp))
  | .tryStmt _ resources body catches none => by
    have hbody := (meets_body (resources.foldl declare env.nested).nested body).inScope (by simp)
    rw [Stmt.actions, Stmt.uses, List.flatMap_append]
    exact hbody.inTry.append (meets_catches env catches)
  | .tryStmt _ resources body catches (some finallyBlock) => by
    have hbody := (meets_body (resources.foldl declare env.nested).nested body).inScope (by simp)
    have hfinally := (meets_body env.nested finallyBlock).inScope (by simp)
    rw [Stmt.actions, Stmt.uses, List.flatMap_append, List.flatMap_append]
    exact (hbody.inTry.append (meets_catches env catches)).append hfinally
  | .throwStmt _ value => by
    simpa [Stmt.actions, Stmt.uses, Action.steps, after] using meets_expr env value
  | .breakStmt _ => by
    rw [Stmt.actions, Stmt.uses]
    exact .nil env
  | .continueStmt _ => by
    rw [Stmt.actions, Stmt.uses]
    exact .nil env

theorem meets_body (env : Env) : (body : List Stmt) →
    env.Meets ((actionsOf body).flatMap Action.steps) (usesOf env body) (body.foldl after env)
  | [] => by
    rw [actionsOf, usesOf]
    exact .nil env
  | s :: rest => by
    rw [actionsOf, List.flatMap_append, usesOf]
    exact (meets_stmt env s).append (meets_body (env.after s) rest)

theorem meets_catches (env : Env) : (catches : List CatchClause) →
    env.Meets ((actionsOfCatches catches).flatMap Action.steps) (usesOfCatches env catches) env
  | [] => by
    rw [actionsOfCatches, usesOfCatches]
    exact .nil env
  | .mk param body :: rest => by
    have hcatch := (meets_declare env.nested .catchParam param).append
      (meets_body (env.nested.declare param) body)
    rw [← List.flatMap_cons] at hcatch
    rw [actionsOfCatches, List.flatMap_append, usesOfCatches]
    exact (hcatch.inScope (by simp)).append (meets_catches env rest)

end

/-! ## Classes -/

theorem meets_params (env : Env) (kind : SymbolKind) (vs : List VarDecl) :
    env.Meets (vs.map (.declare kind)) [] (vs.foldl declare env) := by
  induction vs generalizing env with
  | nil => exact .nil env
  | cons v rest ih => exact .silent rfl (ih (env.declare v))

theorem meets_method (env : Env) (m : MethodDecl) : env.Meets m.steps (m.uses env) env := by
  unfold MethodDecl.steps MethodDecl.uses
  cases m.body with
  | none => exact .nil env
  | some body =>
    have hall := (meets_params env.nested .parameter m.params).append
      (meets_body (m.params.foldl declare env.nested) body)
    exact Meets.scope rfl hall (by simp)

mutual

theorem meets_class (env : Env) : (c : ClassDecl) → env.Meets c.steps (c.uses env) env
  | ⟨site, name, fields, methods, nested⟩ => by
    let inside := fields.foldl declare env.nested
    have hfields : inside.Meets ((fields.flatMap (·.init.toList)).flatMap Expr.steps)
        (fields.flatMap (VarDecl.uses inside)) inside := by
      rw [List.flatMap_assoc]
      exact .flatMap fun v _ => meets_exprs inside v.init.toList
    have hmethods := Meets.flatMap fun (m : MethodDecl) (_ : m ∈ methods) => meets_method inside m
    have hall := (hfields.append hmethods).append (meets_classes inside nested)
    rw [ClassDecl.steps, ClassDecl.uses]
    exact Meets.scope rfl hall (by simp [inside])

theorem meets_classes (env : Env) : (cs : List ClassDecl) →
    env.Meets (ClassDecl.stepsOf cs) (ClassDecl.usesOf env cs) env
  | [] => by
    rw [ClassDecl.stepsOf, ClassDecl.usesOf]
    exact .nil env
  | c :: cs => by
    rw [ClassDecl.stepsOf, ClassDecl.usesOf]
    exact (meets_class env c).append (meets_classes env cs)

end

end Env

/-- Going through a unit meets its identifiers in the environments of lexical scope. -/
theorem CompilationUnit.usesAlong_steps (u : CompilationUnit) :
    Env.usesAlong [] (ClassDecl.stepsOf u.classes) = u.uses :=
  (Env.meets_classes [] u.classes).uses

end HandleLint
