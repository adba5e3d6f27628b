import HandleLint.Proofs.ResolverSteps
import Mathlib.Data.List.Flatten
import Mathlib.Data.List.Nodup
import Mathlib.Data.List.Perm.Basic

/-!
# The numbers of nodes

Tables refer to nodes by number, so a table says one thing about each node only if no two nodes of a
unit share a number. `CompilationUnit.nodeIds` lists the numbers of all nodes; where it has no
repetitions, no two steps of resolving the unit visit the same node, and no two declarations get
their symbols under the same one:

* `CompilationUnit.nodup_visited`;
* `CompilationUnit.nodup_declared`.
-/

namespace HandleLint

open HandleLint.Resolver (Step)
open HandleLint.Action (inScope evaluateAll)

def Expr.nodeIds (e : Expr) : List NodeId :=
  e.postorder.map Expr.id

def VarDecl.nodeIds (v : VarDecl) : List NodeId :=
  v.init.toList.flatMap Expr.nodeIds ++ [v.id]

mutual

def Stmt.nodeIds : Stmt → List NodeId
  | .exprStmt s value => s.id :: value.nodeIds
  | .localVar s var => s.id :: var.nodeIds
  | .returnStmt s value => s.id :: value.toList.flatMap Expr.nodeIds
  | .block s body => s.id :: nodeIdsOf body
  | .ifStmt s condition thenBranch none => s.id :: (condition.nodeIds ++ nodeIdsOf thenBranch)
  | .ifStmt s condition thenBranch (some elseBranch) =>
    s.id :: (condition.nodeIds ++ nodeIdsOf thenBranch ++ nodeIdsOf elseBranch)
  | .whileStmt s condition body => s.id :: (condition.nodeIds ++ nodeIdsOf body)
  | .forStmt s init condition update body =>
    s.id :: (nodeIdsOf init ++ condition.toList.flatMap Expr.nodeIds ++
      update.flatMap Expr.nodeIds ++ nodeIdsOf body)
  | .forEachStmt s var iterated body =>
    s.id :: (iterated.nodeIds ++ var.nodeIds ++ nodeIdsOf body)
  | .tryStmt s resources body catches none =>
    s.id :: (resources.flatMap VarDecl.nodeIds ++ nodeIdsOf body ++ nodeIdsOfCatches catches)
  | .tryStmt s resources body catches (some finallyBlock) =>
    s.id :: (resources.flatMap VarDecl.nodeIds ++ nodeIdsOf body ++ nodeIdsOfCatches catches ++
      nodeIdsOf finallyBlock)
  | .throwStmt s value => s.id :: value.nodeIds
  | .breakStmt s => [s.id]
  | .continueStmt s => [s.id]

def nodeIdsOf : List Stmt → List NodeId
  | [] => []
  | s :: rest => s.nodeIds ++ nodeIdsOf rest

def nodeIdsOfCatches : List CatchClause → List NodeId
  | [] => []
  | .mk param body :: rest => param.nodeIds ++ nodeIdsOf body ++ nodeIdsOfCatches rest

end

def MethodDecl.nodeIds (m : MethodDecl) : List NodeId :=
  m.id :: (m.params.flatMap VarDecl.nodeIds ++ m.body.toList.flatMap nodeIdsOf)

/-- The numbers of the nodes of a class outside of its member classes. -/
def ClassDecl.nodeIds (c : ClassDecl) : List NodeId :=
  c.id :: (c.fields.flatMap VarDecl.nodeIds ++ c.methods.flatMap MethodDecl.nodeIds)

/-- The numbers of all nodes of a unit. -/
def CompilationUnit.nodeIds (u : CompilationUnit) : List NodeId :=
  u.allClasses.flatMap ClassDecl.nodeIds

/-! ## The numbers that steps use -/

/-- The numbers of the nodes that a step writes about. -/
def Resolver.Step.ids : Step → List NodeId
  | .visit e => [e.id]
  | .declare _ v => [v.id]
  | _ => []

/-- The numbers of the nodes that an action writes about. -/
def Action.ids (a : Action) : List NodeId :=
  a.steps.flatMap Step.ids

theorem Expr.flatMap_ids_steps (e : Expr) : e.steps.flatMap Step.ids = e.nodeIds := by
  rw [steps, List.flatMap_map, nodeIds]
  exact List.map_eq_flatMap.symm

@[simp] theorem Action.ids_enter : Action.enter.ids = [] := rfl

@[simp] theorem Action.ids_leave : Action.leave.ids = [] := rfl

@[simp] theorem Action.ids_evaluate (e : Expr) : (Action.evaluate e).ids = e.nodeIds :=
  e.flatMap_ids_steps

@[simp] theorem Action.ids_declare (origin : VarOrigin) (v : VarDecl) :
    (Action.declare origin v).ids = v.nodeIds := by
  rw [ids, steps, List.flatMap_append, List.flatMap_assoc]
  simp only [Expr.flatMap_ids_steps]
  rfl

@[simp] theorem Action.flatMap_ids_inScope (actions : List Action) :
    (inScope actions).flatMap Action.ids = actions.flatMap Action.ids := by
  simp [inScope]

@[simp] theorem Action.flatMap_ids_evaluateAll (values : List Expr) :
    (evaluateAll values).flatMap Action.ids = values.flatMap Expr.nodeIds := by
  simp [evaluateAll, List.flatMap_map]

namespace Stmt

mutual

/-- The actions of a statement write about nodes of it, in the order in which they are listed. -/
theorem sublist_nodeIds : (s : Stmt) → (s.actions.flatMap Action.ids).Sublist s.nodeIds
  | .exprStmt s value => by
    simp [actions, nodeIds]
  | .localVar s var => by
    simp [actions, nodeIds]
  | .returnStmt s value => by
    simp [actions, nodeIds]
  | .block s body => by
    simpa [actions, nodeIds] using (sublist_nodeIdsOf body).cons s.id
  | .ifStmt s condition thenBranch none => by
    simpa [actions, nodeIds] using
      ((sublist_nodeIdsOf thenBranch).append_left condition.nodeIds).cons s.id
  | .ifStmt s condition thenBranch (some elseBranch) => by
    simpa [actions, nodeIds] using
      (((sublist_nodeIdsOf thenBranch).append (sublist_nodeIdsOf elseBranch)).append_left
        condition.nodeIds).cons s.id
  | .whileStmt s condition body => by
    simpa [actions, nodeIds] using
      ((sublist_nodeIdsOf body).append_left condition.nodeIds).cons s.id
  | .forStmt s init condition update body => by
    have hbody := ((sublist_nodeIdsOf body).append_left (update.flatMap Expr.nodeIds)).append_left
      (condition.toList.flatMap Expr.nodeIds)
    simpa [actions, nodeIds] using ((sublist_nodeIdsOf init).append hbody).cons s.id
  | .forEachStmt s var iterated body => by
    simpa [actions, nodeIds] using
      (((sublist_nodeIdsOf body).append_left var.nodeIds).append_left iterated.nodeIds).cons s.id
  | .tryStmt s resources body catches none => by
    simpa [actions, nodeIds, List.flatMap_map] using
      (((sublist_nodeIdsOf body).append (sublist_nodeIdsOfCatches catches)).append_left
        (resources.flatMap VarDecl.nodeIds)).cons s.id
  | .tryStmt s resources body catches (some finallyBlock) => by
    simpa [actions, nodeIds, List.flatMap_map] using
      (((sublist_nodeIdsOf body).append ((sublist_nodeIdsOfCatches catches).append
        (sublist_nodeIdsOf finallyBlock))).append_left
        (resources.flatMap VarDecl.nodeIds)).cons s.id
  | .throwStmt s value => by
    simp [actions, nodeIds]
  | .breakStmt s => by
    simp [actions, nodeIds]
  | .continueStmt s => by
    simp [actions, nodeIds]

theorem sublist_nodeIdsOf : (body : List Stmt) →
    ((actionsOf body).flatMap Action.ids).Sublist (nodeIdsOf body)
  | [] => by
    simp [actionsOf, nodeIdsOf]
  | s :: rest => by
    rw [actionsOf, List.flatMap_append, nodeIdsOf]
    exact (sublist_nodeIds s).append (sublist_nodeIdsOf rest)

theorem sublist_nodeIdsOfCatches : (catches : List CatchClause) →
    ((actionsOfCatches catches).flatMap Action.ids).Sublist (nodeIdsOfCatches catches)
  | [] => by
    simp [actionsOfCatches, nodeIdsOfCatches]
  | .mk param body :: rest => by
    simpa [actionsOfCatches, nodeIdsOfCatches] using
      ((sublist_nodeIdsOf body).append (sublist_nodeIdsOfCatches rest)).append_left param.nodeIds

end

end Stmt

theorem VarDecl.map_id_sublist (vs : List VarDecl) :
    (vs.map VarDecl.id).Sublist (vs.flatMap VarDecl.nodeIds) := by
  rw [List.map_eq_flatMap]
  exact .flatMap_right vs fun v _ => List.sublist_append_right _ _

theorem MethodDecl.sublist_nodeIds (m : MethodDecl) :
    (m.id :: m.steps.flatMap Step.ids).Sublist m.nodeIds := by
  refine .cons_cons m.id ?_
  unfold steps
  cases m.body with
  | none => exact List.nil_sublist _
  | some body =>
    have hbody : ((actionsOf body).flatMap Action.steps).flatMap Step.ids =
        (actionsOf body).flatMap Action.ids :=
      List.flatMap_assoc
    have hparams : (m.params.map (Step.declare .parameter)).flatMap Step.ids =
        m.params.map VarDecl.id := by
      rw [List.flatMap_map, List.map_eq_flatMap]
      rfl
    simp only [List.flatMap_append, List.flatMap_cons, List.flatMap_nil, hbody, hparams, Step.ids,
      List.nil_append, List.append_nil, Option.toList_some]
    exact (VarDecl.map_id_sublist m.params).append (Stmt.sublist_nodeIdsOf body)

/-- What a step visits, or what it declares, is among the nodes it writes about. -/
theorem Resolver.Step.filterMap_sublist {f : Step → Option NodeId}
    (hf : ∀ s, (f s).toList.Sublist s.ids) (steps : List Step) :
    (steps.filterMap f).Sublist (steps.flatMap Step.ids) := by
  rw [List.filterMap_eq_flatMap_toList]
  exact .flatMap_right steps fun s _ => hf s

theorem Resolver.Step.visited?_sublist (s : Step) : s.visited?.toList.Sublist s.ids := by
  cases s <;> simp [visited?, ids]

theorem Resolver.Step.declared?_sublist (s : Step) : s.declared?.toList.Sublist s.ids := by
  cases s <;> simp [declared?, ids]

/-! ## The numbers that classes use -/

namespace ClassDecl

/-- The numbers of a class and of its members. -/
def memberIds (c : ClassDecl) : List NodeId :=
  c.id :: (c.fields.map VarDecl.id ++ c.methods.map MethodDecl.id)

theorem mem_memberIds_self (c : ClassDecl) : c.id ∈ c.memberIds :=
  List.mem_cons_self

theorem mem_memberIds_of_field {c : ClassDecl} {v : VarDecl} (h : v ∈ c.fields) :
    v.id ∈ c.memberIds :=
  List.mem_cons_of_mem _ (List.mem_append_left _ (List.mem_map_of_mem h))

theorem mem_memberIds_of_method {c : ClassDecl} {m : MethodDecl} (h : m ∈ c.methods) :
    m.id ∈ c.memberIds :=
  List.mem_cons_of_mem _ (List.mem_append_right _ (List.mem_map_of_mem h))

mutual

theorem filterMap_steps {f : Step → Option NodeId} (hopen : ∀ c, f (.openClass c) = none)
    (hleave : f .leave = none) : (c : ClassDecl) →
    c.steps.filterMap f = c.withNested.flatMap (·.ownSteps.filterMap f)
  | ⟨_, _, fields, methods, nested⟩ => by
    rw [steps_eq, withNested, List.flatMap_cons, ← filterMap_stepsOf hopen hleave nested]
    simp [hopen, hleave]

theorem filterMap_stepsOf {f : Step → Option NodeId} (hopen : ∀ c, f (.openClass c) = none)
    (hleave : f .leave = none) : (cs : List ClassDecl) →
    (stepsOf cs).filterMap f = (withNestedAll cs).flatMap (·.ownSteps.filterMap f)
  | [] => rfl
  | c :: cs => by
    rw [stepsOf, withNestedAll, List.filterMap_append, List.flatMap_append,
      filterMap_steps hopen hleave c, filterMap_stepsOf hopen hleave cs]

end

theorem ids_ownSteps_sublist (c : ClassDecl) : (c.ownSteps.flatMap Step.ids).Sublist c.nodeIds := by
  refine .cons _ ?_
  simp only [ownSteps, List.flatMap_append, List.flatMap_assoc, Expr.flatMap_ids_steps]
  refine .append (.flatMap_right _ fun v _ => ?_) (.flatMap_right _ fun m _ => ?_)
  · exact List.sublist_append_left _ _
  · exact (List.sublist_cons_self _ _).trans m.sublist_nodeIds

theorem declared_ownSteps (c : ClassDecl) :
    c.ownSteps.filterMap Step.declared? = c.methods.flatMap (·.steps.filterMap Step.declared?) := by
  have hexpr : ∀ e : Expr, e.steps.filterMap Step.declared? = [] := by
    intro e
    simp [Expr.steps, List.filterMap_map, List.filterMap_eq_nil_iff, Step.declared?]
  simp [ownSteps, List.filterMap_flatMap, hexpr]

/-- What a class declares, all together, up to the order. -/
theorem memberIds_append_perm (c : ClassDecl) :
    (c.memberIds ++ c.ownSteps.filterMap Step.declared?).Perm
      (c.id :: (c.fields.map VarDecl.id ++
        c.methods.flatMap fun m => m.id :: m.steps.filterMap Step.declared?)) := by
  rw [declared_ownSteps, memberIds, List.cons_append, List.append_assoc]
  exact ((List.map_append_flatMap_perm c.methods _ _).append_left _).cons _

theorem declared_sublist (c : ClassDecl) :
    (c.id :: (c.fields.map VarDecl.id ++
      c.methods.flatMap fun m => m.id :: m.steps.filterMap Step.declared?)).Sublist c.nodeIds := by
  refine .cons_cons _ (.append (VarDecl.map_id_sublist c.fields) (.flatMap_right _ fun m _ => ?_))
  exact (Step.filterMap_sublist Step.declared?_sublist m.steps |>.cons_cons m.id).trans
    m.sublist_nodeIds

end ClassDecl

namespace CompilationUnit

variable {u : CompilationUnit}

/-- No expression is visited twice. -/
theorem nodup_visited (h : u.nodeIds.Nodup) :
    ((ClassDecl.stepsOf u.classes).filterMap Step.visited?).Nodup := by
  rw [ClassDecl.filterMap_stepsOf (fun _ => rfl) rfl]
  refine h.sublist (.flatMap_right _ fun c _ => ?_)
  exact (Step.filterMap_sublist Step.visited?_sublist c.ownSteps).trans c.ids_ownSteps_sublist

/-- No two declarations, be it of a class, of a member or of a variable, have the same number. -/
theorem nodup_declared (h : u.nodeIds.Nodup) :
    (u.allClasses.flatMap ClassDecl.memberIds ++
      (ClassDecl.stepsOf u.classes).filterMap Step.declared?).Nodup := by
  rw [ClassDecl.filterMap_stepsOf (fun _ => rfl) rfl]
  refine (List.flatMap_append_perm u.allClasses _ _).nodup_iff.2 ?_
  refine (List.Perm.flatMap_left u.allClasses fun c _ => c.memberIds_append_perm).nodup_iff.2 ?_
  exact h.sublist (.flatMap_right _ fun c _ => c.declared_sublist)

end CompilationUnit

end HandleLint
