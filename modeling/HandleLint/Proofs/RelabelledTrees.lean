import HandleLint.Names.TypeNames
import HandleLint.Proofs.Occurrence
import HandleLint.Proofs.ResolverSteps
import Mathlib.Data.List.Basic

/-!
# Trees with other labels

The nodes of a tree carry numbers, and some of them carry the name of a variable. Replacing these
labels, each by one that may depend on the node, changes nothing else about the tree: whatever goes
through a tree meets the same things in the same order, under their new labels.

* `Relabelling`: the new labels;
* `Expr.relabel`, `Stmt.relabel`, `ClassDecl.relabel`: the tree with other labels;
* `Expr.postorder_relabel`, `eventsOf_relabel`, `ClassDecl.stepsOf_relabel`: the passes over a tree;
* `CompilationUnit.allMethods_relabel`, `TypeNames.ofUnit_relabel`: the methods and the type names
  of a unit;
* `MethodDecl.relabel_self`: keeping the labels keeps the tree.
-/

namespace HandleLint

open HandleLint.Resolver (Step)
open HandleLint.Action (inScope evaluateAll)

/-! ## Numbers -/

section Numbers

variable (f : NodeId → NodeId)

def Site.renumber (s : Site) : Site :=
  { s with id := f s.id }

def SymbolKind.renumber : SymbolKind → SymbolKind
  | .field owner => .field (f owner)
  | .method owner arity => .method (f owner) arity
  | kind => kind

def Symbol.renumber (s : Symbol) : Symbol :=
  { s with kind := s.kind.renumber f, site := s.site.renumber f }

end Numbers

section Keeping

variable {f : NodeId → NodeId}

theorem SymbolKind.renumber_self (h : ∀ i, f i = i) (kind : SymbolKind) :
    kind.renumber f = kind := by
  cases kind with
  | field owner => rw [renumber, h]
  | method owner arity => rw [renumber, h]
  | _ => rfl

theorem Symbol.renumber_self (h : ∀ i, f i = i) (s : Symbol) : s.renumber f = s := by
  rw [renumber, SymbolKind.renumber_self h, Site.renumber, h]

end Keeping

/-! ## Trees -/

/-- Other labels for the nodes of a tree: another number for each, another name for the identifier
at a node, and another name for the variable that a node declares. -/
structure Relabelling where
  node : NodeId → NodeId := fun i => i
  ident : NodeId → String → String := fun _ name => name
  var : NodeId → String → String := fun _ name => name

variable (ρ : Relabelling)

namespace Expr

mutual

/-- The expression with other labels. -/
def relabel : Expr → Expr
  | .null s => .null (s.renumber ρ.node)
  | .bool s b => .bool (s.renumber ρ.node) b
  | .int s n => .int (s.renumber ρ.node) n
  | .string s value => .string (s.renumber ρ.node) value
  | .ident s name => .ident (s.renumber ρ.node) (ρ.ident s.id name)
  | .this s => .this (s.renumber ρ.node)
  | .field s object name => .field (s.renumber ρ.node) (relabel object) name
  | .call s none method args => .call (s.renumber ρ.node) none method (relabelAll args)
  | .call s (some receiver) method args =>
    .call (s.renumber ρ.node) (some (relabel receiver)) method (relabelAll args)
  | .new s type args => .new (s.renumber ρ.node) type (relabelAll args)
  | .assign s target value => .assign (s.renumber ρ.node) (relabel target) (relabel value)
  | .binary s op left right => .binary (s.renumber ρ.node) op (relabel left) (relabel right)
  | .unary s op operand => .unary (s.renumber ρ.node) op (relabel operand)
  | .conditional s condition whenTrue whenFalse =>
    .conditional (s.renumber ρ.node) (relabel condition) (relabel whenTrue) (relabel whenFalse)
  | .cast s type operand => .cast (s.renumber ρ.node) type (relabel operand)
  | .instanceOf s operand type => .instanceOf (s.renumber ρ.node) (relabel operand) type
  | .index s array position => .index (s.renumber ρ.node) (relabel array) (relabel position)

def relabelAll : List Expr → List Expr
  | [] => []
  | e :: es => relabel e :: relabelAll es

end

end Expr

def VarDecl.relabel (v : VarDecl) : VarDecl :=
  { v with
    site := v.site.renumber ρ.node
    name := ρ.var v.id v.name
    init := v.init.map (Expr.relabel ρ) }

namespace Stmt

mutual

/-- The statement with other labels. -/
def relabel : Stmt → Stmt
  | .exprStmt s value => .exprStmt (s.renumber ρ.node) (value.relabel ρ)
  | .localVar s var => .localVar (s.renumber ρ.node) (var.relabel ρ)
  | .returnStmt s value => .returnStmt (s.renumber ρ.node) (value.map (Expr.relabel ρ))
  | .block s body => .block (s.renumber ρ.node) (relabelAll body)
  | .ifStmt s condition thenBranch none =>
    .ifStmt (s.renumber ρ.node) (condition.relabel ρ) (relabelAll thenBranch) none
  | .ifStmt s condition thenBranch (some elseBranch) =>
    .ifStmt (s.renumber ρ.node) (condition.relabel ρ) (relabelAll thenBranch)
      (some (relabelAll elseBranch))
  | .whileStmt s condition body =>
    .whileStmt (s.renumber ρ.node) (condition.relabel ρ) (relabelAll body)
  | .forStmt s init condition update body =>
    .forStmt (s.renumber ρ.node) (relabelAll init) (condition.map (Expr.relabel ρ))
      (update.map (Expr.relabel ρ)) (relabelAll body)
  | .forEachStmt s var iterated body =>
    .forEachStmt (s.renumber ρ.node) (var.relabel ρ) (iterated.relabel ρ) (relabelAll body)
  | .tryStmt s resources body catches none =>
    .tryStmt (s.renumber ρ.node) (resources.map (VarDecl.relabel ρ)) (relabelAll body)
      (relabelCatches catches) none
  | .tryStmt s resources body catches (some finallyBlock) =>
    .tryStmt (s.renumber ρ.node) (resources.map (VarDecl.relabel ρ)) (relabelAll body)
      (relabelCatches catches) (some (relabelAll finallyBlock))
  | .throwStmt s value => .throwStmt (s.renumber ρ.node) (value.relabel ρ)
  | .breakStmt s => .breakStmt (s.renumber ρ.node)
  | .continueStmt s => .continueStmt (s.renumber ρ.node)

def relabelAll : List Stmt → List Stmt
  | [] => []
  | s :: rest => relabel s :: relabelAll rest

def relabelCatches : List CatchClause → List CatchClause
  | [] => []
  | .mk param body :: rest => .mk (param.relabel ρ) (relabelAll body) :: relabelCatches rest

end

end Stmt

def MethodDecl.relabel (m : MethodDecl) : MethodDecl :=
  { m with
    site := m.site.renumber ρ.node
    params := m.params.map (VarDecl.relabel ρ)
    body := m.body.map (Stmt.relabelAll ρ) }

namespace ClassDecl

mutual

/-- The class with other labels. -/
def relabel : ClassDecl → ClassDecl
  | ⟨s, name, fields, methods, nested⟩ =>
    ⟨s.renumber ρ.node, name, fields.map (VarDecl.relabel ρ), methods.map (MethodDecl.relabel ρ),
      relabelAll nested⟩

def relabelAll : List ClassDecl → List ClassDecl
  | [] => []
  | c :: cs => relabel c :: relabelAll cs

end

end ClassDecl

def CompilationUnit.relabel (u : CompilationUnit) : CompilationUnit :=
  { u with classes := ClassDecl.relabelAll ρ u.classes }

def BindTarget.relabel : BindTarget → BindTarget
  | .declared v => .declared (v.relabel ρ)
  | .assigned target => .assigned (target.relabel ρ)

def Event.relabel : Event → Event
  | .bind target value => .bind (target.relabel ρ) (value.relabel ρ)
  | .returned value => .returned (value.relabel ρ)
  | .call site receiver method args =>
    .call (site.renumber ρ.node) (receiver.map (Expr.relabel ρ)) method (args.map (Expr.relabel ρ))

def Action.relabel : Action → Action
  | .enter => .enter
  | .leave => .leave
  | .evaluate e => .evaluate (e.relabel ρ)
  | .declare origin v => .declare origin (v.relabel ρ)

def Resolver.Step.relabel : Step → Step
  | .openClass c => .openClass (c.relabel ρ)
  | .openMethod m => .openMethod (m.relabel ρ)
  | .openBlock => .openBlock
  | .leave => .leave
  | .visit e => .visit (e.relabel ρ)
  | .declare kind v => .declare (kind.renumber ρ.node) (v.relabel ρ)

/-! ## Expressions -/

/-- What is gathered from elements one by one is relabelled with them. -/
theorem flatMap_relabel {α β : Type} {gather : α → List β} {g : α → α} {h : β → β} {as : List α}
    (hgather : ∀ a ∈ as, gather (g a) = (gather a).map h) :
    (as.map g).flatMap gather = (as.flatMap gather).map h := by
  rw [List.flatMap_map, List.map_flatMap]
  exact List.flatMap_congr hgather

namespace Expr

theorem relabelAll_eq_map (es : List Expr) : relabelAll ρ es = es.map (relabel ρ) := by
  induction es with
  | nil => rw [relabelAll, List.map_nil]
  | cons e es ih => rw [relabelAll, ih, List.map_cons]

theorem relabel_call (s : Site) (receiver : Option Expr) (method : String) (args : List Expr) :
    (call s receiver method args).relabel ρ =
      call (s.renumber ρ.node) (receiver.map (relabel ρ)) method (args.map (relabel ρ)) := by
  cases receiver <;> simp [relabel, relabelAll_eq_map]

@[simp] theorem isThis_relabel (e : Expr) : (e.relabel ρ).isThis = e.isThis := by
  cases e with
  | call s receiver method args =>
    rw [relabel_call]
    rfl
  | _ => rfl

theorem parts_relabel (e : Expr) : (e.relabel ρ).parts = e.parts.map (relabel ρ) := by
  cases e with
  | call s receiver method args =>
    cases receiver <;> simp [relabel_call, parts]
  | _ => simp [relabel, parts, relabelAll_eq_map]

theorem postorder_relabel (e : Expr) :
    (e.relabel ρ).postorder = e.postorder.map (relabel ρ) := by
  induction e using induction_parts with
  | step e ih =>
    rw [postorder_eq_concat, postorder_eq_concat, parts_relabel, flatMap_relabel ih,
      List.map_append]
    rfl

theorem preorder_relabel (e : Expr) : (e.relabel ρ).preorder = e.preorder.map (relabel ρ) := by
  induction e using induction_parts with
  | step e ih =>
    rw [preorder_eq_cons, preorder_eq_cons, parts_relabel, flatMap_relabel ih, List.map_cons]

theorem ownEvent?_relabel (e : Expr) :
    (e.relabel ρ).ownEvent? = e.ownEvent?.map (Event.relabel ρ) := by
  cases e with
  | call s receiver method args =>
    rw [relabel_call]
    rfl
  | _ => rfl

theorem events_relabel (e : Expr) : (e.relabel ρ).events = e.events.map (Event.relabel ρ) := by
  rw [events, preorder_relabel, List.filterMap_map, events, List.map_filterMap]
  exact List.filterMap_congr fun x _ => ownEvent?_relabel ρ x

theorem steps_relabel (e : Expr) : (e.relabel ρ).steps = e.steps.map (Step.relabel ρ) := by
  rw [steps, postorder_relabel, steps, List.map_map, List.map_map]
  rfl

end Expr

/-! ## Bodies -/

theorem VarDecl.events_relabel (v : VarDecl) :
    (v.relabel ρ).events = v.events.map (Event.relabel ρ) := by
  obtain ⟨site, name, type, init⟩ := v
  cases init with
  | none => rfl
  | some value =>
    simp only [VarDecl.events, VarDecl.relabel, Option.map_some, Expr.events_relabel]
    rfl

theorem flatMap_events_relabel (es : List Expr) :
    (es.map (Expr.relabel ρ)).flatMap Expr.events =
      (es.flatMap Expr.events).map (Event.relabel ρ) :=
  flatMap_relabel fun e _ => e.events_relabel ρ

theorem ResourceLists.events_relabel (lists : ResourceLists) (resources : List VarDecl) :
    lists.events (resources.map (VarDecl.relabel ρ)) =
      (lists.events resources).map (Event.relabel ρ) := by
  cases lists with
  | skip => rfl
  | visit => exact flatMap_relabel fun v _ => v.events_relabel ρ

mutual

theorem Stmt.events_relabel (lists : ResourceLists) : (s : Stmt) →
    (s.relabel ρ).events lists = (s.events lists).map (Event.relabel ρ)
  | .exprStmt _ value => value.events_relabel ρ
  | .localVar _ var => var.events_relabel ρ
  | .returnStmt _ none => rfl
  | .returnStmt _ (some value) => congrArg (_ :: ·) (value.events_relabel ρ)
  | .block _ body => eventsOf_relabel lists body
  | .ifStmt _ condition thenBranch none => by
    simp only [Stmt.relabel, Stmt.events, List.map_append, Expr.events_relabel,
      eventsOf_relabel lists thenBranch]
  | .ifStmt _ condition thenBranch (some elseBranch) => by
    simp only [Stmt.relabel, Stmt.events, List.map_append, Expr.events_relabel,
      eventsOf_relabel lists thenBranch, eventsOf_relabel lists elseBranch]
  | .whileStmt _ condition body => by
    simp only [Stmt.relabel, Stmt.events, List.map_append, Expr.events_relabel,
      eventsOf_relabel lists body]
  | .forStmt _ init condition update body => by
    simp only [Stmt.relabel, Stmt.events, List.map_append, Option.toList_map,
      flatMap_events_relabel, eventsOf_relabel lists init, eventsOf_relabel lists body]
  | .forEachStmt _ var iterated body => by
    simp only [Stmt.relabel, Stmt.events, List.map_append, VarDecl.events_relabel,
      Expr.events_relabel, eventsOf_relabel lists body]
  | .tryStmt _ resources body catches none => by
    simp only [Stmt.relabel, Stmt.events, List.map_append, ResourceLists.events_relabel,
      eventsOf_relabel lists body, eventsOfCatches_relabel lists catches]
  | .tryStmt _ resources body catches (some finallyBlock) => by
    simp only [Stmt.relabel, Stmt.events, List.map_append, ResourceLists.events_relabel,
      eventsOf_relabel lists body, eventsOfCatches_relabel lists catches,
      eventsOf_relabel lists finallyBlock]
  | .throwStmt _ value => value.events_relabel ρ
  | .breakStmt _ => rfl
  | .continueStmt _ => rfl

/-- The events of a body are relabelled with it. -/
theorem eventsOf_relabel (lists : ResourceLists) : (body : List Stmt) →
    eventsOf lists (Stmt.relabelAll ρ body) = (eventsOf lists body).map (Event.relabel ρ)
  | [] => rfl
  | s :: rest => by
    simp only [Stmt.relabelAll, eventsOf, List.map_append, Stmt.events_relabel lists s,
      eventsOf_relabel lists rest]

theorem eventsOfCatches_relabel (lists : ResourceLists) : (catches : List CatchClause) →
    eventsOfCatches lists (Stmt.relabelCatches ρ catches) =
      (eventsOfCatches lists catches).map (Event.relabel ρ)
  | [] => rfl
  | .mk _ body :: rest => by
    simp only [Stmt.relabelCatches, eventsOfCatches, List.map_append, eventsOf_relabel lists body,
      eventsOfCatches_relabel lists rest]

end

theorem Action.inScope_relabel (actions : List Action) :
    inScope (actions.map (Action.relabel ρ)) = (inScope actions).map (Action.relabel ρ) := by
  simp [inScope, Action.relabel]

theorem Action.evaluateAll_relabel (values : List Expr) :
    evaluateAll (values.map (Expr.relabel ρ)) = (evaluateAll values).map (Action.relabel ρ) := by
  rw [evaluateAll, evaluateAll, List.map_map, List.map_map]
  rfl

theorem Action.map_declare_relabel (origin : VarOrigin) (vs : List VarDecl) :
    (vs.map (VarDecl.relabel ρ)).map (Action.declare origin) =
      (vs.map (Action.declare origin)).map (Action.relabel ρ) := by
  rw [List.map_map, List.map_map]
  rfl

mutual

theorem Stmt.actions_relabel : (s : Stmt) →
    (s.relabel ρ).actions = s.actions.map (Action.relabel ρ)
  | .exprStmt _ value => rfl
  | .localVar _ var => rfl
  | .returnStmt _ none => rfl
  | .returnStmt _ (some value) => rfl
  | .block _ body => by
    simp only [Stmt.relabel, Stmt.actions, ← Action.inScope_relabel, actionsOf_relabel body]
  | .ifStmt _ condition thenBranch none => by
    simp only [Stmt.relabel, Stmt.actions, List.map_cons, ← Action.inScope_relabel,
      actionsOf_relabel thenBranch, Action.relabel]
  | .ifStmt _ condition thenBranch (some elseBranch) => by
    simp only [Stmt.relabel, Stmt.actions, List.map_append, List.map_cons,
      ← Action.inScope_relabel, actionsOf_relabel thenBranch, actionsOf_relabel elseBranch,
      Action.relabel]
  | .whileStmt _ condition body => by
    simp only [Stmt.relabel, Stmt.actions, List.map_cons, ← Action.inScope_relabel,
      actionsOf_relabel body, Action.relabel]
  | .forStmt _ init condition update body => by
    simp only [Stmt.relabel, Stmt.actions, List.map_append, ← Action.inScope_relabel,
      Option.toList_map, Action.evaluateAll_relabel, actionsOf_relabel init,
      actionsOf_relabel body]
  | .forEachStmt _ var iterated body => by
    simp only [Stmt.relabel, Stmt.actions, List.map_cons, ← Action.inScope_relabel,
      actionsOf_relabel body, Action.relabel]
  | .tryStmt _ resources body catches none => by
    simp only [Stmt.relabel, Stmt.actions, List.map_append, ← Action.inScope_relabel,
      Action.map_declare_relabel, actionsOf_relabel body, actionsOfCatches_relabel catches]
  | .tryStmt _ resources body catches (some finallyBlock) => by
    simp only [Stmt.relabel, Stmt.actions, List.map_append, ← Action.inScope_relabel,
      Action.map_declare_relabel, actionsOf_relabel body, actionsOfCatches_relabel catches,
      actionsOf_relabel finallyBlock]
  | .throwStmt _ value => rfl
  | .breakStmt _ => rfl
  | .continueStmt _ => rfl

theorem actionsOf_relabel : (body : List Stmt) →
    actionsOf (Stmt.relabelAll ρ body) = (actionsOf body).map (Action.relabel ρ)
  | [] => rfl
  | s :: rest => by
    simp only [Stmt.relabelAll, actionsOf, List.map_append, Stmt.actions_relabel s,
      actionsOf_relabel rest]

theorem actionsOfCatches_relabel : (catches : List CatchClause) →
    actionsOfCatches (Stmt.relabelCatches ρ catches) =
      (actionsOfCatches catches).map (Action.relabel ρ)
  | [] => rfl
  | .mk _ body :: rest => by
    simp only [Stmt.relabelCatches, actionsOfCatches, List.map_append, List.map_cons,
      ← Action.inScope_relabel, actionsOf_relabel body, actionsOfCatches_relabel rest,
      Action.relabel]

end

/-! ## Steps -/

theorem Expr.flatMap_steps_relabel (es : List Expr) :
    (es.map (Expr.relabel ρ)).flatMap Expr.steps = (es.flatMap Expr.steps).map (Step.relabel ρ) :=
  flatMap_relabel fun e _ => e.steps_relabel ρ

theorem Action.steps_relabel (a : Action) :
    (a.relabel ρ).steps = a.steps.map (Step.relabel ρ) := by
  cases a with
  | enter => rfl
  | leave => rfl
  | evaluate e => exact e.steps_relabel ρ
  | declare origin v =>
    simp only [Action.relabel, Action.steps, List.map_append, VarDecl.relabel, Option.toList_map,
      Expr.flatMap_steps_relabel]
    rfl

theorem MethodDecl.steps_relabel (m : MethodDecl) :
    (m.relabel ρ).steps = m.steps.map (Step.relabel ρ) := by
  obtain ⟨site, name, params, returnType, body⟩ := m
  cases body with
  | none => rfl
  | some body =>
    have hparams : (params.map (VarDecl.relabel ρ)).map (Step.declare .parameter) =
        (params.map (.declare .parameter)).map (Step.relabel ρ) := by
      rw [List.map_map, List.map_map]
      rfl
    simp only [MethodDecl.relabel, MethodDecl.steps, Option.map_some, List.cons_append,
      List.map_cons, List.map_append, hparams, actionsOf_relabel,
      flatMap_relabel fun a (_ : a ∈ actionsOf body) => a.steps_relabel ρ]
    rfl

theorem flatMap_init_relabel (vs : List VarDecl) :
    (vs.map (VarDecl.relabel ρ)).flatMap (·.init.toList) =
      (vs.flatMap (·.init.toList)).map (Expr.relabel ρ) :=
  flatMap_relabel fun _ _ => Option.toList_map

namespace ClassDecl

mutual

theorem steps_relabel : (c : ClassDecl) → (c.relabel ρ).steps = c.steps.map (Step.relabel ρ)
  | ⟨site, name, fields, methods, nested⟩ => by
    simp only [relabel, steps, List.cons_append, List.map_cons, List.map_append,
      flatMap_init_relabel, Expr.flatMap_steps_relabel,
      flatMap_relabel fun m (_ : m ∈ methods) => m.steps_relabel ρ, stepsOf_relabel nested,
      Step.relabel, List.map_nil]

/-- Classes with other labels take the same steps, under the new labels. -/
theorem stepsOf_relabel : (cs : List ClassDecl) →
    stepsOf (relabelAll ρ cs) = (stepsOf cs).map (Step.relabel ρ)
  | [] => rfl
  | c :: cs => by
    simp only [relabelAll, stepsOf, List.map_append, steps_relabel c, stepsOf_relabel cs]

end

mutual

theorem withNested_relabel : (c : ClassDecl) →
    (c.relabel ρ).withNested = c.withNested.map (relabel ρ)
  | ⟨site, name, fields, methods, nested⟩ => by
    simp only [relabel, withNested, List.map_cons, withNestedAll_relabel nested]

theorem withNestedAll_relabel : (cs : List ClassDecl) →
    withNestedAll (relabelAll ρ cs) = (withNestedAll cs).map (relabel ρ)
  | [] => rfl
  | c :: cs => by
    simp only [relabelAll, withNestedAll, List.map_append, withNested_relabel c,
      withNestedAll_relabel cs]

end

@[simp] theorem id_relabel (c : ClassDecl) : (c.relabel ρ).id = ρ.node c.id := by
  cases c
  rfl

theorem methods_relabel (c : ClassDecl) :
    (c.relabel ρ).methods = c.methods.map (MethodDecl.relabel ρ) := by
  cases c
  rfl

theorem fields_relabel (c : ClassDecl) :
    (c.relabel ρ).fields = c.fields.map (VarDecl.relabel ρ) := by
  cases c
  rfl

end ClassDecl

/-! ## Units -/

namespace TypeNames

mutual

theorem classEntriesOf_relabel (outer : Option String) : (c : ClassDecl) →
    classEntriesOf outer (c.relabel ρ) = classEntriesOf outer c
  | ⟨site, name, fields, methods, nested⟩ => by
    simp only [ClassDecl.relabel, classEntriesOf, classEntries_relabel _ nested]

theorem classEntries_relabel (outer : Option String) : (cs : List ClassDecl) →
    classEntries outer (ClassDecl.relabelAll ρ cs) = classEntries outer cs
  | [] => rfl
  | c :: cs => by
    simp only [ClassDecl.relabelAll, classEntries, classEntriesOf_relabel outer c,
      classEntries_relabel outer cs]

end

/-- What types are called does not depend on labels. -/
theorem ofUnit_relabel (u : CompilationUnit) (signatures : Signatures) :
    ofUnit (u.relabel ρ) signatures = ofUnit u signatures := by
  simp only [ofUnit, entries, CompilationUnit.relabel, classEntries_relabel]

end TypeNames

namespace CompilationUnit

theorem allClasses_relabel (u : CompilationUnit) :
    (u.relabel ρ).allClasses = u.allClasses.map (ClassDecl.relabel ρ) :=
  ClassDecl.withNestedAll_relabel ρ u.classes

theorem allMethods_relabel (u : CompilationUnit) :
    (u.relabel ρ).allMethods = u.allMethods.map (MethodDecl.relabel ρ) := by
  rw [allMethods, allClasses_relabel]
  exact flatMap_relabel fun c _ => c.methods_relabel ρ

end CompilationUnit

/-! ## Keeping the labels -/

theorem Option.map_eq_self {α : Type} {g : α → α} (h : ∀ a, g a = a) (o : Option α) :
    o.map g = o := by
  cases o with
  | none => rfl
  | some a => exact congrArg some (h a)

theorem Site.renumber_node_self (s : Site) : s.renumber ({} : Relabelling).node = s :=
  rfl

theorem Expr.relabel_self (e : Expr) : e.relabel {} = e := by
  induction e using Expr.induction_parts with
  | step e ih =>
    -- An expression is its site, its parts and what is not relabelled.
    have hparts : e.parts.map (relabel {}) = e.parts :=
      (List.map_congr_left ih).trans (List.map_id' _)
    have hsite := Site.renumber_node_self
    cases e with
    | call s receiver method args =>
      rw [relabel_call, hsite]
      cases receiver <;> simp_all [parts]
    | _ => simp_all [relabel, parts, relabelAll_eq_map]

theorem VarDecl.relabel_self (v : VarDecl) : v.relabel {} = v := by
  rw [VarDecl.relabel, Option.map_eq_self Expr.relabel_self]
  rfl

mutual

theorem Stmt.relabel_self : (s : Stmt) → s.relabel {} = s
  | .exprStmt s value => by
    rw [Stmt.relabel, s.renumber_node_self, value.relabel_self]
  | .localVar s var => by
    rw [Stmt.relabel, s.renumber_node_self, var.relabel_self]
  | .returnStmt s value => by
    rw [Stmt.relabel, s.renumber_node_self, Option.map_eq_self Expr.relabel_self]
  | .block s body => by
    rw [Stmt.relabel, s.renumber_node_self, Stmt.relabelAll_self body]
  | .ifStmt s condition thenBranch none => by
    rw [Stmt.relabel, s.renumber_node_self, condition.relabel_self, Stmt.relabelAll_self thenBranch]
  | .ifStmt s condition thenBranch (some elseBranch) => by
    rw [Stmt.relabel, s.renumber_node_self, condition.relabel_self,
      Stmt.relabelAll_self thenBranch, Stmt.relabelAll_self elseBranch]
  | .whileStmt s condition body => by
    rw [Stmt.relabel, s.renumber_node_self, condition.relabel_self, Stmt.relabelAll_self body]
  | .forStmt s init condition update body => by
    rw [Stmt.relabel, s.renumber_node_self, Stmt.relabelAll_self init,
      Option.map_eq_self Expr.relabel_self, List.map_id'' Expr.relabel_self,
      Stmt.relabelAll_self body]
  | .forEachStmt s var iterated body => by
    rw [Stmt.relabel, s.renumber_node_self, var.relabel_self, iterated.relabel_self,
      Stmt.relabelAll_self body]
  | .tryStmt s resources body catches none => by
    rw [Stmt.relabel, s.renumber_node_self, List.map_id'' VarDecl.relabel_self,
      Stmt.relabelAll_self body, Stmt.relabelCatches_self catches]
  | .tryStmt s resources body catches (some finallyBlock) => by
    rw [Stmt.relabel, s.renumber_node_self, List.map_id'' VarDecl.relabel_self,
      Stmt.relabelAll_self body, Stmt.relabelCatches_self catches,
      Stmt.relabelAll_self finallyBlock]
  | .throwStmt s value => by
    rw [Stmt.relabel, s.renumber_node_self, value.relabel_self]
  | .breakStmt s => by
    rw [Stmt.relabel, s.renumber_node_self]
  | .continueStmt s => by
    rw [Stmt.relabel, s.renumber_node_self]

theorem Stmt.relabelAll_self : (body : List Stmt) → Stmt.relabelAll {} body = body
  | [] => rfl
  | s :: rest => by
    rw [Stmt.relabelAll, Stmt.relabel_self s, Stmt.relabelAll_self rest]

theorem Stmt.relabelCatches_self : (catches : List CatchClause) →
    Stmt.relabelCatches {} catches = catches
  | [] => rfl
  | .mk param body :: rest => by
    rw [Stmt.relabelCatches, param.relabel_self, Stmt.relabelAll_self body,
      Stmt.relabelCatches_self rest]

end

/-- Where all labels stay as they are, so does the method. -/
theorem MethodDecl.relabel_self (m : MethodDecl) : m.relabel {} = m := by
  rw [MethodDecl.relabel, m.site.renumber_node_self, List.map_id'' VarDecl.relabel_self,
    Option.map_eq_self Stmt.relabelAll_self]

end HandleLint
