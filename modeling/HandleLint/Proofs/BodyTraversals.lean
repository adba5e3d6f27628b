import HandleLint.Proofs.BodyContents

/-!
# Two ways through a body

The pass that gathers events and the pass that resolves names are written apart, go through a body
in different orders and leave out different parts of it. Here is what they have in common, and where
they part:

* `Resolver.recorded`: the calls that resolving writes a target for, in order;
* `placedEventsOf`: the events of a body, each with the place where it arises;
* `traversals_agree`: calls, bindings and returns of a body as the two passes see them.
-/

namespace HandleLint

open HandleLint.Resolver (Step)

/-! ## Kinds of events -/

namespace Event

def isBind : Event → Bool
  | bind .. => true
  | _ => false

def isReturn : Event → Bool
  | returned _ => true
  | _ => false

/-- The call that an event is about. -/
def call? : Event → Option Expr
  | call site receiver method args => some (.call site receiver method args)
  | _ => none

end Event

/-- The event of binding a value by an assignment. -/
def Expr.assignment? : Expr → Option Event
  | .assign _ target value => some (.bind (.assigned target) value)
  | _ => none

theorem Expr.filterMap_call?_events (e : Expr) :
    e.events.filterMap Event.call? = e.preorder.filter Expr.isCall := by
  rw [Expr.events, List.filterMap_filterMap, ← List.filterMap_eq_filter]
  congr 1
  funext x
  cases x <;> rfl

theorem Expr.filter_isBind_events (e : Expr) :
    e.events.filter Event.isBind = e.preorder.filterMap Expr.assignment? := by
  rw [Expr.events, List.filter_filterMap]
  congr 1
  funext x
  cases x <;> rfl

theorem Expr.filter_isReturn_events (e : Expr) : e.events.filter Event.isReturn = [] := by
  rw [Expr.events, List.filter_filterMap, List.filterMap_eq_nil_iff]
  intro x _
  cases x <;> rfl

theorem VarDecl.filter_isReturn_events (v : VarDecl) : v.events.filter Event.isReturn = [] := by
  unfold VarDecl.events
  cases v.init with
  | none => rfl
  | some value => exact value.filter_isReturn_events

/-! ## What stands in a body -/

/-- The expressions that stand in a body, at any depth; the initial values of catch parameters are
left out. -/
def expressionsOf (body : List Stmt) : List Expr :=
  (Stmt.statementsOf body).flatMap fun s => s.expressions.flatMap Expr.postorder

/-- The expressions in the initial values of the catch parameters of a body. -/
def caughtExpressionsOf (body : List Stmt) : List Expr :=
  (Stmt.statementsOf body).flatMap fun s => s.caughtValues.flatMap Expr.postorder

/-- The variables that a body declares, catch parameters left out. -/
def variablesOf (body : List Stmt) : List VarDecl :=
  (Stmt.statementsOf body).flatMap fun s => s.locals ++ s.resources

theorem Stmt.filterMap_call?_ownEvents (s : Stmt) :
    s.ownEvents.filterMap Event.call? =
      (s.expressions.flatMap Expr.preorder).filter Expr.isCall := by
  have hreturned : (s.returnedValues.map Event.returned).filterMap Event.call? = [] := by
    simp [List.filterMap_map, List.filterMap_eq_nil_iff, Event.call?]
  have hbinding : ((s.locals ++ s.resources).filterMap VarDecl.binding?).filterMap Event.call? =
      [] := by
    rw [List.filterMap_filterMap, List.filterMap_eq_nil_iff]
    intro v _
    unfold VarDecl.binding?
    cases v.init <;> rfl
  rw [ownEvents, List.filterMap_append, List.filterMap_append, hreturned, hbinding,
    List.filterMap_flatMap, List.filter_flatMap]
  simp only [Expr.filterMap_call?_events, List.nil_append]

theorem Stmt.filter_isBind_ownEvents (s : Stmt) :
    s.ownEvents.filter Event.isBind =
      (s.locals ++ s.resources).filterMap VarDecl.binding? ++
        (s.expressions.flatMap Expr.preorder).filterMap Expr.assignment? := by
  have hreturned : (s.returnedValues.map Event.returned).filter Event.isBind = [] := by
    simp [List.filter_map, Event.isBind]
  have hbinding : ((s.locals ++ s.resources).filterMap VarDecl.binding?).filter Event.isBind =
      (s.locals ++ s.resources).filterMap VarDecl.binding? := by
    rw [List.filter_filterMap]
    congr 1
    funext v
    unfold VarDecl.binding?
    cases v.init <;> rfl
  rw [ownEvents, List.filter_append, List.filter_append, hreturned, hbinding, List.filter_flatMap,
    List.filterMap_flatMap]
  simp only [Expr.filter_isBind_events, List.nil_append]

/-- Events come in the order that lists an expression before its parts. -/
theorem preorder_perm_expressionsOf (body : List Stmt) :
    ((Stmt.statementsOf body).flatMap fun s => s.expressions.flatMap Expr.preorder).Perm
      (expressionsOf body) :=
  List.Perm.flatMap_left _ fun _ _ => List.Perm.flatMap_left _ fun e _ =>
    e.postorder_perm_preorder.symm

/-- What is resolved in a body is every expression that stands in it, or in the initial value of a
catch parameter. -/
theorem visits_perm_expressionsOf (body : List Stmt) :
    ((actionsOf body).flatMap Action.visits).Perm
      (expressionsOf body ++ caughtExpressionsOf body) := by
  refine (visits_perm body).trans ?_
  simp only [List.flatMap_append]
  exact (List.flatMap_append_perm _ _ _).symm

/-- The calls that the events of a body report are those that stand in it. -/
theorem calls_eventsOf_perm (body : List Stmt) :
    ((eventsOf .visit body).filterMap Event.call?).Perm
      ((expressionsOf body).filter Expr.isCall) := by
  refine ((events_perm body).filterMap Event.call?).trans ?_
  refine .trans (.of_eq ?_) ((preorder_perm_expressionsOf body).filter Expr.isCall)
  rw [List.filterMap_flatMap, List.filter_flatMap]
  simp only [Stmt.filterMap_call?_ownEvents]

/-- The bindings that the events of a body report are its assignments and its variables with an
initial value. -/
theorem bindings_eventsOf_perm (body : List Stmt) :
    ((eventsOf .visit body).filter Event.isBind).Perm
      ((expressionsOf body).filterMap Expr.assignment? ++
        (variablesOf body).filterMap VarDecl.binding?) := by
  refine ((events_perm body).filter Event.isBind).trans ?_
  refine .trans ?_
    (((preorder_perm_expressionsOf body).filterMap Expr.assignment?).append_right _)
  rw [List.filter_flatMap, variablesOf, List.filterMap_flatMap, List.filterMap_flatMap]
  simp only [Stmt.filter_isBind_ownEvents]
  exact (List.flatMap_append_perm _ _ _).symm.trans List.perm_append_comm

/-! ## The calls that are resolved -/

namespace Resolver

variable (voc : Vocabulary)

/-- What a step writes into the table of calls: the call, with its target. -/
def record? (r : Resolver) : Step → Option (Expr × CallTarget)
  | .visit e@(.call site receiver method args) =>
    some (e, (callTarget voc r receiver method args.length site.span).1)
  | _ => none

/-- What steps write into the table of calls, in order. -/
def recorded : Resolver → List Step → List (Expr × CallTarget)
  | _, [] => []
  | r, s :: rest => (record? voc r s).toList ++ recorded (step voc r s) rest

/-- A table of calls with more targets written into it. -/
def writeCalls (calls : Table NodeId CallTarget) (written : List (Expr × CallTarget)) :
    Table NodeId CallTarget :=
  written.foldl (fun calls (call, target) => calls.insert call.id target) calls

theorem calls_step (r : Resolver) (s : Step) :
    (step voc r s).calls = writeCalls r.calls (record? voc r s).toList := by
  cases s with
  | openClass c =>
    obtain ⟨problems, hs⟩ := exists_openClass voc r c
    rw [hs]
    rfl
  | declare kind v =>
    obtain ⟨problems, hs⟩ := exists_declare voc r kind v
    rw [hs]
    rfl
  | visit e =>
    cases e with
    | call site receiver method args =>
      obtain ⟨problems, notes, ht⟩ := exists_callTarget voc r receiver method args.length site.span
      simp only [step, visit, ht]
      rfl
    | ident site name =>
      simp only [step, visit]
      split
      · rfl
      · split <;> rfl
    | field site object name =>
      simp only [step, visit]
      split <;> rfl
    | _ => rfl
  | _ => rfl

/-- The table of calls after steps holds what it held and what the steps wrote, last writes winning,
and nothing else. -/
theorem calls_run (r : Resolver) (steps : List Step) :
    (run voc r steps).calls = writeCalls r.calls (recorded voc r steps) := by
  induction steps generalizing r with
  | nil => rfl
  | cons s rest ih =>
    rw [run_cons, ih, calls_step, recorded]
    exact List.foldl_append.symm

/-- The expression that a step resolves. -/
def Step.expression? : Step → Option Expr
  | .visit e => some e
  | _ => none

theorem map_fst_recorded (r : Resolver) (steps : List Step) :
    (recorded voc r steps).map Prod.fst =
      (steps.filterMap Step.expression?).filter Expr.isCall := by
  induction steps generalizing r with
  | nil => rfl
  | cons s rest ih =>
    rw [recorded, List.map_append, ih]
    cases s with
    | visit e => cases e <;> rfl
    | _ => rfl

end Resolver

theorem Expr.filterMap_expression?_steps (e : Expr) :
    e.steps.filterMap Step.expression? = e.postorder := by
  rw [Expr.steps, List.filterMap_map]
  exact List.filterMap_some

theorem Action.filterMap_expression?_steps (a : Action) :
    a.steps.filterMap Step.expression? = a.visits := by
  cases a with
  | evaluate e => exact e.filterMap_expression?_steps
  | declare origin v =>
    rw [steps, List.filterMap_append, List.filterMap_flatMap]
    simp [Expr.filterMap_expression?_steps, Step.expression?]
  | _ => rfl

/-- The calls that resolving a body writes targets for are those that its events report and those in
the initial values of its catch parameters. -/
theorem recorded_perm (voc : Vocabulary) (r : Resolver) (body : List Stmt) :
    ((Resolver.recorded voc r ((actionsOf body).flatMap Action.steps)).map Prod.fst).Perm
      ((eventsOf .visit body).filterMap Event.call? ++
        (caughtExpressionsOf body).filter Expr.isCall) := by
  have hvisits : ((actionsOf body).flatMap Action.steps).filterMap Step.expression? =
      (actionsOf body).flatMap Action.visits := by
    rw [List.filterMap_flatMap]
    exact congrArg (actionsOf body).flatMap (funext Action.filterMap_expression?_steps)
  rw [Resolver.map_fst_recorded, hvisits]
  refine ((visits_perm_expressionsOf body).filter Expr.isCall).trans ?_
  rw [List.filter_append]
  exact (calls_eventsOf_perm body).symm.append_right _

/-! ## Where events arise -/

/-- Where an event arises: in the resource list of a `try`, or elsewhere in a body. -/
inductive Place
  | resourceList
  | elsewhere
  deriving DecidableEq, Repr

/-- Events that arise at one place. -/
def Place.events (place : Place) (events : List Event) : List (Place × Event) :=
  events.map (place, ·)

open Place (resourceList elsewhere)

mutual

/-- The events of a statement, resource lists read, each with the place where it arises. -/
def Stmt.placedEvents : Stmt → List (Place × Event)
  | .exprStmt _ value => elsewhere.events value.events
  | .localVar _ var => elsewhere.events var.events
  | .returnStmt _ none => []
  | .returnStmt _ (some value) => elsewhere.events (.returned value :: value.events)
  | .block _ body => placedEventsOf body
  | .ifStmt _ condition thenBranch none =>
    elsewhere.events condition.events ++ placedEventsOf thenBranch
  | .ifStmt _ condition thenBranch (some elseBranch) =>
    elsewhere.events condition.events ++ placedEventsOf thenBranch ++ placedEventsOf elseBranch
  | .whileStmt _ condition body => elsewhere.events condition.events ++ placedEventsOf body
  | .forStmt _ init condition update body =>
    placedEventsOf init ++ elsewhere.events (condition.toList.flatMap Expr.events) ++
      elsewhere.events (update.flatMap Expr.events) ++ placedEventsOf body
  | .forEachStmt _ var iterated body =>
    elsewhere.events (var.events ++ iterated.events) ++ placedEventsOf body
  | .tryStmt _ resources body catches none =>
    resourceList.events (resources.flatMap VarDecl.events) ++ placedEventsOf body ++
      placedEventsOfCatches catches
  | .tryStmt _ resources body catches (some finallyBlock) =>
    resourceList.events (resources.flatMap VarDecl.events) ++ placedEventsOf body ++
      placedEventsOfCatches catches ++ placedEventsOf finallyBlock
  | .throwStmt _ value => elsewhere.events value.events
  | .breakStmt _ => []
  | .continueStmt _ => []

def placedEventsOf : List Stmt → List (Place × Event)
  | [] => []
  | s :: rest => s.placedEvents ++ placedEventsOf rest

def placedEventsOfCatches : List CatchClause → List (Place × Event)
  | [] => []
  | .mk _ body :: rest => placedEventsOf body ++ placedEventsOfCatches rest

end

/-- The events that arise at a place, in order. -/
def eventsAt (place : Place) (events : List (Place × Event)) : List Event :=
  (events.filter (·.1 = place)).map Prod.snd

theorem eventsAt_append (place : Place) (events events' : List (Place × Event)) :
    eventsAt place (events ++ events') = eventsAt place events ++ eventsAt place events' := by
  rw [eventsAt, List.filter_append, List.map_append]
  rfl

theorem eventsAt_events (place place' : Place) (events : List Event) :
    eventsAt place (place'.events events) = if place' = place then events else [] := by
  unfold eventsAt Place.events
  by_cases h : place' = place <;> simp [List.filter_map, Function.comp_def, h]

/-- The events in the resource lists of statements, in order. -/
def resourceEventsOf (statements : List Stmt) : List Event :=
  statements.flatMap fun s => s.resources.flatMap VarDecl.events

/-- Events with their places, seen three ways: all of them, those outside of resource lists, and
those in resource lists. -/
structure Arise (placed : List (Place × Event)) (all outside inside : List Event) : Prop where
  all : placed.map Prod.snd = all
  outside : eventsAt elsewhere placed = outside
  inside : eventsAt resourceList placed = inside

namespace Arise

variable {placed placed' : List (Place × Event)}
  {all all' outside outside' inside inside' : List Event}

theorem nil : Arise [] [] [] [] :=
  ⟨rfl, rfl, rfl⟩

theorem append (h : Arise placed all outside inside) (h' : Arise placed' all' outside' inside') :
    Arise (placed ++ placed') (all ++ all') (outside ++ outside') (inside ++ inside') := by
  obtain ⟨rfl, rfl, rfl⟩ := h
  obtain ⟨rfl, rfl, rfl⟩ := h'
  exact ⟨List.map_append, eventsAt_append _ _ _, eventsAt_append _ _ _⟩

theorem map_snd_events (place : Place) (events : List Event) :
    (place.events events).map Prod.snd = events := by
  simp [Place.events, Function.comp_def]

theorem ofElsewhere (events : List Event) : Arise (elsewhere.events events) events events [] :=
  ⟨map_snd_events _ _, eventsAt_events _ _ _, eventsAt_events _ _ _⟩

theorem ofResources (resources : List VarDecl) :
    Arise (resourceList.events (resources.flatMap VarDecl.events))
      (ResourceLists.visit.events resources) (ResourceLists.skip.events resources)
      (resources.flatMap VarDecl.events) :=
  ⟨map_snd_events _ _, eventsAt_events _ _ _, eventsAt_events _ _ _⟩

/-- What is outside of resource lists holds every return. -/
theorem filter_isReturn (h : Arise placed all outside inside)
    (hinside : inside.filter Event.isReturn = []) :
    all.filter Event.isReturn = outside.filter Event.isReturn := by
  obtain ⟨rfl, rfl, rfl⟩ := h
  unfold eventsAt at hinside ⊢
  induction placed with
  | nil => rfl
  | cons event rest ih =>
    obtain ⟨place, event⟩ := event
    cases place with
    | elsewhere =>
      simp only [List.map_cons, List.filter_cons, decide_true, if_true]
      rw [ih (by simpa using hinside)]
    | resourceList =>
      rw [List.filter_cons, decide_eq_true rfl, if_pos rfl, List.map_cons, List.filter_cons]
        at hinside
      by_cases hr : event.isReturn = true
      · rw [if_pos hr] at hinside
        cases hinside
      · rw [if_neg hr] at hinside
        rw [List.map_cons, List.filter_cons, if_neg hr, ih hinside]
        rfl

end Arise

namespace Stmt

mutual

theorem arise : (s : Stmt) →
    Arise s.placedEvents (s.events .visit) (s.events .skip) (resourceEventsOf s.preorder)
  | .exprStmt _ value => by
    simp only [placedEvents, events]
    exact .ofElsewhere value.events
  | .localVar _ var => by
    simp only [placedEvents, events]
    exact .ofElsewhere var.events
  | .returnStmt _ none => by
    simp only [placedEvents, events]
    exact .nil
  | .returnStmt _ (some value) => by
    simp only [placedEvents, events]
    exact .ofElsewhere (.returned value :: value.events)
  | .block _ body => by
    simp only [placedEvents, events, preorder]
    exact arise_body body
  | .ifStmt _ condition thenBranch none => by
    simp only [placedEvents, events, preorder]
    exact (Arise.ofElsewhere condition.events).append (arise_body thenBranch)
  | .ifStmt _ condition thenBranch (some elseBranch) => by
    have h := ((Arise.ofElsewhere condition.events).append (arise_body thenBranch)).append
      (arise_body elseBranch)
    simp only [placedEvents, events, preorder]
    simpa [resourceEventsOf, resources] using h
  | .whileStmt _ condition body => by
    simp only [placedEvents, events, preorder]
    exact (Arise.ofElsewhere condition.events).append (arise_body body)
  | .forStmt _ init condition update body => by
    have h := (((arise_body init).append
      (Arise.ofElsewhere (condition.toList.flatMap Expr.events))).append
      (Arise.ofElsewhere (update.flatMap Expr.events))).append (arise_body body)
    simp only [placedEvents, events, preorder]
    simpa [resourceEventsOf, resources] using h
  | .forEachStmt _ var iterated body => by
    simp only [placedEvents, events, preorder]
    exact (Arise.ofElsewhere (var.events ++ iterated.events)).append (arise_body body)
  | .tryStmt _ resources body catches none => by
    have h := ((Arise.ofResources resources).append (arise_body body)).append
      (arise_catches catches)
    simp only [placedEvents, events, preorder]
    simpa [resourceEventsOf, Stmt.resources] using h
  | .tryStmt _ resources body catches (some finallyBlock) => by
    have h := (((Arise.ofResources resources).append (arise_body body)).append
      (arise_catches catches)).append (arise_body finallyBlock)
    simp only [placedEvents, events, preorder]
    simpa [resourceEventsOf, Stmt.resources] using h
  | .throwStmt _ value => by
    simp only [placedEvents, events]
    exact .ofElsewhere value.events
  | .breakStmt _ => by
    simp only [placedEvents, events]
    exact .nil
  | .continueStmt _ => by
    simp only [placedEvents, events]
    exact .nil

theorem arise_body : (body : List Stmt) →
    Arise (placedEventsOf body) (eventsOf .visit body) (eventsOf .skip body)
      (resourceEventsOf (statementsOf body))
  | [] => by
    simp only [placedEventsOf, eventsOf]
    exact .nil
  | s :: rest => by
    simp only [placedEventsOf, eventsOf, statementsOf]
    rw [resourceEventsOf, List.flatMap_append]
    exact s.arise.append (arise_body rest)

theorem arise_catches : (catches : List CatchClause) →
    Arise (placedEventsOfCatches catches) (eventsOfCatches .visit catches)
      (eventsOfCatches .skip catches) (resourceEventsOf (statementsOfCatches catches))
  | [] => by
    simp only [placedEventsOfCatches, eventsOfCatches]
    exact .nil
  | .mk _ body :: rest => by
    simp only [placedEventsOfCatches, eventsOfCatches, statementsOfCatches]
    rw [resourceEventsOf, List.flatMap_append]
    exact (arise_body body).append (arise_catches rest)

end

end Stmt

/-- Two passes over a body agree on what it contains.
* Resolving a body changes the table of calls by writing a target for each call that its events
  report and for each call in the initial value of a catch parameter, once for each occurrence.
* The events report one binding for each assignment and for each variable with an initial value that
  stands in the body, catch parameters and their initial values left out, and no other binding.
* The events without resource lists are those with resource lists, in order, less the ones that
  arise in a resource list; these are what the resource lists of the statements of the body give.
* No return is lost that way. -/
theorem traversals_agree (voc : Vocabulary) (r : Resolver) (body : List Stmt) :
    let written := Resolver.recorded voc r ((actionsOf body).flatMap Action.steps)
    (((actionsOf body).foldl (Resolver.perform voc) r).calls =
        Resolver.writeCalls r.calls written ∧
      (written.map Prod.fst).Perm
        ((eventsOf .visit body).filterMap Event.call? ++
          (caughtExpressionsOf body).filter Expr.isCall)) ∧
    ((eventsOf .visit body).filter Event.isBind).Perm
      ((expressionsOf body).filterMap Expr.assignment? ++
        (variablesOf body).filterMap VarDecl.binding?) ∧
    (eventsOf .visit body = (placedEventsOf body).map Prod.snd ∧
      eventsOf .skip body = eventsAt elsewhere (placedEventsOf body) ∧
      eventsAt resourceList (placedEventsOf body) =
        resourceEventsOf (Stmt.statementsOf body)) ∧
    (eventsOf .visit body).filter Event.isReturn = (eventsOf .skip body).filter Event.isReturn := by
  intro written
  have harise := Stmt.arise_body body
  refine ⟨⟨?_, recorded_perm voc r body⟩, bindings_eventsOf_perm body,
    ⟨harise.all.symm, harise.outside.symm, harise.inside⟩, harise.filter_isReturn ?_⟩
  · rw [Resolver.foldl_perform_eq_run, Resolver.calls_run]
  · simp [resourceEventsOf, List.filter_flatMap, VarDecl.filter_isReturn_events]

end HandleLint
