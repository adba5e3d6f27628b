import HandleLint.Config.Resource
import HandleLint.Handles.Creation
import HandleLint.Handles.Event
import HandleLint.Resolution.Model

/-!
# Where the handles of a unit come from

A method of a unit that returns a variable may bind that variable to a call of the factory, or to a
call of another such method. This is a graph on the methods of the unit: a *source* of a method is
the factory, or a method that it gets its result from.

* `Watch`: a resolved unit, and the handles that are watched in it;
* `Watch.source?`: what a value comes from, if it may be a handle;
* `Watch.boundLocal?`: the local that a binding writes to;
* `Watch.sources`: the sources of what a method returns.
-/

namespace HandleLint

/-- A resolved unit, and the handles that are watched in it. -/
structure Watch where
  model : Model
  resource : ResourceConfig

namespace Watch

/-- The local that a binding writes to. Resources of a `try` do not count. -/
def boundLocal? (w : Watch) (target : BindTarget) : Option SymbolId := do
  let id ← match target with
    | .declared v => w.model.declaration? v.id
    | .assigned e => w.model.identReference? e
  match (← w.model.symbol? id).kind with
  | .var origin => if origin = .tryResource then none else return id
  | _ => none

/-- Whether a value is a call of the factory that returns a handle. -/
def isFactoryCall (w : Watch) : Expr → Bool
  | .call site _ _ _ =>
    match w.model.callTarget? site.id with
    | some target =>
      target.returns = some w.resource.handleType && target.owner = some w.resource.factoryType
    | none => false
  | _ => false

/-- The method that a bare call calls, if it returns a handle and has a body in the unit. -/
def localHelper? (w : Watch) : Expr → Option SymbolId
  | .call site none _ _ => do
    let target ← w.model.callTarget? site.id
    if target.returns = some w.resource.handleType then
      let callee ← target.callee
      let _ ← w.model.body? callee
      return callee
    else none
  | _ => none

/-- What a value comes from, if it may be a handle. -/
def source? (w : Watch) (value : Expr) : Option Creation :=
  if w.isFactoryCall value then some .factory
  else (w.localHelper? value).map .helper

/-- The variable that is returned first. -/
def returnedVariable? (w : Watch) (body : List Stmt) : Option SymbolId :=
  (eventsOf .visit body).findSome? fun event =>
    match event with
    | .returned value => w.model.identReference? value
    | _ => none

/-- The source of a binding of a variable. -/
def sourceOf? (w : Watch) (variableId : SymbolId) : Event → Option Creation
  | .bind target value => if w.boundLocal? target = some variableId then w.source? value else none
  | _ => none

/-- The sources of what a method returns, in the order of the bindings. -/
def sources (w : Watch) (method : SymbolId) : List Creation :=
  match w.model.body? method with
  | none => []
  | some body =>
    match w.returnedVariable? body with
    | none => []
    | some variableId => (eventsOf .skip body).filterMap (w.sourceOf? variableId)

/-- The methods that have a body. -/
def helpers (w : Watch) : List SymbolId :=
  w.model.methods.keys.filter fun id => (w.model.body? id).isSome

end Watch

end HandleLint
