import HandleLint.Names.ScopeTree
import HandleLint.Names.TypeNames
import HandleLint.Note
import HandleLint.Resolution.Action
import HandleLint.Resolution.Model
import HandleLint.Tree.Order

/-!
# Resolving names

First every class, field and method of a unit gets its symbol (`Resolver.declareClass`); then the
bodies are gone through in order (`Resolver.resolveClass`), with the scopes around each expression.

* `Resolver.visit`: one expression whose parts are resolved already;
* `Resolver.staticType?`, `Resolver.callTarget`: the type of an expression and what a call calls;
* `Resolver.perform`: one action of a body;
* `resolve`: a whole unit.

Where several classes have one qualified name, it is left open which of them is found under it: that
depends on the order in which they are gone through (`ClassOrder`).
-/

namespace HandleLint

/-- The members of a class, by their symbols, in the order of their declarations. -/
structure ClassMembers where
  name : Option String := none
  fields : List SymbolId := []
  methods : List SymbolId := []
  deriving DecidableEq, Repr, Inhabited

/-- The order in which classes are gone through in search of a name. Nothing else is known of it,
and it may be another one each time that a unit is resolved. -/
structure ClassOrder where
  arrange : List (NodeId × ClassMembers) → List (NodeId × ClassMembers)
  perm : ∀ entries, (arrange entries).Perm entries

namespace ClassOrder

/-- Smaller numbers come first. -/
def increasing : ClassOrder := ⟨fun entries => entries, .refl⟩

/-- Larger numbers come first. -/
def decreasing : ClassOrder := ⟨List.reverse, List.reverse_perm⟩

/-- A class by its qualified name. -/
def find? (order : ClassOrder) (members : Table NodeId ClassMembers) (name : String) :
    Option NodeId :=
  ((order.arrange members.toList).find? fun entry => entry.2.name = some name).map Prod.fst

end ClassOrder

/-- What names are resolved against. -/
structure Vocabulary where
  types : TypeNames
  signatures : Signatures
  order : ClassOrder

/-- The tables filled so far, with the scopes around what is being resolved. -/
structure Resolver extends Model where
  scopes : ScopeTree := {}
  members : Table NodeId ClassMembers := {}
  notes : Array Note := #[]

namespace Resolver

def note (r : Resolver) (n : Note) : Resolver :=
  { r with notes := r.notes.push n }

def report (r : Resolver) (p : Problem) : Resolver :=
  { r with problems := r.problems.push p }

def refer (r : Resolver) (node : NodeId) (symbol : SymbolId) : Resolver :=
  { r with references := r.references.insert node symbol }

def enter (r : Resolver) (kind : ScopeKind) : Resolver :=
  { r with scopes := r.scopes.enter kind }

def leave (r : Resolver) : Resolver :=
  { r with scopes := r.scopes.leave }

/-- Gives a declaration its symbol. -/
def addSymbol (r : Resolver) (name : String) (kind : SymbolKind) (type : Option String)
    (site : Site) : Resolver :=
  { r with
    symbols := r.symbols.insert name kind type site
    declarations := r.declarations.insert site.id r.symbols.next }

/-- Binds a name in the current scope. -/
def bind (r : Resolver) (name : String) (symbol : SymbolId) (span : Span) : Resolver :=
  match r.scopes.define name symbol span with
  | .ok scopes => { r with scopes }
  | .error p => r.report p

/-- Gives a declaration its symbol and binds its name in the current scope. -/
def addBinding (r : Resolver) (v : VarDecl) (kind : SymbolKind) (type : Option String) : Resolver :=
  (r.addSymbol v.name kind type v.site).bind v.name r.symbols.next v.span

/-! ## Declarations of classes -/

/-- The type that a method returns. -/
def returnType? (voc : Vocabulary) (m : MethodDecl) : Option String := do
  let written ← m.returnType
  if written = "void" then none else voc.types.qualify written

def declareField (voc : Vocabulary) (owner : NodeId) (r : Resolver) (v : VarDecl) : Resolver :=
  r.addSymbol v.name (.field owner) (voc.types.qualify v.type) v.site

def declareMethod (voc : Vocabulary) (owner : NodeId) (r : Resolver) (m : MethodDecl) : Resolver :=
  let r' := r.addSymbol m.name (.method owner m.params.length) (returnType? voc m) m.site
  { r' with methods := r'.methods.insert r.symbols.next m }

/-- The numbers of symbols that are declared one after the other. -/
def consecutive (first : SymbolId) (count : Nat) : List SymbolId :=
  List.range' first count

/-- Gives a class and its members their symbols. -/
def declareClass (voc : Vocabulary) (r : Resolver) (c : ClassDecl) : Resolver :=
  let name := voc.types.lookup? c.name
  let r := r.addSymbol c.name .type name c.site
  let firstField := r.symbols.next
  let r := c.fields.foldl (declareField voc c.id) r
  let firstMethod := r.symbols.next
  let r := c.methods.foldl (declareMethod voc c.id) r
  { r with
    members := r.members.insert c.id
      { name
        fields := consecutive firstField c.fields.length
        methods := consecutive firstMethod c.methods.length } }

/-! ## Expressions -/

def classMembers (r : Resolver) (c : NodeId) : ClassMembers :=
  (r.members.get? c).getD {}

/-- Of the symbols that have a name, those in a list. -/
def named (r : Resolver) (name : String) (ids : List SymbolId) : List SymbolId :=
  ids.filter fun id => (r.symbol? id).any (·.name = name)

/-- A method of a class by its name: the first with that many parameters, else the first. -/
def findMethod? (r : Resolver) (c : NodeId) (name : String) (arity : Nat) : Option SymbolId :=
  let candidates := r.named name (r.classMembers c).methods
  match candidates.find? fun id => (r.symbol? id).any (·.kind = .method c arity) with
  | some id => some id
  | none => candidates.head?

/-- A field of the innermost class. -/
def ownField? (r : Resolver) (name : String) : Option SymbolId := do
  let c ← r.scopes.enclosingClasses.head?
  (r.named name (r.classMembers c).fields).head?

/-- A class of the unit by its qualified name. -/
def classNamed? (voc : Vocabulary) (r : Resolver) (name : String) : Option NodeId :=
  voc.order.find? r.members name

/-- The type of an expression whose parts are resolved. An identifier that refers to nothing may
name a type. -/
def staticType? (voc : Vocabulary) (r : Resolver) : Expr → Option String
  | .ident s name =>
    match r.reference? s.id with
    | some id => r.typeOf? id
    | none => voc.types.qualify name
  | .field s _ _ => do r.typeOf? (← r.reference? s.id)
  | .this _ => do (r.classMembers (← r.scopes.enclosingClasses.head?)).name
  | .call s _ _ _ => do (← r.callTarget? s.id).returns
  | .new _ type _ => voc.types.qualify type
  | .cast _ type _ => voc.types.qualify type
  | .string _ _ => some "java.lang.String"
  | .conditional _ _ whenTrue _ => staticType? voc r whenTrue
  | .assign _ target _ => staticType? voc r target
  | _ => none

/-- A method of the classes around, the innermost class that has one of the name. -/
def localMethod? (r : Resolver) (name : String) (arity : Nat) : Option (NodeId × SymbolId) :=
  r.scopes.enclosingClasses.findSome? fun c => (r.findMethod? c name arity).map (c, ·)

/-- What a call on `this`, written or not, calls. -/
def ownTarget (r : Resolver) (method : String) (arity : Nat) (span : Span) :
    CallTarget × Resolver :=
  match r.localMethod? method arity with
  | some (c, callee) =>
    ({ owner := (r.classMembers c).name, returns := r.typeOf? callee, callee := some callee }, r)
  | none =>
    ({}, (r.note (.noLocalMethod method arity)).report ⟨.unknownMethod method arity, span⟩)

/-- What a call on a value of a type calls. -/
def memberTarget (voc : Vocabulary) (r : Resolver) (owner method : String) (arity : Nat) :
    CallTarget × Resolver :=
  match classNamed? voc r owner with
  | some c =>
    let callee := r.findMethod? c method arity
    ({ owner := some owner, returns := callee.bind r.typeOf?, callee }, r)
  | none =>
    match voc.signatures.returns? owner method with
    | some type => ({ owner := some owner, returns := some type }, r)
    | none => ({ owner := some owner }, r.note (.noSignature owner method))

/-- What a call calls, given its receiver. -/
def callTarget (voc : Vocabulary) (r : Resolver) (receiver : Option Expr) (method : String)
    (arity : Nat) (span : Span) : CallTarget × Resolver :=
  match receiver with
  | none => r.ownTarget method arity span
  | some e =>
    if e.isThis then r.ownTarget method arity span
    else
      match staticType? voc r e with
      | none => ({}, r)
      | some owner => memberTarget voc r owner method arity

/-- Resolves an expression whose parts are resolved. -/
def visit (voc : Vocabulary) (r : Resolver) : Expr → Resolver
  | .ident s name =>
    match r.scopes.lookup? name with
    | some id => r.refer s.id id
    | none =>
      if (voc.types.qualify name).isNone then r.report ⟨.undefinedSymbol name, s.span⟩ else r
  | .field s object name =>
    match if object.isThis then r.ownField? name else none with
    | some id => r.refer s.id id
    | none => r
  | .call s receiver method args =>
    let (target, r) := callTarget voc r receiver method args.length s.span
    { r with calls := r.calls.insert s.id target }
  | _ => r

/-- Resolves an expression. -/
def evaluate (voc : Vocabulary) (r : Resolver) (e : Expr) : Resolver :=
  e.postorder.foldl (visit voc) r

/-! ## Bodies -/

/-- Performs one action of a body. -/
def perform (voc : Vocabulary) (r : Resolver) : Action → Resolver
  | .enter => r.enter .block
  | .leave => r.leave
  | .evaluate e => evaluate voc r e
  | .declare origin v =>
    let r := v.init.toList.foldl (evaluate voc) r
    r.addBinding v (.var origin) (voc.types.qualify v.type)

def declareParam (voc : Vocabulary) (r : Resolver) (v : VarDecl) : Resolver :=
  r.addBinding v .parameter (voc.types.qualify v.type)

/-- Resolves the body of a method, if it has one. -/
def resolveMethod (voc : Vocabulary) (r : Resolver) (m : MethodDecl) : Resolver :=
  match m.body, r.declaration? m.id with
  | some body, some symbol =>
    let r := r.enter (.methodBody symbol)
    let r := m.params.foldl (declareParam voc) r
    let r := (actionsOf body).foldl (perform voc) r
    r.leave
  | _, _ => r

/-- Binds the fields of a class. -/
def bindFields (r : Resolver) (c : ClassDecl) : Resolver :=
  (c.fields.zip (r.classMembers c.id).fields).foldl
    (fun r (v, symbol) => r.bind v.name symbol v.span) r

mutual

/-- Resolves the fields, the methods and the member classes of a class. -/
def resolveClass (voc : Vocabulary) (r : Resolver) : ClassDecl → Resolver
  | c@⟨_, _, fields, methods, nested⟩ =>
    let r := r.enter (.classBody c.id)
    let r := r.bindFields c
    let r := (fields.flatMap (·.init.toList)).foldl (evaluate voc) r
    let r := methods.foldl (resolveMethod voc) r
    let r := resolveClasses voc r nested
    r.leave

def resolveClasses (voc : Vocabulary) (r : Resolver) : List ClassDecl → Resolver
  | [] => r
  | c :: cs => resolveClasses voc (resolveClass voc r c) cs

end

end Resolver

/-- The tables of a unit, and the notes taken on the way. -/
structure Resolution where
  model : Model
  notes : Array Note

/-- Resolves the names of a unit. -/
def resolve (order : ClassOrder) (u : CompilationUnit) (signatures : Signatures) : Resolution :=
  let voc : Vocabulary := { types := TypeNames.ofUnit u signatures, signatures, order }
  let r := u.allClasses.foldl (Resolver.declareClass voc) {}
  let r := Resolver.resolveClasses voc r u.classes
  let r := r.note (.resolved r.symbols.size r.calls.size r.problems.size)
  { model := r.toModel, notes := r.notes }

end HandleLint
