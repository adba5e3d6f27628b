import HandleLint.Tree.Basic

/-!
# Assembling trees

Trees without a source text are assembled from the leaves up. An assembly keeps what is built so
far on one stack for each sort; a step takes its parts from there and leaves its result there.
Every node gets the next free number, and as its span the one place at that offset, so nodes are
ordered by creation and a node has a larger number than its parts.

* `Assembly.Step`: what can be done;
* `Assembly.perform`: what a step does, and the site of the node it leaves;
* `Assembly.unit`: the classes that are left, as a unit.
-/

namespace HandleLint

/-- What is built so far, the newest first. -/
structure Assembly where
  /-- How many nodes there are. -/
  next : Nat := 0
  exprs : List Expr := []
  stmts : List Stmt := []
  vars : List VarDecl := []
  catches : List CatchClause := []
  methods : List MethodDecl := []
  classes : List ClassDecl := []

namespace Assembly

/-- One step. Parts are counted where there may be several; of several counts, those named last
are taken first. -/
inductive Step
  | null
  | this
  | ident (name : String)
  | string (value : String)
  | field (name : String)
  | call (method : String) (args : Nat)
  | bareCall (method : String) (args : Nat)
  | new (type : String) (args : Nat)
  | assign
  | binary (op : BinaryOp)
  | conditional
  | var (type name : String) (hasInit : Bool)
  | param (type name : String)
  | method (name : String) (params : Nat) (returnType : Option String) (body : Nat)
  | classDecl (name : String) (fields methods nested : Nat)
  /-- A declaration of a local variable: the variable and the statement. -/
  | localVar (type name : String) (hasInit : Bool)
  | exprStmt
  | throwStmt
  /-- `target = value;`: the identifier, the assignment and the statement. -/
  | assignStmt (target : String)
  /-- `receiver.method();`: the identifier, the call and the statement. -/
  | callStmt (receiver method : String)
  | returnStmt (hasValue : Bool)
  /-- `return name;`: the identifier and the statement. -/
  | returnIdent (name : String)
  | block (body : Nat)
  | ifStmt (thenBranch : Nat) (elseBranch : Option Nat)
  | whileStmt (body : Nat)
  | forEachStmt (body : Nat)
  | tryStmt (resources body catches : Nat) (finallyBlock : Option Nat)
  | catchClause (type name : String) (body : Nat)
  deriving Repr

/-- Work on an assembly, which fails when a part is missing. -/
abbrev Work := StateT Assembly Option

/-- The site of the node with a number. -/
def siteAt (n : Nat) : Site :=
  { id := UInt32.ofNat n, span := { start := UInt64.ofNat n, stop := UInt64.ofNat (n + 1) } }

/-- The newest `n` entries of a stack in the order in which they came, and the stack below. -/
def takeTop? {α : Type} (n : Nat) (stack : List α) : Option (List α × List α) :=
  if n ≤ stack.length then some ((stack.take n).reverse, stack.drop n) else none

/-! ## Parts and results -/

def fresh : Work Site := fun a =>
  some (siteAt a.next, { a with next := a.next + 1 })

def popExpr : Work Expr := fun a =>
  match a.exprs with
  | [] => none
  | e :: exprs => some (e, { a with exprs })

def popExprs (n : Nat) : Work (List Expr) := fun a =>
  (takeTop? n a.exprs).map fun (es, exprs) => (es, { a with exprs })

def popStmts (n : Nat) : Work (List Stmt) := fun a =>
  (takeTop? n a.stmts).map fun (ss, stmts) => (ss, { a with stmts })

def popVar : Work VarDecl := fun a =>
  match a.vars with
  | [] => none
  | v :: vars => some (v, { a with vars })

def popVars (n : Nat) : Work (List VarDecl) := fun a =>
  (takeTop? n a.vars).map fun (vs, vars) => (vs, { a with vars })

def popCatches (n : Nat) : Work (List CatchClause) := fun a =>
  (takeTop? n a.catches).map fun (cs, catches) => (cs, { a with catches })

def popMethods (n : Nat) : Work (List MethodDecl) := fun a =>
  (takeTop? n a.methods).map fun (ms, methods) => (ms, { a with methods })

def popClasses (n : Nat) : Work (List ClassDecl) := fun a =>
  (takeTop? n a.classes).map fun (cs, classes) => (cs, { a with classes })

/-- The part that a step takes if it takes one. -/
def popExprIf (taken : Bool) : Work (Option Expr) := do
  if taken then return some (← popExpr) else return none

/-- The statements that a step takes if it takes some. -/
def popStmtsIf : Option Nat → Work (Option (List Stmt))
  | none => return none
  | some n => do return some (← popStmts n)

def pushExpr (e : Expr) : Work Site := fun a =>
  some (e.site, { a with exprs := e :: a.exprs })

def pushStmt (s : Stmt) : Work Site := fun a =>
  some (s.site, { a with stmts := s :: a.stmts })

def pushVar (v : VarDecl) : Work Site := fun a =>
  some (v.site, { a with vars := v :: a.vars })

def pushCatch (c : CatchClause) : Work Site := fun a =>
  some (c.param.site, { a with catches := c :: a.catches })

def pushMethod (m : MethodDecl) : Work Site := fun a =>
  some (m.site, { a with methods := m :: a.methods })

def pushClass (c : ClassDecl) : Work Site := fun a =>
  some (c.site, { a with classes := c :: a.classes })

/-! ## Steps -/

/-- What a step does, and the site of the node it leaves; for a catch clause it is that of its
parameter. -/
def perform : Step → Work Site
  | .null => do pushExpr (.null (← fresh))
  | .this => do pushExpr (.this (← fresh))
  | .ident name => do pushExpr (.ident (← fresh) name)
  | .string value => do pushExpr (.string (← fresh) value)
  | .field name => do
    let object ← popExpr
    pushExpr (.field (← fresh) object name)
  | .call method n => do
    let args ← popExprs n
    let receiver ← popExpr
    pushExpr (.call (← fresh) (some receiver) method args)
  | .bareCall method n => do
    let args ← popExprs n
    pushExpr (.call (← fresh) none method args)
  | .new type n => do
    let args ← popExprs n
    pushExpr (.new (← fresh) type args)
  | .assign => do
    let value ← popExpr
    let target ← popExpr
    pushExpr (.assign (← fresh) target value)
  | .binary op => do
    let right ← popExpr
    let left ← popExpr
    pushExpr (.binary (← fresh) op left right)
  | .conditional => do
    let whenFalse ← popExpr
    let whenTrue ← popExpr
    let condition ← popExpr
    pushExpr (.conditional (← fresh) condition whenTrue whenFalse)
  | .var type name hasInit => do
    let init ← popExprIf hasInit
    pushVar { site := ← fresh, name, type, init }
  | .param type name => do pushVar { site := ← fresh, name, type, init := none }
  | .method name p returnType b => do
    let params ← popVars p
    let body ← popStmts b
    pushMethod { site := ← fresh, name, params, returnType, body := some body }
  | .classDecl name f m n => do
    let nested ← popClasses n
    let methods ← popMethods m
    let fields ← popVars f
    pushClass { site := ← fresh, name, fields, methods, nested }
  | .localVar type name hasInit => do
    let init ← popExprIf hasInit
    let var : VarDecl := { site := ← fresh, name, type, init }
    pushStmt (.localVar (← fresh) var)
  | .exprStmt => do
    let value ← popExpr
    pushStmt (.exprStmt (← fresh) value)
  | .throwStmt => do
    let value ← popExpr
    pushStmt (.throwStmt (← fresh) value)
  | .assignStmt name => do
    let value ← popExpr
    let target := Expr.ident (← fresh) name
    let assign := Expr.assign (← fresh) target value
    pushStmt (.exprStmt (← fresh) assign)
  | .callStmt name method => do
    let receiver := Expr.ident (← fresh) name
    let call := Expr.call (← fresh) (some receiver) method []
    pushStmt (.exprStmt (← fresh) call)
  | .returnStmt hasValue => do
    let value ← popExprIf hasValue
    pushStmt (.returnStmt (← fresh) value)
  | .returnIdent name => do
    let value := Expr.ident (← fresh) name
    pushStmt (.returnStmt (← fresh) (some value))
  | .block n => do
    let body ← popStmts n
    pushStmt (.block (← fresh) body)
  | .ifStmt t e => do
    let elseBranch ← popStmtsIf e
    let thenBranch ← popStmts t
    let condition ← popExpr
    pushStmt (.ifStmt (← fresh) condition thenBranch elseBranch)
  | .whileStmt n => do
    let body ← popStmts n
    let condition ← popExpr
    pushStmt (.whileStmt (← fresh) condition body)
  | .forEachStmt n => do
    let body ← popStmts n
    let iterated ← popExpr
    let var ← popVar
    pushStmt (.forEachStmt (← fresh) var iterated body)
  | .tryStmt r b c f => do
    let finallyBlock ← popStmtsIf f
    let catches ← popCatches c
    let body ← popStmts b
    let resources ← popVars r
    pushStmt (.tryStmt (← fresh) resources body catches finallyBlock)
  | .catchClause type name n => do
    let body ← popStmts n
    pushCatch (.mk { site := ← fresh, name, type, init := none } body)

/-- The sites that some steps leave one after the other. -/
def performAll (steps : List Step) : Work (List Site) :=
  steps.mapM perform

/-- The classes that are left, as a unit. -/
def unit (a : Assembly) (package : Option String) (imports : List String) : CompilationUnit :=
  { package, imports, classes := a.classes.reverse }

end Assembly

end HandleLint
