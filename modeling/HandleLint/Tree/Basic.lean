import HandleLint.Source.Span

/-!
# Trees of Java source files

The part of a Java source file that the analysis looks at, as a tree. Every node carries its
*site*: the number by which tables refer to it, and its span in the source text.

* `Expr`, `Stmt`, `VarDecl`, `CatchClause`: what a method body is made of;
* `MethodDecl`, `ClassDecl`, `CompilationUnit`: declarations;
* `MethodSignature`, `SourceUnit`: a tree together with what is known of the methods it calls
  elsewhere.

Types are kept as they are written.
-/

namespace HandleLint

/-- The number of a node, by which tables refer to it. -/
abbrev NodeId := UInt32

/-- Where a node stands. -/
structure Site where
  id : NodeId
  span : Span
  deriving DecidableEq, Repr, Inhabited

inductive BinaryOp
  | add | sub | mul | div | rem
  | eq | ne | lt | gt | le | ge
  | and | or
  deriving DecidableEq, Repr

inductive UnaryOp
  | neg | not
  deriving DecidableEq, Repr

inductive Expr
  | null (site : Site)
  | bool (site : Site) (value : Bool)
  | int (site : Site) (value : Int64)
  | string (site : Site) (value : String)
  | ident (site : Site) (name : String)
  | this (site : Site)
  | field (site : Site) (object : Expr) (name : String)
  /-- A call; one without a receiver is a *bare* call. -/
  | call (site : Site) (receiver : Option Expr) (method : String) (args : List Expr)
  | new (site : Site) (type : String) (args : List Expr)
  | assign (site : Site) (target value : Expr)
  | binary (site : Site) (op : BinaryOp) (left right : Expr)
  | unary (site : Site) (op : UnaryOp) (operand : Expr)
  | conditional (site : Site) (condition whenTrue whenFalse : Expr)
  | cast (site : Site) (type : String) (operand : Expr)
  | instanceOf (site : Site) (operand : Expr) (type : String)
  | index (site : Site) (array position : Expr)
  deriving Inhabited

namespace Expr

def site : Expr → Site
  | null s | bool s _ | int s _ | string s _ | ident s _ | this s | field s _ _ | call s _ _ _
  | new s _ _ | assign s _ _ | binary s _ _ _ | unary s _ _ | conditional s _ _ _ | cast s _ _
  | instanceOf s _ _ | index s _ _ => s

def id (e : Expr) : NodeId :=
  e.site.id

/-- Whether this is `this`. -/
def isThis : Expr → Bool
  | this _ => true
  | _ => false

def isCall : Expr → Bool
  | call .. => true
  | _ => false

end Expr

/-- A declared variable: a local, a parameter, a field, a loop variable, a catch parameter or a
resource of a `try`. -/
structure VarDecl where
  site : Site
  name : String
  type : String
  init : Option Expr
  deriving Inhabited

namespace VarDecl

def id (v : VarDecl) : NodeId :=
  v.site.id

def span (v : VarDecl) : Span :=
  v.site.span

end VarDecl

mutual

inductive Stmt
  | exprStmt (site : Site) (value : Expr)
  | localVar (site : Site) (var : VarDecl)
  | returnStmt (site : Site) (value : Option Expr)
  | block (site : Site) (body : List Stmt)
  | ifStmt (site : Site) (condition : Expr) (thenBranch : List Stmt)
      (elseBranch : Option (List Stmt))
  | whileStmt (site : Site) (condition : Expr) (body : List Stmt)
  | forStmt (site : Site) (init : List Stmt) (condition : Option Expr) (update : List Expr)
      (body : List Stmt)
  | forEachStmt (site : Site) (var : VarDecl) (iterated : Expr) (body : List Stmt)
  | tryStmt (site : Site) (resources : List VarDecl) (body : List Stmt) (catches : List CatchClause)
      (finallyBlock : Option (List Stmt))
  | throwStmt (site : Site) (value : Expr)
  | breakStmt (site : Site)
  | continueStmt (site : Site)

inductive CatchClause
  | mk (param : VarDecl) (body : List Stmt)

end

instance : Inhabited Stmt := ⟨.breakStmt default⟩

namespace Stmt

def site : Stmt → Site
  | exprStmt s _ | localVar s _ | returnStmt s _ | block s _ | ifStmt s _ _ _ | whileStmt s _ _
  | forStmt s _ _ _ _ | forEachStmt s _ _ _ | tryStmt s _ _ _ _ | throwStmt s _ | breakStmt s
  | continueStmt s => s

end Stmt

namespace CatchClause

def param : CatchClause → VarDecl
  | mk param _ => param

def body : CatchClause → List Stmt
  | mk _ body => body

end CatchClause

/-- A method or a constructor. Without a body it is abstract. -/
structure MethodDecl where
  site : Site
  name : String
  params : List VarDecl
  /-- The result as written; a constructor has none. -/
  returnType : Option String
  body : Option (List Stmt)
  deriving Inhabited

namespace MethodDecl

def id (m : MethodDecl) : NodeId :=
  m.site.id

def span (m : MethodDecl) : Span :=
  m.site.span

end MethodDecl

/-- A class, an interface or an enumeration, with its member classes. -/
structure ClassDecl where
  site : Site
  name : String
  fields : List VarDecl
  methods : List MethodDecl
  nested : List ClassDecl
  deriving Inhabited

namespace ClassDecl

def id (c : ClassDecl) : NodeId :=
  c.site.id

mutual

/-- A class followed by the classes inside it, outer ones first. -/
def withNested : ClassDecl → List ClassDecl
  | c@⟨_, _, _, _, nested⟩ => c :: withNestedAll nested

def withNestedAll : List ClassDecl → List ClassDecl
  | [] => []
  | c :: cs => withNested c ++ withNestedAll cs

end

end ClassDecl

/-- One source file. An import ends in `.*` when it names a whole package. -/
structure CompilationUnit where
  package : Option String := none
  imports : List String := []
  classes : List ClassDecl := []
  deriving Inhabited

namespace CompilationUnit

/-- Every class of a unit, outer classes before their members. -/
def allClasses (u : CompilationUnit) : List ClassDecl :=
  ClassDecl.withNestedAll u.classes

/-- The methods of every class, in the order of `allClasses`. -/
def allMethods (u : CompilationUnit) : List MethodDecl :=
  u.allClasses.flatMap (·.methods)

end CompilationUnit

/-- What a method declared elsewhere returns: a qualified type, or `void`. -/
structure MethodSignature where
  owner : String
  method : String
  returns : String
  deriving DecidableEq, Repr, Inhabited

/-- A tree with the path and text of its source file, and the signatures of the methods it calls. -/
structure SourceUnit where
  path : String := ""
  source : Option String := none
  unit : CompilationUnit
  signatures : List MethodSignature := []
  deriving Inhabited

end HandleLint
