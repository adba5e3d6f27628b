import HandleLint.Json.Printer
import HandleLint.Tree.Basic

/-!
# Writing unit files

The JSON form of a `SourceUnit` and its parts. Records are objects that hold every field, `null`
standing for what is absent; only a missing source text is left out.
-/

namespace HandleLint

namespace Encode

open Json (text nat record option list)

/-- A form with content: an object with the form's name as only field. -/
def variant (name : String) (content : Json) : Json :=
  record [(name, content)]

def span (s : Span) : Json :=
  record [("start", nat s.start.toNat), ("end", nat s.stop.toNat)]

def nodeId (id : NodeId) : Json :=
  nat id.toNat

/-- A node of a kind. -/
def node (s : Site) (kind : Json) : Json :=
  record [("id", nodeId s.id), ("kind", kind), ("span", span s.span)]

def binaryOp : BinaryOp → Json
  | .add => text "Add"
  | .sub => text "Sub"
  | .mul => text "Mul"
  | .div => text "Div"
  | .rem => text "Rem"
  | .eq => text "Eq"
  | .ne => text "Ne"
  | .lt => text "Lt"
  | .gt => text "Gt"
  | .le => text "Le"
  | .ge => text "Ge"
  | .and => text "And"
  | .or => text "Or"

def unaryOp : UnaryOp → Json
  | .neg => text "Neg"
  | .not => text "Not"

/-! ## Expressions -/

mutual

def expr : Expr → Json
  | .null s => node s (text "Null")
  | .bool s b => node s (variant "Bool" (.bool b))
  | .int s n => node s (variant "Int" (.int n.toInt))
  | .string s value => node s (variant "String" (text value))
  | .ident s name => node s (variant "Ident" (text name))
  | .this s => node s (text "This")
  | .field s object name =>
    node s (variant "Field" (record [("object", expr object), ("field", text name)]))
  | .call s none method args =>
    node s (variant "MethodCall" (record
      [("receiver", .null), ("method", text method), ("args", .array (exprs args))]))
  | .call s (some receiver) method args =>
    node s (variant "MethodCall" (record
      [("receiver", expr receiver), ("method", text method), ("args", .array (exprs args))]))
  | .new s type args =>
    node s (variant "New" (record [("ty", text type), ("args", .array (exprs args))]))
  | .assign s target value =>
    node s (variant "Assign" (record [("target", expr target), ("value", expr value)]))
  | .binary s op left right =>
    node s (variant "Binary" (record
      [("op", binaryOp op), ("left", expr left), ("right", expr right)]))
  | .unary s op operand =>
    node s (variant "Unary" (record [("op", unaryOp op), ("operand", expr operand)]))
  | .conditional s condition whenTrue whenFalse =>
    node s (variant "Conditional" (record
      [("cond", expr condition), ("then_expr", expr whenTrue), ("else_expr", expr whenFalse)]))
  | .cast s type operand =>
    node s (variant "Cast" (record [("ty", text type), ("expr", expr operand)]))
  | .instanceOf s operand type =>
    node s (variant "InstanceOf" (record [("expr", expr operand), ("ty", text type)]))
  | .index s array position =>
    node s (variant "Index" (record [("array", expr array), ("index", expr position)]))

def exprs : List Expr → List Json
  | [] => []
  | e :: es => expr e :: exprs es

end

/-! ## Statements -/

def varDecl (v : VarDecl) : Json :=
  record [("id", nodeId v.id), ("name", text v.name), ("ty", text v.type),
    ("init", option expr v.init), ("span", span v.span)]

mutual

def stmt : Stmt → Json
  | .exprStmt s value => node s (variant "Expr" (expr value))
  | .localVar s var => node s (variant "Local" (varDecl var))
  | .returnStmt s value => node s (variant "Return" (option expr value))
  | .block s body => node s (variant "Block" (.array (stmts body)))
  | .ifStmt s condition thenBranch none =>
    node s (variant "If" (record
      [("cond", expr condition), ("then_branch", .array (stmts thenBranch)),
        ("else_branch", .null)]))
  | .ifStmt s condition thenBranch (some elseBranch) =>
    node s (variant "If" (record
      [("cond", expr condition), ("then_branch", .array (stmts thenBranch)),
        ("else_branch", .array (stmts elseBranch))]))
  | .whileStmt s condition body =>
    node s (variant "While" (record [("cond", expr condition), ("body", .array (stmts body))]))
  | .forStmt s init condition update body =>
    node s (variant "For" (record
      [("init", .array (stmts init)), ("cond", option expr condition),
        ("update", .array (exprs update)), ("body", .array (stmts body))]))
  | .forEachStmt s var iterated body =>
    node s (variant "ForEach" (record
      [("var", varDecl var), ("iter", expr iterated), ("body", .array (stmts body))]))
  | .tryStmt s resources body catches none =>
    node s (variant "Try" (record
      [("resources", list varDecl resources), ("body", .array (stmts body)),
        ("catches", .array (catchClauses catches)), ("finally", .null)]))
  | .tryStmt s resources body catches (some finallyBlock) =>
    node s (variant "Try" (record
      [("resources", list varDecl resources), ("body", .array (stmts body)),
        ("catches", .array (catchClauses catches)), ("finally", .array (stmts finallyBlock))]))
  | .throwStmt s value => node s (variant "Throw" (expr value))
  | .breakStmt s => node s (text "Break")
  | .continueStmt s => node s (text "Continue")

def stmts : List Stmt → List Json
  | [] => []
  | s :: rest => stmt s :: stmts rest

def catchClauses : List CatchClause → List Json
  | [] => []
  | .mk param body :: rest =>
    record [("param", varDecl param), ("body", .array (stmts body))] :: catchClauses rest

end

/-! ## Declarations -/

def methodDecl (m : MethodDecl) : Json :=
  record [("id", nodeId m.id), ("name", text m.name), ("params", list varDecl m.params),
    ("ret_ty", option text m.returnType), ("body", option (fun b => .array (stmts b)) m.body),
    ("span", span m.span)]

mutual

def classDecl : ClassDecl → Json
  | ⟨s, name, fields, methods, nested⟩ =>
    record [("id", nodeId s.id), ("name", text name), ("fields", list varDecl fields),
      ("methods", list methodDecl methods), ("nested", .array (classDecls nested)),
      ("span", span s.span)]

def classDecls : List ClassDecl → List Json
  | [] => []
  | c :: cs => classDecl c :: classDecls cs

end

def compilationUnit (u : CompilationUnit) : Json :=
  record [("package", option text u.package), ("imports", list text u.imports),
    ("classes", .array (classDecls u.classes))]

def methodSignature (m : MethodSignature) : Json :=
  record [("owner", text m.owner), ("method", text m.method), ("returns", text m.returns)]

/-- The source text of a unit, if there is one. -/
def sourceField : Option String → List (String × Json)
  | none => []
  | some s => [("source", text s)]

end Encode

namespace SourceUnit

def toJson (u : SourceUnit) : Json :=
  Json.record ([("path", Json.text u.path)] ++ Encode.sourceField u.source ++
    [("unit", Encode.compilationUnit u.unit),
      ("signatures", Json.list Encode.methodSignature u.signatures)])

/-- The text of a unit file. -/
def save (u : SourceUnit) : String :=
  u.toJson.compact

end SourceUnit

end HandleLint
