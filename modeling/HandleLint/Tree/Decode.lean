import HandleLint.Json.Decode
import HandleLint.Json.Reader
import HandleLint.Tree.Basic

/-!
# Reading unit files

A unit file is a JSON text that holds a `SourceUnit`. Each level of arrays and objects takes one
from the room of a decoder, so every decoder of a tree recurses on its room.

* `Decode.expr`, `Decode.stmt`, `Decode.classDecl`: the nodes of a tree;
* `Decode.sourceUnit`: a unit from a JSON value;
* `SourceUnit.load?`: a unit from the text of a file, under the file's name if it has no path.
-/

namespace HandleLint

namespace Decode

open Json (Decoder Slot slots? required defaulted optional optionalField nullable plainVariant?
  textOf boolOf word32 word64 signed64 texts)

/-! ## Spans, sites and operators -/

def span : Decoder Span
  | _ + 1, j => do
    let [start, stop] ← slots? ["start", "end"] j | none
    return { start := ← required word64 start, stop := ← required word64 stop }
  | 0, _ => none

/-- The site of a node, from the fields that hold its number and its span. -/
def site (room : Nat) (id place : Slot) : Option Site := do
  return { id := ← required word32 id, span := ← defaulted {} (span room) place }

def binaryOp (room : Nat) (j : Json) : Option BinaryOp := do
  match ← plainVariant? room j with
  | "Add" => some .add
  | "Sub" => some .sub
  | "Mul" => some .mul
  | "Div" => some .div
  | "Rem" => some .rem
  | "Eq" => some .eq
  | "Ne" => some .ne
  | "Lt" => some .lt
  | "Gt" => some .gt
  | "Le" => some .le
  | "Ge" => some .ge
  | "And" => some .and
  | "Or" => some .or
  | _ => none

def unaryOp (room : Nat) (j : Json) : Option UnaryOp := do
  match ← plainVariant? room j with
  | "Neg" => some .neg
  | "Not" => some .not
  | _ => none

/-! ## Expressions -/

/-- The kinds of expression that have no content. -/
def bareExpr (s : Site) : String → Option Expr
  | "Null" => some (.null s)
  | "This" => some (.this s)
  | _ => none

mutual

def expr : Nat → Json → Option Expr
  | n + 1, j => do
    let [id, .given kind, place] ← slots? ["id", "kind", "span"] j | none
    let s ← site n id place
    exprKind n s kind
  | 0, _ => none

/-- An expression at a site, from what names its kind. -/
def exprKind : Nat → Site → Json → Option Expr
  | _, s, .string (some kind) => bareExpr s kind
  | n + 1, s, .object [(some kind, content)] =>
    match kind with
    | "Bool" => (boolOf content).map (.bool s)
    | "Int" => (signed64 content).map (.int s)
    | "String" => (textOf content).map (.string s)
    | "Ident" => (textOf content).map (.ident s)
    | _ =>
      match content with
      | .null => bareExpr s kind
      | _ => exprParts n s kind content
  | _, _, _ => none

/-- An expression of a kind, from the record of its parts. -/
def exprParts : Nat → Site → String → Json → Option Expr
  | n + 1, s, "Field", j => do
    let [object, name] ← slots? ["object", "field"] j | none
    return .field s (← required (expr n) object) (← required textOf name)
  | n + 1, s, "MethodCall", j => do
    let [receiver, method, args] ← slots? ["receiver", "method", "args"] j | none
    return .call s (← optional (expr n) receiver) (← required textOf method)
      (← required (exprs n) args)
  | n + 1, s, "New", j => do
    let [type, args] ← slots? ["ty", "args"] j | none
    return .new s (← required textOf type) (← required (exprs n) args)
  | n + 1, s, "Assign", j => do
    let [target, value] ← slots? ["target", "value"] j | none
    return .assign s (← required (expr n) target) (← required (expr n) value)
  | n + 1, s, "Binary", j => do
    let [op, left, right] ← slots? ["op", "left", "right"] j | none
    return .binary s (← required (binaryOp n) op) (← required (expr n) left)
      (← required (expr n) right)
  | n + 1, s, "Unary", j => do
    let [op, operand] ← slots? ["op", "operand"] j | none
    return .unary s (← required (unaryOp n) op) (← required (expr n) operand)
  | n + 1, s, "Conditional", j => do
    let [condition, whenTrue, whenFalse] ← slots? ["cond", "then_expr", "else_expr"] j | none
    return .conditional s (← required (expr n) condition) (← required (expr n) whenTrue)
      (← required (expr n) whenFalse)
  | n + 1, s, "Cast", j => do
    let [type, operand] ← slots? ["ty", "expr"] j | none
    return .cast s (← required textOf type) (← required (expr n) operand)
  | n + 1, s, "InstanceOf", j => do
    let [operand, type] ← slots? ["expr", "ty"] j | none
    return .instanceOf s (← required (expr n) operand) (← required textOf type)
  | n + 1, s, "Index", j => do
    let [array, position] ← slots? ["array", "index"] j | none
    return .index s (← required (expr n) array) (← required (expr n) position)
  | _, _, _, _ => none

def exprs : Nat → Json → Option (List Expr)
  | n + 1, .array items => items.mapM (expr n)
  | _, _ => none

end

/-! ## Statements -/

def varDecl : Decoder VarDecl
  | n + 1, j => do
    let [id, name, type, init, place] ← slots? ["id", "name", "ty", "init", "span"] j | none
    let s ← site n id place
    return { site := s, name := ← required textOf name, type := ← required textOf type,
             init := ← optionalField (expr n) init }
  | 0, _ => none

def varDecls : Decoder (List VarDecl)
  | n + 1, .array items => items.mapM (varDecl n)
  | _, _ => none

/-- The kinds of statement that have no content. -/
def bareStmt (s : Site) : String → Option Stmt
  | "Break" => some (.breakStmt s)
  | "Continue" => some (.continueStmt s)
  | _ => none

mutual

def stmt : Nat → Json → Option Stmt
  | n + 1, j => do
    let [id, .given kind, place] ← slots? ["id", "kind", "span"] j | none
    let s ← site n id place
    stmtKind n s kind
  | 0, _ => none

/-- A statement at a site, from what names its kind. -/
def stmtKind : Nat → Site → Json → Option Stmt
  | _, s, .string (some kind) => bareStmt s kind
  | n + 1, s, .object [(some kind, content)] =>
    match kind with
    | "Expr" => (expr n content).map (.exprStmt s)
    | "Local" => (varDecl n content).map (.localVar s)
    | "Return" => (nullable (expr n) content).map (.returnStmt s)
    | "Block" => (stmts n content).map (.block s)
    | "Throw" => (expr n content).map (.throwStmt s)
    | _ =>
      match content with
      | .null => bareStmt s kind
      | _ => stmtParts n s kind content
  | _, _, _ => none

/-- A statement of a kind, from the record of its parts. -/
def stmtParts : Nat → Site → String → Json → Option Stmt
  | n + 1, s, "If", j => do
    let [condition, thenBranch, elseBranch] ← slots? ["cond", "then_branch", "else_branch"] j | none
    return .ifStmt s (← required (expr n) condition) (← required (stmts n) thenBranch)
      (← optional (stmts n) elseBranch)
  | n + 1, s, "While", j => do
    let [condition, body] ← slots? ["cond", "body"] j | none
    return .whileStmt s (← required (expr n) condition) (← required (stmts n) body)
  | n + 1, s, "For", j => do
    let [init, condition, update, body] ← slots? ["init", "cond", "update", "body"] j | none
    return .forStmt s (← required (stmts n) init) (← optional (expr n) condition)
      (← required (exprs n) update) (← required (stmts n) body)
  | n + 1, s, "ForEach", j => do
    let [var, iterated, body] ← slots? ["var", "iter", "body"] j | none
    return .forEachStmt s (← required (varDecl n) var) (← required (expr n) iterated)
      (← required (stmts n) body)
  | n + 1, s, "Try", j => do
    let [resources, body, catches, finallyBlock] ←
      slots? ["resources", "body", "catches", "finally"] j | none
    return .tryStmt s (← defaulted [] (varDecls n) resources) (← required (stmts n) body)
      (← defaulted [] (catchClauses n) catches) (← optionalField (stmts n) finallyBlock)
  | _, _, _, _ => none

def stmts : Nat → Json → Option (List Stmt)
  | n + 1, .array items => items.mapM (stmt n)
  | _, _ => none

def catchClause : Nat → Json → Option CatchClause
  | n + 1, j => do
    let [param, body] ← slots? ["param", "body"] j | none
    return .mk (← required (varDecl n) param) (← required (stmts n) body)
  | 0, _ => none

def catchClauses : Nat → Json → Option (List CatchClause)
  | n + 1, .array items => items.mapM (catchClause n)
  | _, _ => none

end

/-! ## Declarations -/

def methodDecl : Decoder MethodDecl
  | n + 1, j => do
    let [id, name, params, returnType, body, place] ←
      slots? ["id", "name", "params", "ret_ty", "body", "span"] j | none
    let s ← site n id place
    return { site := s, name := ← required textOf name,
             params := ← defaulted [] (varDecls n) params,
             returnType := ← optionalField textOf returnType,
             body := ← optionalField (stmts n) body }
  | 0, _ => none

def methodDecls : Decoder (List MethodDecl)
  | n + 1, .array items => items.mapM (methodDecl n)
  | _, _ => none

mutual

def classDecl : Nat → Json → Option ClassDecl
  | n + 1, j => do
    let [id, name, fields, methods, nested, place] ←
      slots? ["id", "name", "fields", "methods", "nested", "span"] j | none
    let s ← site n id place
    return { site := s, name := ← required textOf name,
             fields := ← defaulted [] (varDecls n) fields,
             methods := ← defaulted [] (methodDecls n) methods,
             nested := ← defaulted [] (classDecls n) nested }
  | 0, _ => none

def classDecls : Nat → Json → Option (List ClassDecl)
  | n + 1, .array items => items.mapM (classDecl n)
  | _, _ => none

end

def compilationUnit : Decoder CompilationUnit
  | n + 1, j => do
    let [package, imports, classes] ← slots? ["package", "imports", "classes"] j | none
    return { package := ← optionalField textOf package, imports := ← defaulted [] (texts n) imports,
             classes := ← defaulted [] (classDecls n) classes }
  | 0, _ => none

def methodSignature : Decoder MethodSignature
  | _ + 1, j => do
    let [owner, method, returns] ← slots? ["owner", "method", "returns"] j | none
    return { owner := ← required textOf owner, method := ← required textOf method,
             returns := ← required textOf returns }
  | 0, _ => none

def methodSignatures : Decoder (List MethodSignature)
  | n + 1, .array items => items.mapM (methodSignature n)
  | _, _ => none

def sourceUnit : Decoder SourceUnit
  | n + 1, j => do
    let [path, source, unit, signatures] ← slots? ["path", "source", "unit", "signatures"] j | none
    return { path := ← defaulted "" textOf path, source := ← optionalField textOf source,
             unit := ← required (compilationUnit n) unit,
             signatures := ← defaulted [] (methodSignatures n) signatures }
  | 0, _ => none

end Decode

namespace SourceUnit

/-- A unit from a JSON value. A unit without a path gets the name of its file. -/
def ofJson? (j : Json) (file : String) : Option SourceUnit := do
  let u ← Decode.sourceUnit Json.maxNesting j
  return if u.path = "" then { u with path := file } else u

/-- A unit from the text of a file. -/
def load? (text file : String) : Option SourceUnit := do
  ofJson? (← Json.parse? text) file

end SourceUnit

end HandleLint
