import HandleLint.Names.Problem
import HandleLint.Names.Symbol
import HandleLint.Table

/-!
# What the names of a unit mean

The result of resolving the names of a unit: its symbols, and tables that tie nodes to them. A table
has an entry for a node only where the node could be resolved.
-/

namespace HandleLint

/-- What a call calls. -/
structure CallTarget where
  /-- The qualified type on which the method was looked up. -/
  owner : Option String := none
  /-- The qualified type of the result; none if it is not known or `void`. -/
  returns : Option String := none
  /-- The method, if the unit declares it. -/
  callee : Option SymbolId := none
  deriving DecidableEq, Repr, Inhabited

structure Model where
  symbols : SymbolTable := {}
  /-- The declaration that an identifier, or a field of `this`, refers to. -/
  references : Table NodeId SymbolId := {}
  /-- The symbol that a declaration introduces. -/
  declarations : Table NodeId SymbolId := {}
  calls : Table NodeId CallTarget := {}
  methods : Table SymbolId MethodDecl := {}
  /-- What went wrong, in the order in which it was met. -/
  problems : Array Problem := #[]
  deriving Inhabited

namespace Model

def symbol? (m : Model) (id : SymbolId) : Option Symbol :=
  m.symbols.get? id

def reference? (m : Model) (node : NodeId) : Option SymbolId :=
  m.references.get? node

def declaration? (m : Model) (node : NodeId) : Option SymbolId :=
  m.declarations.get? node

def callTarget? (m : Model) (node : NodeId) : Option CallTarget :=
  m.calls.get? node

def method? (m : Model) (id : SymbolId) : Option MethodDecl :=
  m.methods.get? id

/-- The qualified type of a symbol. -/
def typeOf? (m : Model) (id : SymbolId) : Option String := do
  (← m.symbol? id).type

/-- The name of a symbol, or a question mark. -/
def nameOf (m : Model) (id : SymbolId) : String :=
  match m.symbol? id with
  | some s => s.name
  | none => "?"

/-- What a bare identifier refers to; nothing for any other expression. -/
def identReference? (m : Model) (e : Expr) : Option SymbolId :=
  match e with
  | .ident s _ => m.reference? s.id
  | _ => none

/-- The body of a method, if its symbol is one of the unit's and it has one. -/
def body? (m : Model) (id : SymbolId) : Option (List Stmt) := do
  (← m.method? id).body

end Model

end HandleLint
