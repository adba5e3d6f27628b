import HandleLint.Tree.Basic

/-!
# Symbols

Every class, field, method, parameter and variable of a unit has a symbol. Symbols are numbered in
the order in which they are declared.
-/

namespace HandleLint

/-- The number of a symbol: how many were declared before it. A counter of 32 bits gives the first
2^32 symbols the same numbers. -/
abbrev SymbolId := Nat

/-- Where a variable of a method body was introduced. -/
inductive VarOrigin
  | localVar
  | tryResource
  | catchParam
  | loopVar
  deriving DecidableEq, Repr

inductive SymbolKind
  | var (origin : VarOrigin)
  | parameter
  | field (owner : NodeId)
  | method (owner : NodeId) (arity : Nat)
  | type
  deriving DecidableEq, Repr

/-- What was declared, and where. -/
structure Symbol where
  id : SymbolId
  name : String
  kind : SymbolKind
  /-- The qualified type: what a method returns, a class itself. None if it is not known or
  `void`. -/
  type : Option String
  site : Site
  deriving DecidableEq, Repr

namespace Symbol

/-- The node that declares the symbol. -/
def decl (s : Symbol) : NodeId :=
  s.site.id

def span (s : Symbol) : Span :=
  s.site.span

def isVariable (s : Symbol) : Bool :=
  match s.kind with
  | .var _ => true
  | _ => false

def isMethod (s : Symbol) : Bool :=
  match s.kind with
  | .method .. => true
  | _ => false

end Symbol

/-- The symbols of a unit, in the order of their numbers. -/
structure SymbolTable where
  symbols : Array Symbol := #[]
  deriving Repr, Inhabited

namespace SymbolTable

def size (t : SymbolTable) : Nat :=
  t.symbols.size

def isEmpty (t : SymbolTable) : Bool :=
  t.symbols.isEmpty

/-- The number that the next symbol gets. -/
def next (t : SymbolTable) : SymbolId :=
  t.symbols.size

/-- One more symbol, under the next number. -/
def insert (t : SymbolTable) (name : String) (kind : SymbolKind) (type : Option String)
    (site : Site) : SymbolTable :=
  ⟨t.symbols.push { id := t.next, name, kind, type, site }⟩

def get? (t : SymbolTable) (id : SymbolId) : Option Symbol :=
  t.symbols[id]?

def toList (t : SymbolTable) : List Symbol :=
  t.symbols.toList

end SymbolTable

end HandleLint
