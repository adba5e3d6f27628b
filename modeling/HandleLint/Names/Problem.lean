import HandleLint.Source.Span

/-!
# Problems with names

What can go wrong when names are resolved. None of these stops the analysis.
-/

namespace HandleLint

inductive ProblemKind
  | undefinedSymbol (name : String)
  | unknownMethod (name : String) (arity : Nat)
  /-- A name declared again in the scope that has it already; `previous` is its first
  declaration. -/
  | duplicateDefinition (name : String) (previous : Span)
  deriving DecidableEq, Repr

structure Problem where
  kind : ProblemKind
  span : Span
  deriving DecidableEq, Repr

namespace ProblemKind

def name : ProblemKind → String
  | undefinedSymbol name | unknownMethod name _ | duplicateDefinition name _ => name

def message : ProblemKind → String
  | undefinedSymbol name => s!"cannot find symbol `{name}`"
  | unknownMethod name arity => s!"cannot find method `{name}` taking {arity} argument(s)"
  | duplicateDefinition name _ => s!"`{name}` is already defined in this scope"

end ProblemKind

namespace Problem

def message (p : Problem) : String :=
  p.kind.message

end Problem

end HandleLint
