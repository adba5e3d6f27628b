import HandleLint.Names.Symbol

/-!
# How a handle comes to be

A handle comes straight from its factory, or from a method of the same unit that creates it.
-/

namespace HandleLint

inductive Creation
  | factory
  | helper (method : SymbolId)
  deriving DecidableEq, Repr

namespace Creation

/-- The form in which notes show a creation. -/
def describe : Creation → String
  | factory => "Factory"
  | helper method => s!"Helper(SymbolId({method}))"

end Creation

end HandleLint
