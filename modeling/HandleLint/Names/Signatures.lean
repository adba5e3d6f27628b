import HandleLint.Table
import HandleLint.Tree.Basic

/-!
# Signatures of methods declared elsewhere

What is known of the methods that a unit calls but does not declare, and of the types that such
methods belong to and return.

* `Signatures.insert`, `Signatures.declare`: learning a signature or a type;
* `Signatures.returns?`: the type that a method returns.

Overloads are not told apart: the signature learnt last counts.
-/

namespace HandleLint

structure Signatures where
  /-- The signatures, the newest first. -/
  entries : List MethodSignature := []
  /-- The known types. -/
  known : Table String Unit := {}
  deriving Repr, Inhabited

namespace Signatures

/-- The known types, in increasing order. -/
def types (s : Signatures) : List String :=
  s.known.keys

theorem pairwise_types (s : Signatures) : s.types.Pairwise fun a b => compare a b = .lt :=
  s.known.pairwise_keys

/-- A type that is known to exist. -/
def declare (s : Signatures) (type : String) : Signatures :=
  { s with known := s.known.insert type () }

theorem mem_types_declare_iff {s : Signatures} {type t : String} :
    t ∈ (s.declare type).types ↔ t = type ∨ t ∈ s.types :=
  s.known.mem_keys_insert_iff

/-- A signature. Its owner and what it returns, unless that is `void`, are known types. -/
def insert (s : Signatures) (m : MethodSignature) : Signatures :=
  let s := s.declare m.owner
  let s := if m.returns = "void" then s else s.declare m.returns
  { s with entries := m :: s.entries }

def ofList (ms : List MethodSignature) : Signatures :=
  ms.foldl insert {}

/-- The type that a method of an owner returns, unless it is `void`. -/
def returns? (s : Signatures) (owner method : String) : Option String := do
  let m ← s.entries.find? fun m => m.owner = owner ∧ m.method = method
  if m.returns = "void" then none else return m.returns

end Signatures

end HandleLint
