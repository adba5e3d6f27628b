import HandleLint.Handles.Finder

/-!
# What becomes of a handle

For each candidate of a method, whether its body releases it: by a call without arguments on it, or
by a call that it is passed to. The whole body counts, resource lists included.

* `Releases.ofBody`: the first release of each local of a body;
* `Outcome`: what became of one candidate;
* `Finder.outcomes`: the outcomes of a method.
-/

namespace HandleLint

/-- What became of a local that held a new handle. -/
structure Outcome where
  symbol : Symbol
  creation : Creation
  /-- The first call that released it in place. -/
  release : Option Span
  /-- The first call that it was passed to for release. -/
  handedOff : Option Span
  deriving DecidableEq, Repr

/-- Where the locals of a body are released first. -/
structure Releases where
  calls : Table SymbolId Span := {}
  handedOff : Table SymbolId Span := {}
  notes : Array Note := #[]
  deriving Inhabited

namespace Releases

def release (rs : Releases) (id : SymbolId) (span : Span) : Releases :=
  { rs with calls := rs.calls.insertIfNew id span }

def handOff (rs : Releases) (id : SymbolId) (span : Span) (n : Note) : Releases :=
  { rs with handedOff := rs.handedOff.insertIfNew id span, notes := rs.notes.push n }

/-- The local that a call without arguments is made on. -/
def receiver? (w : Watch) (receiver : Option Expr) : Option SymbolId :=
  receiver.bind w.model.identReference?

/-- What one event releases. A release method that is called without arguments releases what it is
called on and nothing else. -/
def step (w : Watch) (method : String) (rs : Releases) : Event → Releases
  | .call site receiver name args =>
    if args.isEmpty && w.resource.isRelease name then
      match receiver? w receiver with
      | some id => rs.release id site.span
      | none => rs
    else if w.resource.isReleaseHelper name then
      (args.filterMap w.model.identReference?).foldl
        (fun rs id => rs.handOff id site.span (.handedOff method (w.model.nameOf id) name)) rs
    else rs
  | _ => rs

def ofBody (w : Watch) (method : String) (body : List Stmt) : Releases :=
  (eventsOf .visit body).foldl (step w method) {}

/-- What became of a candidate. -/
def outcome? (w : Watch) (rs : Releases) (candidate : SymbolId × Creation) : Option Outcome := do
  let symbol ← w.model.symbol? candidate.1
  return { symbol, creation := candidate.2, release := rs.calls.get? candidate.1,
           handedOff := rs.handedOff.get? candidate.1 }

end Releases

namespace Finder

/-- What became of the candidates of a method. -/
def outcomes (w : Watch) (method : MethodDecl) (f : Finder) : List Outcome × Finder :=
  let (set, f) := f.find w method
  if set.isEmpty then ([], f)
  else
    let rs := Releases.ofBody w method.name (method.body.getD [])
    (set.entries.filterMap (rs.outcome? w), { f with notes := f.notes ++ rs.notes })

end Finder

end HandleLint
