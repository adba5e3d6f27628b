import HandleLint.Handles.HelperGraph
import HandleLint.Note

/-!
# Finding new handles

Which locals of a method hold a handle that the method is answerable for: those bound to a call of
the factory, or to a call of a method that creates the handle it returns, and not returned after.

* `Finder.classify`: whether a method creates what it returns, by a search through its sources that
  remembers what is settled (`Finder.memo`) and cuts cycles;
* `Finder.helperCreates`: the answer for a single method;
* `CandidateSet`: locals with the way their handles came to be, in the order of the bindings;
* `Finder.find`: the candidates of a method.
-/

namespace HandleLint

/-- What is known about a method that is being classified. -/
structure Verdict where
  creates : Bool
  /-- The shallowest place on the path that a cycle led back to. -/
  cut : Option Nat := none
  deriving DecidableEq, Repr

/-- What a search remembers: the methods that are settled, and the notes taken. -/
structure Finder where
  memo : Table SymbolId Bool := {}
  notes : Array Note := #[]
  deriving Inhabited

namespace Finder

def note (f : Finder) (n : Note) : Finder :=
  { f with notes := f.notes.push n }

/-- The smaller of two depths, where there are any. -/
def shallower : Option Nat → Option Nat → Option Nat
  | some a, some b => some (min a b)
  | some a, none => some a
  | none, b => b

/-- The helpers that are not on a path. -/
def offPath (w : Watch) (path : List SymbolId) : List SymbolId :=
  w.helpers.filter (· ∉ path)

theorem length_offPath_lt {w : Watch} {path : List SymbolId} {helper : SymbolId}
    (hmem : helper ∈ w.helpers) (hpath : helper ∉ path) :
    (offPath w (path ++ [helper])).length < (offPath w path).length := by
  have hfilter : offPath w (path ++ [helper]) = (offPath w path).filter (· ≠ helper) := by
    simp only [offPath, List.filter_filter]
    congr 1
    funext x
    simp [not_or, and_comm]
  rw [hfilter]
  have hin : helper ∈ offPath w path := by simp [offPath, hmem, hpath]
  exact List.length_filter_lt_length_iff_exists.2 ⟨helper, hin, by simp⟩

/-- Settles what is known about a method when the search leaves it at a depth. That it creates what
it returns is settled at once; that it does not, once no cycle leads back to a method above it. -/
def conclude (w : Watch) (f : Finder) (helper : SymbolId) (depth : Nat) (v : Verdict) :
    Verdict × Finder :=
  let cut := v.cut.filter (· < depth)
  let f := if v.creates || cut.isNone then { f with memo := f.memo.insert helper v.creates } else f
  let f := f.note (.classified helper (w.model.nameOf helper) v.creates)
  (if v.creates then { creates := true } else { creates := false, cut }, f)

/-- One source taken into account, where `search` classifies a method: nothing is looked at any more
once a source creates a handle. -/
def consult {σ : Type} (search : SymbolId → σ → Verdict × σ) (s : Verdict × σ)
    (source : Creation) : Verdict × σ :=
  if s.1.creates then s
  else
    match source with
    | .factory => ({ creates := true }, s.2)
    | .helper next =>
      let inner := search next s.2
      ({ creates := inner.1.creates, cut := shallower s.1.cut inner.1.cut }, inner.2)

/-- Classifies a method below those on a path. -/
def classify (w : Watch) (helper : SymbolId) (path : List SymbolId) (f : Finder) :
    Verdict × Finder :=
  match f.memo.get? helper with
  | some known => ({ creates := known }, f)
  | none =>
    match path.idxOf? helper with
    | some depth => ({ creates := false, cut := some depth }, f)
    | none =>
      if h : helper ∈ w.helpers ∧ helper ∉ path then
        have := length_offPath_lt h.1 h.2
        let (v, f) := (w.sources helper).foldl
          (consult fun next f => classify w next (path ++ [helper]) f) ({ creates := false }, f)
        f.conclude w helper path.length v
      else f.conclude w helper path.length { creates := false }
  termination_by (offPath w path).length

/-- Whether a method creates the handle that it returns. -/
def helperCreates (w : Watch) (helper : SymbolId) (f : Finder) : Bool × Finder :=
  let (v, f) := f.classify w helper []
  (v.creates, f)

/-- How a value creates a handle, if it does. -/
def creation? (w : Watch) (value : Expr) (f : Finder) : Option Creation × Finder :=
  match w.source? value with
  | none => (none, f)
  | some .factory => (some .factory, f)
  | some (.helper method) =>
    let (creates, f) := f.helperCreates w method
    (if creates then some (.helper method) else none, f)

end Finder

/-- Locals that hold a new handle, in the order in which they came to hold it. -/
structure CandidateSet where
  entries : List (SymbolId × Creation) := []
  deriving DecidableEq, Repr, Inhabited

namespace CandidateSet

def contains (s : CandidateSet) (id : SymbolId) : Bool :=
  s.entries.any (·.1 = id)

/-- Adds a local that is not there yet. -/
def insert (s : CandidateSet) (id : SymbolId) (creation : Creation) : CandidateSet :=
  if s.contains id then s else ⟨s.entries ++ [(id, creation)]⟩

def erase (s : CandidateSet) (id : SymbolId) : CandidateSet :=
  ⟨s.entries.filter (·.1 ≠ id)⟩

def creation? (s : CandidateSet) (id : SymbolId) : Option Creation :=
  s.entries.lookup id

def symbols (s : CandidateSet) : List SymbolId :=
  s.entries.map Prod.fst

def size (s : CandidateSet) : Nat :=
  s.entries.length

def isEmpty (s : CandidateSet) : Bool :=
  s.entries.isEmpty

end CandidateSet

namespace Finder

/-- What one event of a method does to its candidates. -/
def step (w : Watch) (method : String) (set : CandidateSet) (f : Finder) :
    Event → CandidateSet × Finder
  | .bind target value =>
    match w.boundLocal? target with
    | none => (set, f)
    | some id =>
      match f.creation? w value with
      | (none, f) => (set, f)
      | (some creation, f) =>
        (set.insert id creation, f.note (.holdsHandle method (w.model.nameOf id) creation))
  | .returned value =>
    match w.model.identReference? value with
    | none => (set, f)
    | some id =>
      if set.contains id then (set.erase id, f.note (.returned method (w.model.nameOf id)))
      else (set, f)
  | .call .. => (set, f)

/-- The candidates of a method; there are none without a body. -/
def find (w : Watch) (method : MethodDecl) (f : Finder) : CandidateSet × Finder :=
  match method.body with
  | none => ({}, f)
  | some body =>
    (eventsOf .skip body).foldl (fun (set, f) event => step w method.name set f event) ({}, f)

/-- The locals among the candidates of a method. -/
def declarations (w : Watch) (method : MethodDecl) (f : Finder) : List SymbolId × Finder :=
  let (set, f) := f.find w method
  (set.symbols, f)

end Finder

end HandleLint
