import HandleLint.Names.Problem
import HandleLint.Names.Symbol
import HandleLint.Table

/-!
# Scopes

The scopes of a unit form a tree: each is opened inside the one that is current then, its parent.
Scopes are numbered in the order in which they are opened, so a parent has a smaller number than its
children, and the way from a scope outwards can be read off the list of scopes, newest first.

* `ScopeTree.enter`, `ScopeTree.leave`: opening a scope and going back out of it;
* `ScopeTree.define`: binding a name in the current scope, once;
* `ScopeTree.lookup?`: the nearest binding of a name;
* `ScopeTree.enclosingClasses`: the classes around the current scope.
-/

namespace HandleLint

/-- The number of a scope: how many were opened before it. A counter of 32 bits gives the
first 2^32 scopes the same numbers. -/
abbrev ScopeId := Nat

inductive ScopeKind
  | classBody (decl : NodeId)
  | methodBody (symbol : SymbolId)
  | block
  deriving DecidableEq, Repr

/-- What a name is bound to, and where. -/
structure Binding where
  symbol : SymbolId
  span : Span
  deriving DecidableEq, Repr

structure Scope where
  id : ScopeId
  parent : Option ScopeId
  kind : ScopeKind
  bindings : Table String Binding := {}
  deriving Repr

namespace Scope

/-- The scope with a name bound in it, if it is the one with the given number. -/
def bindIf (s : Scope) (id : ScopeId) (name : String) (b : Binding) : Scope :=
  if s.id = id then { s with bindings := s.bindings.insert name b } else s

@[simp] theorem id_bindIf (s : Scope) (id : ScopeId) (name : String) (b : Binding) :
    (s.bindIf id name b).id = s.id := by
  unfold bindIf
  split <;> rfl

@[simp] theorem parent_bindIf (s : Scope) (id : ScopeId) (name : String) (b : Binding) :
    (s.bindIf id name b).parent = s.parent := by
  unfold bindIf
  split <;> rfl

end Scope

/-- Scopes with decreasing numbers, the newest first, in which a parent is older than its
children. -/
@[ext]
structure ScopeTree where
  /-- All scopes opened so far, the newest first. -/
  scopes : List Scope
  current : Option ScopeId
  decreasing : scopes.Pairwise fun newer older => older.id < newer.id
  id_lt : ∀ s ∈ scopes, s.id < scopes.length
  parent_lt : ∀ s ∈ scopes, ∀ p ∈ s.parent, p < s.id
  current_lt : ∀ c ∈ current, c < scopes.length
  deriving Repr

namespace ScopeTree

instance : EmptyCollection ScopeTree := ⟨⟨[], none, .nil, nofun, nofun, nofun⟩⟩

instance : Inhabited ScopeTree := ⟨{}⟩

/-- The scopes from a given one outwards. -/
def outwards : List Scope → Option ScopeId → List Scope
  | [], _ => []
  | s :: older, start =>
    if start = some s.id then s :: outwards older s.parent else outwards older start

theorem outwards_sublist (scopes : List Scope) (start : Option ScopeId) :
    (outwards scopes start).Sublist scopes := by
  fun_induction outwards scopes start with
  | case1 => exact .slnil
  | case2 s older ih => exact ih.cons_cons s
  | case3 s older start hs ih => exact ih.cons s

/-- The scopes from the current one outwards. -/
def chain (t : ScopeTree) : List Scope :=
  outwards t.scopes t.current

theorem mem_scopes_of_mem_chain {t : ScopeTree} {s : Scope} (hs : s ∈ t.chain) : s ∈ t.scopes :=
  (outwards_sublist t.scopes t.current).subset hs

/-- The number that the next scope gets. -/
def next (t : ScopeTree) : ScopeId :=
  t.scopes.length

/-- Opens a scope inside the current one. -/
def enter (t : ScopeTree) (kind : ScopeKind) : ScopeTree where
  scopes := { id := t.next, parent := t.current, kind } :: t.scopes
  current := some t.next
  decreasing := List.pairwise_cons.2 ⟨t.id_lt, t.decreasing⟩
  id_lt := List.forall_mem_cons.2
    ⟨Nat.lt_succ_self _, fun s hs => Nat.lt_succ_of_lt (t.id_lt s hs)⟩
  parent_lt := List.forall_mem_cons.2 ⟨t.current_lt, t.parent_lt⟩
  current_lt := by
    rintro c ⟨⟩
    exact Nat.lt_succ_self _

/-- Where one is after leaving the current scope. -/
def outer (t : ScopeTree) : Option ScopeId :=
  match t.chain with
  | [] => t.current
  | s :: _ => s.parent

theorem outer_lt (t : ScopeTree) : ∀ c ∈ t.outer, c < t.scopes.length := by
  unfold outer
  cases hc : t.chain with
  | nil => exact t.current_lt
  | cons s outer =>
    have hs : s ∈ t.scopes := mem_scopes_of_mem_chain (hc ▸ List.mem_cons_self)
    exact fun p hp => Nat.lt_trans (t.parent_lt s hs p hp) (t.id_lt s hs)

/-- Goes back to the parent of the current scope, if there is one. -/
def leave (t : ScopeTree) : ScopeTree :=
  { t with current := t.outer, current_lt := t.outer_lt }

/-- The nearest binding of a name. -/
def binding? (t : ScopeTree) (name : String) : Option Binding :=
  t.chain.findSome? (·.bindings.get? name)

def lookup? (t : ScopeTree) (name : String) : Option SymbolId :=
  (t.binding? name).map (·.symbol)

/-- The tree with its scopes changed in place. -/
def mapScopes (t : ScopeTree) (f : Scope → Scope) (hid : ∀ s, (f s).id = s.id)
    (hparent : ∀ s, (f s).parent = s.parent) : ScopeTree where
  scopes := t.scopes.map f
  current := t.current
  decreasing := by
    rw [List.pairwise_map]
    simpa only [hid] using t.decreasing
  id_lt := by simpa only [List.forall_mem_map, hid, List.length_map] using t.id_lt
  parent_lt := by simpa only [List.forall_mem_map, hid, hparent] using t.parent_lt
  current_lt := by simpa only [List.length_map] using t.current_lt

/-- Binds a name in the scope with a number. -/
def bindIn (t : ScopeTree) (id : ScopeId) (name : String) (b : Binding) : ScopeTree :=
  t.mapScopes (·.bindIf id name b) (fun s => s.id_bindIf id name b)
    (fun s => s.parent_bindIf id name b)

/-- Binds a name in the current scope, which must not bind it yet. Outside of all scopes nothing is
bound. -/
def define (t : ScopeTree) (name : String) (symbol : SymbolId) (span : Span) :
    Except Problem ScopeTree :=
  match t.chain with
  | [] => .ok t
  | s :: _ =>
    match s.bindings.get? name with
    | some b => .error ⟨.duplicateDefinition name b.span, span⟩
    | none => .ok (t.bindIn s.id name ⟨symbol, span⟩)

/-- The classes around the current scope, the innermost first. -/
def enclosingClasses (t : ScopeTree) : List NodeId :=
  t.chain.filterMap fun s =>
    match s.kind with
    | .classBody decl => some decl
    | _ => none

end ScopeTree

end HandleLint
