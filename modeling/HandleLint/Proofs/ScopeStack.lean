import HandleLint.Names.ScopeTree
import Mathlib.Data.List.Forall2

/-!
# The scope tree as a stack

A scope tree never forgets a scope, but all that is read off it is its chain, the scopes from the
current one outwards. Since scopes are numbered in the order in which they were opened, the chain is
a stack:

* `ScopeTree.chain_enter`: opening a scope pushes an empty one;
* `ScopeTree.chain_leave`: leaving a scope pops it;
* `ScopeTree.chain_declared`: binding a name changes the innermost scope only, and a name bound
  there already keeps its binding;
* `ScopeTree.way_chain`: the chain is what one meets on the way from parent to parent by their
  numbers, which has an end.
-/

namespace HandleLint

theorem forall₂_tail {α β : Type} {R : α → β → Prop} {as : List α} {bs : List β}
    (h : List.Forall₂ R as bs) : List.Forall₂ R as.tail bs.tail := by
  rw [← List.drop_one, ← List.drop_one]
  exact List.forall₂_drop 1 h

/-- Lists that give the same results place by place. -/
theorem filterMap_eq_of_forall₂ {α β γ : Type} {f : α → Option γ} {g : β → Option γ} {as : List α}
    {bs : List β} (h : List.Forall₂ (fun a b => f a = g b) as bs) :
    as.filterMap f = bs.filterMap g := by
  induction h with
  | nil => rfl
  | cons hab _ ih => rw [List.filterMap_cons, List.filterMap_cons, hab, ih]

/-- The class whose body a scope is. -/
def ScopeKind.class? : ScopeKind → Option NodeId
  | .classBody c => some c
  | _ => none

namespace ScopeTree

theorem enclosingClasses_eq (t : ScopeTree) :
    t.enclosingClasses = t.chain.filterMap (·.kind.class?) := by
  unfold enclosingClasses
  congr 1

/-! ## The way outwards -/

/-- A scope that is newer than where the way starts is not on it. -/
theorem outwards_cons_of_lt {s : Scope} {older : List Scope} {start : Option ScopeId}
    (h : ∀ p ∈ start, p < s.id) : outwards (s :: older) start = outwards older start := by
  rw [outwards, if_neg]
  intro hs
  exact Nat.lt_irrefl _ (h _ hs)

/-- After a scope the way goes on from its parent. -/
theorem outwards_tail {scopes : List Scope} {start : Option ScopeId} {s : Scope}
    {outer : List Scope} (hd : scopes.Pairwise fun newer older => older.id < newer.id)
    (hp : ∀ s ∈ scopes, ∀ p ∈ s.parent, p < s.id) (h : outwards scopes start = s :: outer) :
    outwards scopes s.parent = outer := by
  induction scopes with
  | nil => cases h
  | cons newest older ih =>
    obtain ⟨hnewest, hd⟩ := List.pairwise_cons.1 hd
    obtain ⟨hpn, hpo⟩ := List.forall_mem_cons.1 hp
    by_cases hs : start = some newest.id
    · rw [outwards, if_pos hs] at h
      obtain ⟨rfl, rfl⟩ := List.cons.inj h
      exact outwards_cons_of_lt hpn
    · rw [outwards, if_neg hs] at h
      have hmem : s ∈ older := (outwards_sublist older start).subset (h ▸ List.mem_cons_self)
      rw [outwards_cons_of_lt fun p hps => Nat.lt_trans (hpo s hmem p hps) (hnewest s hmem)]
      exact ih hd hpo h

/-- The way depends on the numbers and the parents of scopes alone. -/
theorem outwards_map {f : Scope → Scope} (hid : ∀ s, (f s).id = s.id)
    (hparent : ∀ s, (f s).parent = s.parent) (scopes : List Scope) (start : Option ScopeId) :
    outwards (scopes.map f) start = (outwards scopes start).map f := by
  fun_induction outwards scopes start with
  | case1 => rfl
  | case2 s older ih =>
    rw [List.map_cons, outwards, hid, if_pos rfl, hparent, ih, List.map_cons]
  | case3 s older start hs ih =>
    rw [List.map_cons, outwards, hid, if_neg hs, ih]

/-! ## Opening and leaving -/

@[simp] theorem chain_enter (t : ScopeTree) (kind : ScopeKind) :
    (t.enter kind).chain = { id := t.next, parent := t.current, kind } :: t.chain := by
  simp [chain, enter, outwards]

theorem chain_leave (t : ScopeTree) : t.leave.chain = t.chain.tail := by
  show outwards t.scopes t.outer = _
  unfold outer
  cases hc : t.chain with
  | nil => exact hc
  | cons s outer => exact outwards_tail t.decreasing t.parent_lt hc

/-- Outside of all scopes there is nothing to leave. -/
theorem leave_eq_self {t : ScopeTree} (h : t.chain = []) : t.leave = t := by
  have houter : t.outer = t.current := by rw [outer, h]
  simp only [leave, houter]

/-! ## Binding -/

/-- The tree after an attempt to bind a name in the current scope. -/
def declared (t : ScopeTree) (name : String) (b : Binding) : ScopeTree :=
  match t.define name b.symbol b.span with
  | .ok t' => t'
  | .error _ => t

/-- A stack of scopes with a name bound in the innermost one, unless it is bound there already. -/
def bindInnermost (name : String) (b : Binding) : List Scope → List Scope
  | [] => []
  | s :: outer => { s with bindings := s.bindings.insertIfNew name b } :: outer

theorem map_bindIf_cons {s : Scope} {outer : List Scope} (h : ∀ o ∈ outer, o.id < s.id)
    (name : String) (b : Binding) :
    (s :: outer).map (·.bindIf s.id name b) =
      { s with bindings := s.bindings.insert name b } :: outer := by
  have houter : outer.map (·.bindIf s.id name b) = outer :=
    (List.map_congr_left fun o ho => if_neg (Nat.ne_of_lt (h o ho))).trans (List.map_id outer)
  rw [List.map_cons, Scope.bindIf, if_pos rfl, houter]

theorem chain_bindIn (t : ScopeTree) (id : ScopeId) (name : String) (b : Binding) :
    (t.bindIn id name b).chain = t.chain.map (·.bindIf id name b) :=
  outwards_map (·.id_bindIf id name b) (·.parent_bindIf id name b) t.scopes t.current

theorem chain_declared (t : ScopeTree) (name : String) (b : Binding) :
    (t.declared name b).chain = bindInnermost name b t.chain := by
  unfold declared define
  cases hc : t.chain with
  | nil => exact hc
  | cons s outer =>
    cases hb : s.bindings.get? name with
    | some bound => simp [hb, hc, bindInnermost, Table.insertIfNew, Table.contains]
    | none =>
      have hd : (s :: outer).Pairwise fun newer older => older.id < newer.id :=
        hc ▸ t.decreasing.sublist (outwards_sublist t.scopes t.current)
      simp only [hb, chain_bindIn, hc, map_bindIf_cons (List.pairwise_cons.1 hd).1]
      simp [bindInnermost, Table.insertIfNew, Table.contains, hb]

/-- Binding a name leaves the scopes around the current one alone. -/
theorem tail_chain_declared (t : ScopeTree) (name : String) (b : Binding) :
    (t.declared name b).chain.tail = t.chain.tail := by
  rw [chain_declared]
  cases t.chain <;> rfl

/-! ## Numbers as places -/

/-- The scope with a number: so many scopes were opened before it. -/
def scope? (t : ScopeTree) (id : ScopeId) : Option Scope :=
  t.scopes.reverse[id]?

/-- Numbers that decrease from below the length of their list go down to 0 one by one. -/
theorem eq_reverse_range {ids : List Nat} (hd : ids.Pairwise (· > ·))
    (hlt : ∀ i ∈ ids, i < ids.length) : ids = (List.range ids.length).reverse := by
  induction ids with
  | nil => rfl
  | cons i rest ih =>
    obtain ⟨hi, hd⟩ := List.pairwise_cons.1 hd
    have hle : i < rest.length + 1 := hlt i List.mem_cons_self
    have hrest : rest = (List.range rest.length).reverse :=
      ih hd fun j hj => Nat.lt_of_lt_of_le (hi j hj) (Nat.le_of_lt_succ hle)
    have hlast : ∀ n, rest.length = n + 1 → n < i := by
      intro n hn
      refine hi n ?_
      rw [hrest, hn, List.mem_reverse]
      exact List.mem_range.2 (Nat.lt_succ_self n)
    have hi' : i = rest.length := by
      cases hn : rest.length with
      | zero => omega
      | succ n =>
        have := hlast n hn
        omega
    rw [List.length_cons, List.range_succ, List.reverse_append, ← hrest, hi']
    rfl

/-- The number of a scope is its place in the order of opening. -/
theorem map_id_reverse (t : ScopeTree) :
    t.scopes.reverse.map (·.id) = List.range t.next := by
  have hids : t.scopes.map (·.id) = (List.range (t.scopes.map (·.id)).length).reverse := by
    refine eq_reverse_range (List.pairwise_map.2 t.decreasing) ?_
    simp only [List.forall_mem_map, List.length_map]
    exact t.id_lt
  rw [List.map_reverse, hids, List.reverse_reverse, List.length_map]
  rfl

theorem scope?_eq_some_iff (t : ScopeTree) {id : ScopeId} {s : Scope} :
    t.scope? id = some s ↔ s ∈ t.scopes ∧ s.id = id := by
  have hplace : ∀ j s, t.scope? j = some s → s.id = j := by
    intro j s hs
    have hid := congrArg (·[j]?) t.map_id_reverse
    simp only [List.getElem?_map] at hid
    rw [scope?] at hs
    rw [hs, Option.map_some] at hid
    obtain ⟨hlt, hj⟩ := List.getElem?_eq_some_iff.1 hid.symm
    rw [← hj, List.getElem_range]
  constructor
  · intro hs
    exact ⟨List.mem_reverse.1 (List.mem_of_getElem? hs), hplace id s hs⟩
  · rintro ⟨hs, rfl⟩
    obtain ⟨j, hj⟩ := List.getElem?_of_mem (List.mem_reverse.2 hs)
    rwa [hplace j s hj]

/-! ## The way by numbers -/

/-- From a scope, the scopes that one meets by following the numbers of parents until there is no
parent. -/
inductive Way (t : ScopeTree) : Option ScopeId → List Scope → Prop
  | done : Way t none []
  | step {id : ScopeId} {s : Scope} {outer : List Scope} :
      t.scope? id = some s → Way t s.parent outer → Way t (some id) (s :: outer)

theorem outwards_none (scopes : List Scope) : outwards scopes none = [] := by
  induction scopes with
  | nil => rfl
  | cons s older ih => rw [outwards, if_neg (Option.some_ne_none s.id).symm, ih]

theorem head?_outwards {scopes : List Scope} {s : Scope}
    (hd : scopes.Pairwise fun newer older => older.id < newer.id) (hs : s ∈ scopes) :
    (outwards scopes (some s.id)).head? = some s := by
  induction scopes with
  | nil => cases hs
  | cons newest older ih =>
    obtain ⟨hnewest, hd⟩ := List.pairwise_cons.1 hd
    rcases List.mem_cons.1 hs with rfl | hs
    · rw [outwards, if_pos rfl]
      rfl
    · rw [outwards_cons_of_lt]
      · exact ih hd hs
      · rintro p ⟨⟩
        exact hnewest s hs

/-- The way from the scope with a number begins there and goes on from its parent. -/
theorem outwards_some (t : ScopeTree) {id : ScopeId} {s : Scope}
    (hs : t.scope? id = some s) :
    outwards t.scopes (some id) = s :: outwards t.scopes s.parent := by
  obtain ⟨hmem, rfl⟩ := t.scope?_eq_some_iff.1 hs
  obtain ⟨outer, houter⟩ := List.head?_eq_some_iff.1 (head?_outwards t.decreasing hmem)
  rw [houter, outwards_tail t.decreasing t.parent_lt houter]

theorem exists_scope? {t : ScopeTree} {id : ScopeId} (hid : id < t.next) :
    ∃ s, t.scope? id = some s := by
  have hlt : id < t.scopes.reverse.length := by rwa [List.length_reverse]
  exact ⟨_, List.getElem?_eq_getElem hlt⟩

/-- The way has an end, since each parent has a smaller number. -/
theorem way_outwards (t : ScopeTree) (id : ScopeId) (hid : id < t.next) :
    t.Way (some id) (outwards t.scopes (some id)) := by
  induction id using Nat.strongRecOn with
  | _ id ih =>
    obtain ⟨s, hs⟩ := exists_scope? hid
    obtain ⟨hmem, rfl⟩ := t.scope?_eq_some_iff.1 hs
    rw [t.outwards_some hs]
    refine .step hs ?_
    cases hp : s.parent with
    | none =>
      rw [outwards_none]
      exact .done
    | some p =>
      have hlt : p < s.id := t.parent_lt s hmem p hp
      exact ih p hlt (Nat.lt_trans hlt hid)

theorem way_chain (t : ScopeTree) : t.Way t.current t.chain := by
  unfold chain
  cases hc : t.current with
  | none =>
    rw [outwards_none]
    exact .done
  | some c => exact t.way_outwards c (t.current_lt c hc)

/-- The current scope is where the chain begins. -/
theorem current_eq (t : ScopeTree) : t.current = t.chain.head?.map (·.id) := by
  have hway := t.way_chain
  generalize t.current = current, t.chain = chain at hway
  cases hway with
  | done => rfl
  | step hs _ => exact congrArg some (t.scope?_eq_some_iff.1 hs).2.symm

/-! ## Several declarations -/

/-- The tree after attempts to bind the names of declarations one after the other. -/
def declaredAll (t : ScopeTree) (entries : List (VarDecl × SymbolId)) : ScopeTree :=
  entries.foldl (fun t (v, symbol) => t.declared v.name ⟨symbol, v.span⟩) t

end ScopeTree

end HandleLint
