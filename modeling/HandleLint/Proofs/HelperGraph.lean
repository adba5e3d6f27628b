import HandleLint.Handles.HelperGraph
import Mathlib.Data.Set.Insert
import Mathlib.Logic.Relation

/-!
# Reaching the factory in the helper graph

The graph behind `Watch.sources`, said without an order of search. A method *supplies* a value when
its body binds that value to the variable that it returns; it creates handles directly when it
supplies a call of the factory, and leads to another method when it supplies a bare call of it.

* `Watch.ReachesFactory`: from a method, some way through the graph leads to one that creates
  handles directly;
* `Watch.ReachesOutside`: the same, on a way that keeps out of given methods;
* `Watch.sources_factory_iff`, `Watch.LeadsTo.mem_sources`: the sources of a method are its
  supplies;
* `Watch.reachesOutside_cases`: a way from a method need not come back to it.
-/

namespace HandleLint

namespace Watch

variable {w : Watch}

/-- The body's first `return` of an identifier that refers to something refers to the variable. -/
def ReturnsFirst (w : Watch) (body : List Stmt) (id : SymbolId) : Prop :=
  ∃ before value after, eventsOf .visit body = before ++ .returned value :: after ∧
    w.model.identReference? value = some id ∧
    ∀ earlier, .returned earlier ∈ before → w.model.identReference? earlier = none

/-- The body of a method, resource lists left out, binds the value to the local that the method
returns first. -/
def Supplies (w : Watch) (method : SymbolId) (value : Expr) : Prop :=
  ∃ body id target, w.model.body? method = some body ∧ w.ReturnsFirst body id ∧
    .bind target value ∈ eventsOf .skip body ∧ w.boundLocal? target = some id

def CreatesDirectly (w : Watch) (method : SymbolId) : Prop :=
  ∃ value, w.Supplies method value ∧ w.isFactoryCall value = true

/-- An edge of the graph: what a method returns may come from the other. -/
def LeadsTo (w : Watch) (method next : SymbolId) : Prop :=
  ∃ value, w.Supplies method value ∧ w.localHelper? value = some next

/-- A way through the graph, of any length, ends in a method that creates handles directly. -/
def ReachesFactory (w : Watch) (method : SymbolId) : Prop :=
  ∃ last, Relation.ReflTransGen w.LeadsTo method last ∧ w.CreatesDirectly last

/-- How a value comes to be a new handle: the factory makes it, or a method from which the factory
is reached. -/
def CreatesAs (w : Watch) (value : Expr) : Creation → Prop
  | .factory => w.isFactoryCall value = true
  | .helper method => w.isFactoryCall value = false ∧ w.localHelper? value = some method ∧
      w.ReachesFactory method

/-! ## Sources and supplies -/

theorem returnedVariable?_eq_some_iff {body : List Stmt} {id : SymbolId} :
    w.returnedVariable? body = some id ↔ w.ReturnsFirst body id := by
  simp only [returnedVariable?, List.findSome?_eq_some_iff, ReturnsFirst]
  constructor
  · rintro ⟨before, event, after, he, hid, hb⟩
    cases event with
    | returned value => exact ⟨before, value, after, he, hid, fun e hm => hb _ hm⟩
    | bind target value => cases hid
    | call site receiver method args => cases hid
  · rintro ⟨before, value, after, he, hid, hb⟩
    refine ⟨before, .returned value, after, he, hid, fun event hm => ?_⟩
    cases event with
    | returned earlier => exact hb earlier hm
    | bind target value => rfl
    | call site receiver method args => rfl

theorem sourceOf?_eq_some_iff {id : SymbolId} {event : Event} {source : Creation} :
    w.sourceOf? id event = some source ↔
      ∃ target value, event = .bind target value ∧ w.boundLocal? target = some id ∧
        w.source? value = some source := by
  cases event with
  | bind target value =>
    simp only [sourceOf?, Option.ite_none_right_eq_some]
    constructor
    · rintro ⟨ht, hv⟩
      exact ⟨target, value, rfl, ht, hv⟩
    · rintro ⟨target', value', he, ht, hv⟩
      cases he
      exact ⟨ht, hv⟩
  | returned value => simp [sourceOf?]
  | call site receiver method args => simp [sourceOf?]

/-- The sources of a method are what its supplies come from. -/
theorem mem_sources_iff {method : SymbolId} {source : Creation} :
    source ∈ w.sources method ↔
      ∃ value, w.Supplies method value ∧ w.source? value = some source := by
  unfold sources
  constructor
  · intro h
    cases hbody : w.model.body? method with
    | none => simp [hbody] at h
    | some body =>
    cases hid : w.returnedVariable? body with
    | none => simp [hbody, hid] at h
    | some id =>
    simp only [hbody, hid] at h
    obtain ⟨event, hmem, hs⟩ := List.mem_filterMap.1 h
    obtain ⟨target, value, rfl, ht, hv⟩ := sourceOf?_eq_some_iff.1 hs
    exact ⟨value, ⟨body, id, target, hbody, returnedVariable?_eq_some_iff.1 hid, hmem, ht⟩, hv⟩
  · rintro ⟨value, ⟨body, id, target, hbody, hid, hmem, ht⟩, hv⟩
    simp only [hbody, returnedVariable?_eq_some_iff.2 hid]
    exact List.mem_filterMap.2 ⟨_, hmem, sourceOf?_eq_some_iff.2 ⟨target, value, rfl, ht, hv⟩⟩

theorem source?_eq_factory_iff {value : Expr} :
    w.source? value = some .factory ↔ w.isFactoryCall value = true := by
  simp [source?]

theorem source?_eq_helper_iff {value : Expr} {method : SymbolId} :
    w.source? value = some (.helper method) ↔
      w.isFactoryCall value = false ∧ w.localHelper? value = some method := by
  cases h : w.isFactoryCall value <;> simp [source?, h]

theorem sources_factory_iff {method : SymbolId} :
    .factory ∈ w.sources method ↔ w.CreatesDirectly method := by
  simp only [mem_sources_iff, source?_eq_factory_iff, CreatesDirectly]

theorem leadsTo_of_mem_sources {method next : SymbolId} (h : .helper next ∈ w.sources method) :
    w.LeadsTo method next := by
  obtain ⟨value, hs, hv⟩ := mem_sources_iff.1 h
  exact ⟨value, hs, (source?_eq_helper_iff.1 hv).2⟩

/-- An edge is a source of the method, unless its call is one of the factory at the same time. -/
theorem LeadsTo.mem_sources {method next : SymbolId} (h : w.LeadsTo method next) :
    .helper next ∈ w.sources method ∨ w.CreatesDirectly method := by
  obtain ⟨value, hs, hv⟩ := h
  cases hf : w.isFactoryCall value with
  | true => exact .inr ⟨value, hs, hf⟩
  | false => exact .inl (mem_sources_iff.2 ⟨value, hs, source?_eq_helper_iff.2 ⟨hf, hv⟩⟩)

/-- The factory is reached through sources alone. -/
theorem reachesFactory_iff_sources {method : SymbolId} :
    w.ReachesFactory method ↔ ∃ last,
      Relation.ReflTransGen (fun a b => .helper b ∈ w.sources a) method last ∧
      .factory ∈ w.sources last := by
  constructor
  · rintro ⟨last, hw, hd⟩
    induction hw using Relation.ReflTransGen.head_induction_on with
    | refl => exact ⟨last, .refl, sources_factory_iff.2 hd⟩
    | head he _ ih =>
      obtain ⟨last', hw', hf⟩ := ih
      rcases he.mem_sources with he | hd'
      · exact ⟨last', .head he hw', hf⟩
      · exact ⟨_, .refl, sources_factory_iff.2 hd'⟩
  · rintro ⟨last, hw, hf⟩
    have hways := Relation.ReflTransGen.mono (fun _ _ => leadsTo_of_mem_sources) _ _ hw
    exact ⟨last, hways, sources_factory_iff.1 hf⟩

theorem not_mem_helpers_iff {method : SymbolId} :
    method ∉ w.helpers ↔ w.model.body? method = none := by
  constructor
  · intro h
    cases hb : w.model.body? method with
    | none => rfl
    | some body =>
      refine absurd (List.mem_filter.2 ⟨?_, by rw [hb]; rfl⟩) h
      obtain ⟨m, hm, -⟩ := Option.bind_eq_some_iff.1 hb
      obtain ⟨l₁, l₂, hl, -⟩ := List.lookup_eq_some_iff.1 hm
      exact List.mem_map.2 ⟨(method, m), by rw [hl]; simp, rfl⟩
  · intro hb h
    have := (List.mem_filter.1 h).2
    rw [hb] at this
    cases this

theorem sources_eq_nil_of_not_mem_helpers {method : SymbolId} (h : method ∉ w.helpers) :
    w.sources method = [] := by
  simp only [sources, not_mem_helpers_iff.1 h]

theorem mem_helpers_of_mem_sources {method : SymbolId} {source : Creation}
    (h : source ∈ w.sources method) : method ∈ w.helpers := by
  by_contra hm
  rw [sources_eq_nil_of_not_mem_helpers hm] at h
  cases h

/-! ## Ways that keep out of some methods -/

/-- From a method, a way that keeps out of the methods in `closed` leads to one that creates handles
directly. -/
inductive ReachesOutside (w : Watch) (closed : Set SymbolId) : SymbolId → Prop
  | here {method : SymbolId} : method ∉ closed → w.CreatesDirectly method →
      ReachesOutside w closed method
  | step {method next : SymbolId} : method ∉ closed → w.LeadsTo method next →
      ReachesOutside w closed next → ReachesOutside w closed method

theorem ReachesOutside.mono {closed closed' : Set SymbolId} {method : SymbolId}
    (h : w.ReachesOutside closed method) (hsub : closed' ⊆ closed) :
    w.ReachesOutside closed' method := by
  induction h with
  | here hm hd => exact .here (fun hc => hm (hsub hc)) hd
  | step hm he _ ih => exact .step (fun hc => hm (hsub hc)) he ih

theorem not_reachesOutside_of_mem {closed : Set SymbolId} {method : SymbolId}
    (h : method ∈ closed) : ¬ w.ReachesOutside closed method := by
  intro hr
  cases hr with
  | here hm _ => exact hm h
  | step hm _ _ => exact hm h

theorem reachesOutside_empty_iff {method : SymbolId} :
    w.ReachesOutside ∅ method ↔ w.ReachesFactory method := by
  constructor
  · intro h
    induction h with
    | here _ hd => exact ⟨_, .refl, hd⟩
    | step _ he _ ih =>
      obtain ⟨last, hw, hd⟩ := ih
      exact ⟨last, .head he hw, hd⟩
  · rintro ⟨last, hw, hd⟩
    induction hw using Relation.ReflTransGen.head_induction_on with
    | refl => exact .here (Set.notMem_empty _) hd
    | head he _ ih => exact .step (Set.notMem_empty _) he ih

/-- A way from anywhere either never meets `pivot`, or a way from `pivot` never comes back to it. -/
theorem reachesOutside_insert_or {closed : Set SymbolId} (pivot : SymbolId) {method : SymbolId}
    (h : w.ReachesOutside closed method) :
    w.ReachesOutside (insert pivot closed) method ∨ w.CreatesDirectly pivot ∨
      ∃ next, w.LeadsTo pivot next ∧ w.ReachesOutside (insert pivot closed) next := by
  induction h with
  | @here method hm hd =>
    by_cases he : method = pivot
    · exact .inr (.inl (he ▸ hd))
    · exact .inl (.here (by simp [he, hm]) hd)
  | @step method next hm hl _ ih =>
    rcases ih with ih | ih
    · by_cases he : method = pivot
      · exact .inr (.inr ⟨next, he ▸ hl, ih⟩)
      · exact .inl (.step (by simp [he, hm]) hl ih)
    · exact .inr ih

/-- A method from which the factory is reached creates handles directly, or leads to another from
which the factory is reached without coming back. -/
theorem reachesOutside_cases {closed : Set SymbolId} {method : SymbolId}
    (h : w.ReachesOutside closed method) :
    w.CreatesDirectly method ∨
      ∃ next, w.LeadsTo method next ∧ w.ReachesOutside (insert method closed) next := by
  rcases reachesOutside_insert_or method h with h | h
  · exact absurd h (not_reachesOutside_of_mem (Set.mem_insert _ _))
  · exact h

end Watch

end HandleLint
