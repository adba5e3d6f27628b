import HandleLint.Proofs.Candidates
import HandleLint.Resolution.Resolver

/-!
# Finders that have answered questions

A finder is asked for candidates and for verdicts on methods, in any order, and remembers what it
settled on the way. What it was asked before never shows in an answer:

* `Finder.after`: a finder after a sequence of questions;
* `Finder.helperCreates_after_iff`: its verdict on a method is reachability in the helper graph;
* `Finder.find_after_iff`: its candidates of a method are those that the positions of events give.
-/

namespace HandleLint.Finder

variable {w : Watch} {f : Finder}

/-- A question that a finder may be asked. -/
inductive Query
  | find (method : MethodDecl)
  | declarations (method : MethodDecl)
  | helperCreates (helper : SymbolId)

/-- What a finder remembers once it has answered a question. -/
def ask (w : Watch) (f : Finder) : Query → Finder
  | .find method => (f.find w method).2
  | .declarations method => (f.declarations w method).2
  | .helperCreates helper => (f.helperCreates w helper).2

/-- A finder that has answered questions, from a fresh one on. -/
def after (w : Watch) (queries : List Query) : Finder :=
  queries.foldl (ask w) {}

theorem Sound.ask (hf : Sound w f) (query : Query) : Sound w (f.ask w query) := by
  cases query with
  | find method => exact hf.find method
  | declarations method => exact hf.find method
  | helperCreates helper => exact hf.helperCreates helper

theorem sound_after (w : Watch) (queries : List Query) : Sound w (after w queries) :=
  List.foldlRecOn queries (Finder.ask w) (sound_fresh w) fun _ hf query _ => hf.ask query

/-- Whatever a finder was asked before, in whatever order, its verdict on a method is whether the
factory is reached from it. -/
theorem helperCreates_after_iff (order : ClassOrder) (u : CompilationUnit) (signatures : Signatures)
    (resource : ResourceConfig) (queries : List Query) (helper : SymbolId) :
    let w : Watch := { model := (resolve order u signatures).model, resource }
    ((after w queries).helperCreates w helper).1 = true ↔ w.ReachesFactory helper :=
  helperCreates_iff (sound_after _ queries) helper

/-- Whatever a finder was asked before, the candidates of a method are those that its events give:
* a local is a candidate if some binding opens a handle for it, by a call of the factory or of a
  method from which the factory is reached, and no return of the local follows;
* its creation is that of the first such binding;
* candidates stand in the order of these first bindings;
* a candidate is a variable of a body and not a resource of a `try`. -/
theorem find_after_iff (order : ClassOrder) (u : CompilationUnit) (signatures : Signatures)
    (resource : ResourceConfig) (queries : List Query) (method : MethodDecl) :
    let w : Watch := { model := (resolve order u signatures).model, resource }
    let events := eventsOf .skip (method.body.getD [])
    let set := ((after w queries).find w method).1
    (∀ id, set.contains id = true ↔
      ∃ (i : Nat) (target : BindTarget) (value : Expr), events[i]? = some (.bind target value) ∧
        w.boundLocal? target = some id ∧
        (w.isFactoryCall value = true ∨
          ∃ helper, w.localHelper? value = some helper ∧ w.ReachesFactory helper) ∧
        ∀ (j : Nat) (returned : Expr), i < j → events[j]? = some (.returned returned) →
          w.model.identReference? returned ≠ some id) ∧
    (∀ id c, set.creation? id = some c ↔ ∃ i, w.HeldFrom events id c i) ∧
    (set.entries.Pairwise fun a b =>
      ∀ i j, w.HeldFrom events a.1 a.2 i → w.HeldFrom events b.1 b.2 j → i < j) ∧
    (∀ id, set.contains id = true → ∃ symbol origin, w.model.symbol? id = some symbol ∧
      symbol.kind = .var origin ∧ origin ≠ .tryResource) := by
  intro w events set
  have h : Tracks w events set := tracks_find (sound_after w queries) method
  refine ⟨fun id => ?_, fun id c => h.creation?_eq_some_iff, h.ordered, fun id hm => ?_⟩
  · rw [CandidateSet.contains_iff, h.mem_symbols_iff]
    constructor
    · rintro ⟨c, i, hi⟩
      obtain ⟨event, he, target, value, rfl, ht, hv⟩ := hi.opens
      refine ⟨i, target, value, he, ht, Watch.exists_createsAs_iff.1 ⟨c, hv⟩, ?_⟩
      intro j returned hij hj hr
      exact hi.kept ⟨j, _, hij, hj, returned, rfl, hr⟩
    · rintro ⟨i, target, value, he, ht, hv, hkept⟩
      obtain ⟨c, hc⟩ := Watch.exists_createsAs_iff.2 hv
      refine Watch.exists_heldFrom ⟨_, he, target, value, rfl, ht, hc⟩ ?_
      rintro ⟨j, event, hij, hj, returned, rfl, hr⟩
      exact hkept j returned hij hj hr
  · obtain ⟨c, i, hi⟩ := h.mem_symbols_iff.1 (CandidateSet.contains_iff.1 hm)
    obtain ⟨event, -, target, value, -, ht, -⟩ := hi.opens
    exact (Watch.boundLocal?_eq_some_iff.1 ht).2

end HandleLint.Finder
