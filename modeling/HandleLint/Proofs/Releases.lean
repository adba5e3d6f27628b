import HandleLint.Lifecycle.Outcome
import HandleLint.Proofs.Occurrence

/-!
# Releases anywhere in a body

`Releases.ofBody` goes through the events of a body and keeps the first release of each local. What
it knows of a local is whether a call that releases the local occurs in the body, at any depth:

* `Watch.ReleasedIn`: a release method is called on the local, without arguments;
* `Watch.HandedOffIn`: the local is passed to a release method or a release helper;
* `Releases.calls_ofBody_iff`, `Releases.handedOff_ofBody_iff`: the two tables say just that.
-/

namespace HandleLint

namespace Watch

/-- Somewhere in the body a release method is called without arguments on an identifier that refers
to the local. -/
def ReleasedIn (w : Watch) (body : List Stmt) (id : SymbolId) : Prop :=
  ∃ site receiver name, Stmt.Occurs body (.call site (some receiver) name []) ∧
    name ∈ w.resource.releaseMethods ∧ w.model.identReference? receiver = some id

/-- Somewhere in the body a release method or a release helper is called with an identifier that
refers to the local among its arguments. -/
def HandedOffIn (w : Watch) (body : List Stmt) (id : SymbolId) : Prop :=
  ∃ site receiver name args, Stmt.Occurs body (.call site receiver name args) ∧
    (name ∈ w.resource.releaseMethods ∨ name ∈ w.resource.releaseHelpers) ∧
    ∃ arg ∈ args, w.model.identReference? arg = some id

/-- The event releases the local in place. -/
def Releases (w : Watch) (id : SymbolId) (event : Event) : Prop :=
  ∃ site receiver name, event = .call site (some receiver) name [] ∧
    w.resource.isRelease name = true ∧ w.model.identReference? receiver = some id

/-- The event passes the local on for release. -/
def HandsOff (w : Watch) (id : SymbolId) (event : Event) : Prop :=
  ∃ site receiver name args, event = .call site receiver name args ∧
    w.resource.isReleaseHelper name = true ∧ ∃ arg ∈ args, w.model.identReference? arg = some id

end Watch

namespace Releases

variable {w : Watch} {rs : Releases} {id : SymbolId}

theorem isSome_get?_insertIfNew (t : Table SymbolId Span) (k : SymbolId) (span : Span) :
    ((t.insertIfNew k span).get? id).isSome = true ↔ (t.get? id).isSome = true ∨ k = id := by
  rw [Table.get?_insertIfNew]
  by_cases h : id = k
  · simp [h]
  · simp [h, Ne.symm h]

theorem calls_foldl_handOff (ids : List SymbolId) (span : Span) (n : SymbolId → Note) :
    (ids.foldl (fun rs id => rs.handOff id span (n id)) rs).calls = rs.calls := by
  induction ids generalizing rs with
  | nil => rfl
  | cons k ids ih => rw [List.foldl_cons, ih]; rfl

theorem handedOff_foldl_handOff (ids : List SymbolId) (span : Span) (n : SymbolId → Note) :
    ((ids.foldl (fun rs id => rs.handOff id span (n id)) rs).handedOff.get? id).isSome = true ↔
      (rs.handedOff.get? id).isSome = true ∨ id ∈ ids := by
  induction ids generalizing rs with
  | nil => simp
  | cons k ids ih =>
    rw [List.foldl_cons, ih, handOff, isSome_get?_insertIfNew, List.mem_cons, or_assoc,
      @eq_comm _ k]

/-- What one event adds to the two tables. -/
theorem step_iff (method : String) (event : Event) :
    (((step w method rs event).calls.get? id).isSome = true ↔
      (rs.calls.get? id).isSome = true ∨ w.Releases id event) ∧
    (((step w method rs event).handedOff.get? id).isSome = true ↔
      (rs.handedOff.get? id).isSome = true ∨ w.HandsOff id event) := by
  cases event with
  | bind target value =>
    refine ⟨(or_iff_left ?_).symm, (or_iff_left ?_).symm⟩
    · rintro ⟨site, receiver, name, he, -⟩
      cases he
    · rintro ⟨site, receiver, name, args, he, -⟩
      cases he
  | returned value =>
    refine ⟨(or_iff_left ?_).symm, (or_iff_left ?_).symm⟩
    · rintro ⟨site, receiver, name, he, -⟩
      cases he
    · rintro ⟨site, receiver, name, args, he, -⟩
      cases he
  | call site receiver name args =>
    have hrel : w.Releases id (.call site receiver name args) ↔
        args = [] ∧ w.resource.isRelease name = true ∧ receiver? w receiver = some id := by
      constructor
      · rintro ⟨site', receiver', name', he, hn, hr⟩
        cases he
        exact ⟨rfl, hn, hr⟩
      · rintro ⟨rfl, hn, hr⟩
        obtain ⟨e, rfl, he⟩ := Option.bind_eq_some_iff.1 hr
        exact ⟨site, e, name, rfl, hn, he⟩
    have hoff : w.HandsOff id (.call site receiver name args) ↔
        w.resource.isReleaseHelper name = true ∧ id ∈ args.filterMap w.model.identReference? := by
      rw [List.mem_filterMap]
      constructor
      · rintro ⟨site', receiver', name', args', he, hn, ha⟩
        cases he
        exact ⟨hn, ha⟩
      · rintro ⟨hn, ha⟩
        exact ⟨site, receiver, name, args, rfl, hn, ha⟩
    rw [hrel, hoff]
    by_cases hc : args = [] ∧ w.resource.isRelease name = true
    · -- without arguments there is nothing to pass on
      obtain ⟨rfl, hn⟩ := hc
      simp only [step, List.isEmpty_nil, hn, Bool.and_self, if_true]
      cases hr : receiver? w receiver with
      | none => simp
      | some k => simp [release, isSome_get?_insertIfNew]
    · have hc' : (args.isEmpty && w.resource.isRelease name) = false := by
        simpa [List.isEmpty_iff] using hc
      simp only [step, hc', Bool.false_eq_true, if_false]
      have hno : ¬ (args = [] ∧ w.resource.isRelease name = true ∧
          receiver? w receiver = some id) :=
        fun h => hc ⟨h.1, h.2.1⟩
      by_cases hh : w.resource.isReleaseHelper name = true
      · rw [if_pos hh, calls_foldl_handOff, handedOff_foldl_handOff]
        simp [hno, hh]
      · rw [if_neg hh]
        simp [hno, hh]

theorem foldl_step_iff (method : String) (events : List Event) :
    (((events.foldl (step w method) rs).calls.get? id).isSome = true ↔
      (rs.calls.get? id).isSome = true ∨ ∃ event ∈ events, w.Releases id event) ∧
    (((events.foldl (step w method) rs).handedOff.get? id).isSome = true ↔
      (rs.handedOff.get? id).isSome = true ∨ ∃ event ∈ events, w.HandsOff id event) := by
  induction events generalizing rs with
  | nil => simp
  | cons event rest ih =>
    obtain ⟨hc, hh⟩ := @step_iff w rs id method event
    obtain ⟨hc', hh'⟩ := @ih (step w method rs event)
    rw [List.foldl_cons, hc', hh', hc, hh]
    simp only [List.mem_cons, or_and_right, exists_or, exists_eq_left, or_assoc, and_self]

theorem calls_ofBody_iff (w : Watch) (method : String) (body : List Stmt) (id : SymbolId) :
    ((ofBody w method body).calls.get? id).isSome = true ↔ w.ReleasedIn body id := by
  rw [ofBody, (foldl_step_iff method _).1]
  constructor
  · rintro (h | ⟨event, hm, site, receiver, name, rfl, hn, hr⟩)
    · cases h
    · exact ⟨site, receiver, name, call_mem_eventsOf_iff.1 hm, List.contains_iff_mem.1 hn, hr⟩
  · rintro ⟨site, receiver, name, ho, hn, hr⟩
    exact .inr ⟨_, call_mem_eventsOf_iff.2 ho, site, receiver, name, rfl,
      List.contains_iff_mem.2 hn, hr⟩

theorem handedOff_ofBody_iff (w : Watch) (method : String) (body : List Stmt) (id : SymbolId) :
    ((ofBody w method body).handedOff.get? id).isSome = true ↔ w.HandedOffIn body id := by
  have hname : ∀ name, w.resource.isReleaseHelper name = true ↔
      name ∈ w.resource.releaseMethods ∨ name ∈ w.resource.releaseHelpers := by
    intro name
    simp [ResourceConfig.isReleaseHelper, ResourceConfig.isRelease]
  rw [ofBody, (foldl_step_iff method _).2]
  constructor
  · rintro (h | ⟨event, hm, site, receiver, name, args, rfl, hn, ha⟩)
    · cases h
    · exact ⟨site, receiver, name, args, call_mem_eventsOf_iff.1 hm, (hname name).1 hn, ha⟩
  · rintro ⟨site, receiver, name, args, ho, hn, ha⟩
    exact .inr ⟨_, call_mem_eventsOf_iff.2 ho, site, receiver, name, args, rfl,
      (hname name).2 hn, ha⟩

section Congr

variable {w w' : Watch} {method method' : String} {body body' : List Stmt} {id id' : SymbolId}

theorem calls_ofBody_congr (h : w'.ReleasedIn body' id' ↔ w.ReleasedIn body id) :
    ((ofBody w' method' body').calls.get? id').isSome =
      ((ofBody w method body).calls.get? id).isSome := by
  rw [Bool.eq_iff_iff, calls_ofBody_iff, calls_ofBody_iff]
  exact h

theorem handedOff_ofBody_congr (h : w'.HandedOffIn body' id' ↔ w.HandedOffIn body id) :
    ((ofBody w' method' body').handedOff.get? id').isSome =
      ((ofBody w method body).handedOff.get? id).isSome := by
  rw [Bool.eq_iff_iff, handedOff_ofBody_iff, handedOff_ofBody_iff]
  exact h

end Congr

end Releases

end HandleLint
