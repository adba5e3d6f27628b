import HandleLint.Proofs.Anchors

/-!
# Candidates that are returned

A return takes its local out of the candidates. That is all it does: nothing is kept about the
local, so a binding that opens a new handle for it makes it a candidate again. A returned local
stays out just as long as no such binding follows.

* `Finder.candidatesAfter`: the candidates of a method part of the way through its body;
* `Finder.tracks_candidatesAfter`: what they are, by the events met so far;
* `Tracks.mem_symbols_of_returned_iff`: when a local is among them in spite of a return;
* `Finder.contains_of_returned_iff`: what becomes of a returned local in the rest of the body.
-/

namespace HandleLint

namespace Watch

variable {w : Watch} {events : List Event} {event : Event} {id : SymbolId} {c : Creation}
  {i j : Nat}

/-- A local that is held in spite of a return is held from a later position on. -/
theorem HeldFrom.lt_of_returns (h : w.HeldFrom events id c j) (he : events[i]? = some event)
    (hr : w.Returns id event) : i < j := by
  rcases Nat.lt_trichotomy i j with hlt | rfl | hgt
  · exact hlt
  · obtain ⟨event', he', ho⟩ := h.opens
    cases he.symm.trans he'
    exact absurd ho hr.not_opens
  · exact absurd ⟨i, event, hgt, he, hr⟩ h.kept

end Watch

/-- Once a local was returned, it is a candidate only by a later binding that opens a handle for it
and that no return of the local follows. -/
theorem Tracks.mem_symbols_of_returned_iff {w : Watch} {events : List Event} {event : Event}
    {set : CandidateSet} {id : SymbolId} {i : Nat} (h : Tracks w events set)
    (he : events[i]? = some event) (hr : w.Returns id event) :
    id ∈ set.symbols ↔
      ∃ j c, i < j ∧ w.OpensAt events id c j ∧ ¬ w.ReturnedAfter events id j := by
  rw [h.mem_symbols_iff]
  constructor
  · rintro ⟨c, j, hj⟩
    exact ⟨j, c, hj.lt_of_returns he hr, hj.opens, hj.kept⟩
  · rintro ⟨j, c, -, ho, hk⟩
    exact Watch.exists_heldFrom ho hk

namespace Finder

variable {w : Watch} {f : Finder}

/-- The candidates of a method when the first `n` events of its body have been met. -/
def candidatesAfter (w : Watch) (f : Finder) (m : MethodDecl) (n : Nat) : CandidateSet :=
  (((eventsOf .skip (m.body.getD [])).take n).foldl
    (fun (set, f) event => step w m.name set f event) ({}, f)).1

theorem tracks_candidatesAfter (hf : Sound w f) (m : MethodDecl) (n : Nat) :
    Tracks w ((eventsOf .skip (m.body.getD [])).take n) (f.candidatesAfter w m n) :=
  (tracks_foldl_step hf _ _).2

/-- At the end of the body these are the candidates of the method. -/
theorem candidatesAfter_length (w : Watch) (f : Finder) (m : MethodDecl) :
    f.candidatesAfter w m (eventsOf .skip (m.body.getD [])).length = (f.find w m).1 := by
  rw [candidatesAfter, List.take_length, find_eq_foldl]

/-- Every finding of a method is on one of its candidates. -/
theorem exists_candidate_of_mem_checkMethod (hf : Sound w f) {rules : List Rule} {m : MethodDecl}
    {x : Finding} (hx : x ∈ (f.checkMethod w rules m).1) :
    ∃ candidate ∈ (f.find w m).1.entries, x ∈ w.findingsOn rules m candidate := by
  rw [(checkMethod_eq hf rules m).2, ← find_eq_candidates hf m] at hx
  exact List.mem_flatMap.1 hx

/-- From a return of a local on, the local is a candidate exactly while some binding after the
return has opened a handle for it and no return of it has followed. So it is a candidate of the
method, by whatever finder, only if such a binding stands in the rest of the body; where none does,
the method has no finding on it. -/
theorem contains_of_returned_iff (order : ClassOrder) (u : CompilationUnit)
    (signatures : Signatures) (resource : ResourceConfig) (m : MethodDecl) (id : SymbolId) (i : Nat)
    (value : Expr) (f : Finder) :
    let w : Watch := { model := (resolve order u signatures).model, resource }
    let events := eventsOf .skip (m.body.getD [])
    Reached w f → events[i]? = some (.returned value) → w.model.identReference? value = some id →
    (∀ n, i < n → ((f.candidatesAfter w m n).contains id = true ↔
      ∃ j c, i < j ∧ w.OpensAt (events.take n) id c j ∧
        ¬ w.ReturnedAfter (events.take n) id j)) ∧
    ((f.find w m).1.contains id = true ↔
      ∃ j c, i < j ∧ w.OpensAt events id c j ∧ ¬ w.ReturnedAfter events id j) ∧
    ((f.find w m).1.contains id = false → ∀ rules, ∀ x ∈ (f.checkMethod w rules m).1,
      ∃ candidate ∈ (f.find w m).1.entries, candidate.1 ≠ id ∧
        x ∈ w.findingsOn rules m candidate) := by
  intro w events hf he hid
  have hr : w.Returns id (.returned value) := ⟨value, rfl, hid⟩
  have hpartial : ∀ n, i < n → ((f.candidatesAfter w m n).contains id = true ↔
      ∃ j c, i < j ∧ w.OpensAt (events.take n) id c j ∧
        ¬ w.ReturnedAfter (events.take n) id j) := by
    intro n hn
    have hmet : (events.take n)[i]? = some (.returned value) := by
      rw [List.getElem?_take_of_lt hn, he]
    rw [CandidateSet.contains_iff]
    exact (tracks_candidatesAfter hf.sound m n).mem_symbols_of_returned_iff hmet hr
  refine ⟨hpartial, ?_, fun hout rules x hx => ?_⟩
  · have hlast := hpartial events.length (List.getElem?_eq_some_iff.1 he).1
    rwa [candidatesAfter_length, List.take_length] at hlast
  · obtain ⟨candidate, hm, hx⟩ := exists_candidate_of_mem_checkMethod hf.sound hx
    refine ⟨candidate, hm, ?_, hx⟩
    rintro rfl
    have hin : (f.find w m).1.contains candidate.1 = true :=
      CandidateSet.contains_iff.2 (List.mem_map.2 ⟨candidate, hm, rfl⟩)
    rw [hout] at hin
    cases hin

end Finder

/-- A method that returns its handle, or else opens another one and leaves it open. -/
def reopening : MethodDecl where
  site := ⟨1, {}⟩
  name := "reopen"
  params := [⟨⟨2, {}⟩, "done", "boolean", none⟩]
  returnType := some "Handle"
  body := some [
    .localVar ⟨3, {}⟩ ⟨⟨4, {}⟩, "h", "Handle", some (poolCall 5)⟩,
    .ifStmt ⟨7, {}⟩ (.ident ⟨8, {}⟩ "done")
      [.returnStmt ⟨9, {}⟩ (some (.ident ⟨10, {}⟩ "h"))] none,
    .exprStmt ⟨11, {}⟩ (.assign ⟨12, {}⟩ (.ident ⟨13, {}⟩ "h") (poolCall 14))]

def reopeningUnit : CompilationUnit where
  package := some "p"
  imports := ["p.Pool", "p.Handle"]
  classes := [{
    site := ⟨0, {}⟩, name := "A", fields := [], methods := [reopening], nested := [] }]

def reopeningWatch : Watch where
  model := (resolve .increasing reopeningUnit poolSignatures).model
  resource := poolResource

/-- The return of `h` leaves it out, and the binding after the return brings it back. -/
theorem contains_of_returned_iff_reopeningUnit :
    let w := reopeningWatch
    let events := eventsOf .skip (reopening.body.getD [])
    let h := Expr.ident ⟨10, {}⟩ "h"
    Finder.Reached w {} ∧ events[2]? = some (.returned h) ∧ w.model.identReference? h = some 3 ∧
    (Finder.candidatesAfter w {} reopening 3).contains 3 = false ∧
    ∃ j c, 2 < j ∧ w.OpensAt events 3 c j ∧ ¬ w.ReturnedAfter events 3 j := by
  intro w events h
  have hid : w.model.identReference? h = some 3 := by decide +kernel
  obtain ⟨hpartial, hfind, -⟩ := Finder.contains_of_returned_iff .increasing reopeningUnit
      poolSignatures
    poolResource reopening 3 2 h {} .fresh rfl hid
  refine ⟨.fresh, rfl, hid, ?_, hfind.1 (by decide +kernel)⟩
  rw [Bool.eq_false_iff]
  intro hin
  obtain ⟨j, c, hlt, ho, -⟩ := (hpartial 3 (by decide)).1 hin
  have hj : j < 3 := Nat.lt_of_lt_of_le ho.lt_length (List.length_take_le 3 events)
  omega

/-- When `h` is returned it is a candidate. It is one again at the end of the body, and the method
has a finding on it. -/
theorem find_reopeningUnit :
    let w := reopeningWatch
    let h := Expr.ident ⟨10, {}⟩ "h"
    (eventsOf .skip (reopening.body.getD []))[2]? = some (.returned h) ∧
    w.model.identReference? h = some 3 ∧
    (Finder.candidatesAfter w {} reopening 2).contains 3 = true ∧
    (Finder.find w reopening {}).1.contains 3 = true ∧
    ((Finder.checkMethod w Rule.all reopening {}).1.map fun x => (x.anchor, x.var, x.rule)) =
      [(4, "h", "resource/unclosed")] := by
  refine ⟨rfl, ?_⟩
  decide +kernel

end HandleLint
