import HandleLint.Lifecycle.Finding
import HandleLint.Proofs.FinderRun
import HandleLint.Proofs.Releases

/-!
# What a unit is told

The findings of a unit, from what its bodies hold: each candidate of each method is judged on its
own, by the calls that occur in the body of the method.

* `IsStableSort`: an arrangement in order that keeps equals as they stood;
* `Watch.findingsOn`: the findings on one candidate;
* `Finder.checkMethods_eq_flatMap`: the findings of methods, whatever the finder was asked before;
* `Finder.Reached`: the finders there can be;
* `checkUnit_reports`: the findings of a unit.
-/

namespace HandleLint

/-! ## Order -/

/-- `ys` holds what `xs` holds, in order, and elements that stand for the same place in the order
stand as they do in `xs`. -/
structure IsStableSort {α : Type} (le : α → α → Bool) (xs ys : List α) : Prop where
  perm : ys.Perm xs
  ordered : ys.Pairwise fun a b => le a b = true
  stable : ∀ a, (ys.filter fun b => le a b && le b a) = xs.filter fun b => le a b && le b a

theorem isStableSort_mergeSort {α : Type} {le : α → α → Bool}
    (trans : ∀ a b c, le a b = true → le b c = true → le a c = true)
    (total : ∀ a b, (le a b || le b a) = true) (xs : List α) :
    IsStableSort le xs (xs.mergeSort le) := by
  refine ⟨List.mergeSort_perm xs le, List.pairwise_mergeSort trans total xs, fun a => ?_⟩
  have hperm := (List.mergeSort_perm xs le).filter fun b => le a b && le b a
  have hpair : (xs.filter fun b => le a b && le b a).Pairwise fun b c => le b c = true := by
    refine List.pairwise_of_forall_mem_list fun b hb c hc => ?_
    simp only [List.mem_filter, Bool.and_eq_true] at hb hc
    exact trans b a c hb.2.2 hc.2.1
  have hsub := (List.sublist_mergeSort trans total hpair List.filter_sublist).filter
    fun b => le a b && le b a
  rw [List.filter_filter] at hsub
  simp only [Bool.and_self] at hsub
  exact (hsub.eq_of_length hperm.length_eq.symm).symm

instance : Std.TransOrd Span :=
  inferInstanceAs (Std.TransCmp (compareLex (compareOn Span.start) (compareOn Span.stop)))

namespace Finding

/-- The order of findings: by span, then by rule. -/
def order : Finding → Finding → Ordering :=
  compareLex (compareOn span) (compareOn rule)

instance : Std.TransCmp order :=
  inferInstanceAs (Std.TransCmp (compareLex (compareOn span) (compareOn rule)))

theorem le_trans (a b c : Finding) (hab : a.le b = true) (hbc : b.le c = true) : a.le c = true :=
  (inferInstance : Std.TransCmp order).isLE_trans hab hbc

theorem le_total (a b : Finding) : (a.le b || b.le a) = true := by
  have hswap : order b a = (order a b).swap := Std.OrientedCmp.eq_swap
  show ((order a b).isLE || (order b a).isLE) = true
  rw [hswap]
  cases order a b <;> rfl

end Finding

/-! ## One method -/

namespace Watch

/-- The candidates of a method. -/
def candidates (w : Watch) (m : MethodDecl) : CandidateSet :=
  (Finder.find w m {}).1

/-- The findings of rules on a candidate of a method. -/
def findingsOn (w : Watch) (rules : List Rule) (m : MethodDecl) (candidate : SymbolId × Creation) :
    List Finding :=
  ((Releases.ofBody w m.name (m.body.getD [])).outcome? w candidate).toList.flatMap
    (Finder.judge w rules)

theorem findingsOn_of_symbol? {w : Watch} {rules : List Rule} {m : MethodDecl}
    {candidate : SymbolId × Creation} {symbol : Symbol}
    (hs : w.model.symbol? candidate.1 = some symbol) :
    let rs := Releases.ofBody w m.name (m.body.getD [])
    w.findingsOn rules m candidate = Finder.judge w rules
      { symbol, creation := candidate.2, release := rs.calls.get? candidate.1,
        handedOff := rs.handedOff.get? candidate.1 } := by
  intro rs
  rw [findingsOn, Releases.outcome?, hs]
  exact List.flatMap_singleton _ _

theorem findingsOn_of_none {w : Watch} {rules : List Rule} {m : MethodDecl}
    {candidate : SymbolId × Creation} (hs : w.model.symbol? candidate.1 = none) :
    w.findingsOn rules m candidate = [] := by
  rw [findingsOn, Releases.outcome?, hs]
  exact List.flatMap_nil

theorem tracks_candidates (w : Watch) (m : MethodDecl) :
    Tracks w (eventsOf .skip (m.body.getD [])) (w.candidates m) :=
  Finder.tracks_find (Finder.sound_fresh w) m

end Watch

namespace Finder

variable {w : Watch} {f : Finder}

theorem find_eq_candidates (hf : Sound w f) (m : MethodDecl) :
    (f.find w m).1 = w.candidates m :=
  (tracks_find hf m).unique (w.tracks_candidates m)

theorem Sound.outcomes (hf : Sound w f) (m : MethodDecl) : Sound w (f.outcomes w m).2 := by
  have hfind := hf.find m
  simp only [Finder.outcomes]
  split
  · exact hfind
  · exact hfind.of_memo_eq rfl

theorem outcomes_eq (hf : Sound w f) (m : MethodDecl) :
    (f.outcomes w m).1 =
      (w.candidates m).entries.filterMap
        ((Releases.ofBody w m.name (m.body.getD [])).outcome? w) := by
  rw [← find_eq_candidates hf m]
  simp only [Finder.outcomes]
  split
  · rename_i hempty
    rw [List.isEmpty_iff.1 hempty, List.filterMap_nil]
  · rfl

theorem foldl_note_memo (findings : List Finding) (note : Finding → Note) (f : Finder) :
    (findings.foldl (fun f x => f.note (note x)) f).memo = f.memo := by
  induction findings generalizing f with
  | nil => rfl
  | cons x rest ih => rw [List.foldl_cons, ih, note_memo]

theorem checkMethod_eq (hf : Sound w f) (rules : List Rule) (m : MethodDecl) :
    Sound w (f.checkMethod w rules m).2 ∧
    (f.checkMethod w rules m).1 = (w.candidates m).entries.flatMap (w.findingsOn rules m) := by
  by_cases hr : rules.isEmpty = true
  · rw [checkMethod, if_pos hr]
    refine ⟨hf, ?_⟩
    rw [List.isEmpty_iff.1 hr]
    refine (List.flatMap_eq_nil_iff.2 fun candidate _ => ?_).symm
    exact List.flatMap_eq_nil_iff.2 fun o _ => rfl
  · rw [checkMethod, if_neg hr]
    refine ⟨(hf.outcomes m).of_memo_eq (foldl_note_memo _ _ _), ?_⟩
    show (f.outcomes w m).1.flatMap (judge w rules) = _
    rw [outcomes_eq hf, List.filterMap_eq_flatMap_toList, List.flatMap_assoc]
    rfl

/-- What was asked of the finder before does not show in the findings of a method. -/
theorem checkMethods_eq_flatMap (hf : Sound w f) (rules : List Rule) (ms : List MethodDecl) :
    (checkMethods w rules ms f).1 =
      ms.flatMap fun m => (w.candidates m).entries.flatMap (w.findingsOn rules m) := by
  induction ms generalizing f with
  | nil => rfl
  | cons m ms ih =>
    obtain ⟨hsound, hfound⟩ := checkMethod_eq hf rules m
    rw [List.flatMap_cons, ← hfound, ← ih hsound]
    rfl

/-- A finder that has been at work on a unit: it was asked questions, and methods were checked with
it. -/
inductive Reached (w : Watch) : Finder → Prop
  | fresh : Reached w {}
  | ask {f : Finder} (query : Query) : Reached w f → Reached w (f.ask w query)
  | checkMethod {f : Finder} (rules : List Rule) (m : MethodDecl) :
    Reached w f → Reached w (f.checkMethod w rules m).2

theorem Reached.sound (h : Reached w f) : Sound w f := by
  induction h with
  | fresh => exact sound_fresh w
  | ask query _ ih => exact ih.ask query
  | checkMethod rules m _ ih => exact (checkMethod_eq ih rules m).1

end Finder

/-! ## The two rules -/

namespace Rule

/-- The finding that a local which is released in place could be a resource. -/
def closedFinding (w : Watch) (symbol : Symbol) : Finding :=
  .ofRule w.resource.handleName symbol tryWithResources.info

/-- The finding that a local is never released. -/
def leakFinding (w : Watch) (symbol : Symbol) : Finding :=
  .ofRule w.resource.handleName symbol unclosed.info

/-- At most one of the two rules fires. -/
theorem judge_all (w : Watch) (o : Outcome) :
    Finder.judge w all o =
      if o.release.isSome then [closedFinding w o.symbol]
      else if o.handedOff.isSome then [] else [leakFinding w o.symbol] := by
  unfold Finder.judge all closedFinding leakFinding
  cases hr : o.release with
  | some span => simp [tryWithResources, unclosed, closedExplicitly, neverClosed, hr]
  | none =>
    cases hh : o.handedOff with
    | some span => simp [tryWithResources, unclosed, closedExplicitly, neverClosed, hr, hh]
    | none => simp [tryWithResources, unclosed, closedExplicitly, neverClosed, hr, hh]

theorem closedFinding_ne_leakFinding (w : Watch) (symbol : Symbol) :
    closedFinding w symbol ≠ leakFinding w symbol := by
  intro h
  have hkey : tryWithResources.info.key = unclosed.info.key := congrArg Finding.rule h
  exact absurd hkey (by decide)

end Rule

namespace Watch

variable {w : Watch} {m : MethodDecl} {candidate : SymbolId × Creation}

theorem variable_of_mem_candidates (h : candidate ∈ (w.candidates m).entries) :
    ∃ symbol origin, w.model.symbol? candidate.1 = some symbol ∧ symbol.kind = .var origin := by
  obtain ⟨i, hi⟩ := ((w.tracks_candidates m).mem_iff _ _).1 h
  obtain ⟨event, -, target, value, -, ht, -⟩ := hi.opens
  obtain ⟨-, symbol, origin, hs, hk, -⟩ := boundLocal?_eq_some_iff.1 ht
  exact ⟨symbol, origin, hs, hk⟩

/-- A candidate has a symbol, so that none is passed over. -/
theorem symbol?_of_mem_candidates (h : candidate ∈ (w.candidates m).entries) :
    ∃ symbol, w.model.symbol? candidate.1 = some symbol := by
  obtain ⟨symbol, -, hs, -⟩ := variable_of_mem_candidates h
  exact ⟨symbol, hs⟩

open Classical in
/-- The findings of both rules on a candidate. -/
theorem findingsOn_all {symbol : Symbol} (hs : w.model.symbol? candidate.1 = some symbol) :
    w.findingsOn Rule.all m candidate =
      if w.ReleasedIn (m.body.getD []) candidate.1 then [Rule.closedFinding w symbol]
      else if w.HandedOffIn (m.body.getD []) candidate.1 then []
      else [Rule.leakFinding w symbol] := by
  rw [findingsOn_of_symbol? hs, Rule.judge_all]
  simp only [Releases.calls_ofBody_iff, Releases.handedOff_ofBody_iff]

/-- No rule speaks twice about a candidate of a method. -/
theorem nodup_findingsOn_all (w : Watch) (m : MethodDecl) :
    ((w.candidates m).entries.flatMap fun candidate =>
      (w.findingsOn Rule.all m candidate).map fun x => (candidate.1, x.rule)).Nodup := by
  refine List.nodup_flatMap.2 ⟨fun candidate hm => ?_, ?_⟩
  · obtain ⟨symbol, hs⟩ := symbol?_of_mem_candidates hm
    rw [findingsOn_all hs]
    split
    · exact List.nodup_singleton _
    · split
      · exact List.nodup_nil
      · exact List.nodup_singleton _
  · have hsymbols := List.pairwise_map.1 (w.tracks_candidates m).nodup_symbols
    refine hsymbols.imp fun {a b} hne => ?_
    intro p ha hb
    obtain ⟨x, -, rfl⟩ := List.mem_map.1 ha
    obtain ⟨y, -, he⟩ := List.mem_map.1 hb
    exact hne (Prod.mk.inj he).1.symm

end Watch

/-- The findings of the two rules on a unit are, in order of spans and then of rules and with equals
kept as they were found, the findings on the candidates of its methods, where each candidate gets
* one finding that it could be a resource, if a release method is called on it in the body;
* one finding that it leaks, if there is no such call and it is nowhere passed on for release;
* none, if it is only passed on. -/
theorem checkUnit_reports (order : ClassOrder) (u : CompilationUnit) (signatures : Signatures)
    (resource : ResourceConfig) :
    let w : Watch := { model := (resolve order u signatures).model, resource }
    IsStableSort Finding.le
      ((u.allMethods.filter (·.body.isSome)).flatMap fun m =>
        (w.candidates m).entries.flatMap (w.findingsOn Rule.all m))
      (checkUnit w Rule.all u).1 ∧
    ∀ m, ((w.candidates m).entries.flatMap fun candidate =>
        (w.findingsOn Rule.all m candidate).map fun x => (candidate.1, x.rule)).Nodup ∧
      ∀ candidate ∈ (w.candidates m).entries, ∃ symbol, w.model.symbol? candidate.1 = some symbol ∧
        (w.findingsOn Rule.all m candidate = [Rule.closedFinding w symbol] ↔
          w.ReleasedIn (m.body.getD []) candidate.1) ∧
        (w.findingsOn Rule.all m candidate = [Rule.leakFinding w symbol] ↔
          ¬ w.ReleasedIn (m.body.getD []) candidate.1 ∧
          ¬ w.HandedOffIn (m.body.getD []) candidate.1) ∧
        (w.findingsOn Rule.all m candidate = [] ↔
          ¬ w.ReleasedIn (m.body.getD []) candidate.1 ∧
          w.HandedOffIn (m.body.getD []) candidate.1) := by
  intro w
  refine ⟨?_, fun m => ⟨?_, fun candidate hm => ?_⟩⟩
  · rw [← Finder.checkMethods_eq_flatMap (Finder.sound_fresh w)]
    exact isStableSort_mergeSort Finding.le_trans Finding.le_total _
  · exact w.nodup_findingsOn_all m
  · obtain ⟨symbol, hs⟩ := Watch.symbol?_of_mem_candidates hm
    refine ⟨symbol, hs, ?_⟩
    rw [Watch.findingsOn_all hs]
    have hne := Rule.closedFinding_ne_leakFinding w symbol
    by_cases hr : w.ReleasedIn (m.body.getD []) candidate.1
    · simp [hr, hne]
    · by_cases hh : w.HandedOffIn (m.body.getD []) candidate.1
      · simp [hr, hh]
      · simp [hr, hh, hne.symm]

end HandleLint
