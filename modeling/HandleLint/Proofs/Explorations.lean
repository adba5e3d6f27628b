import HandleLint.Proofs.Anchors

/-!
# How often a search goes through a method

A search takes a note each time it leaves a method whose body it went through. A method that is
settled by then is never gone through again. What stays open is a "no" that owes to a cycle back to
a method above, so a method is gone through twice only if it lies on a cycle with another one.

* `Watch.SharesCycle`: two methods lead to each other;
* `Finder.Explored`: what a search below a path leaves behind, the invariant of every search;
* `Finder.classify_explored`: a search keeps the invariant, and its cuts lead back to the path;
* `Finder.helperCreates_retraces`: the notes of one search from a root.
-/

namespace HandleLint

open Relation (ReflTransGen TransGen)

/-- The method lies on a cycle of the helper graph with another method. -/
def Watch.SharesCycle (w : Watch) (method : SymbolId) : Prop :=
  ∃ other, other ≠ method ∧ TransGen w.LeadsTo method other ∧ TransGen w.LeadsTo other method

/-- The cut of a verdict, if there is one, is the place of a method on the path that is reached. -/
def Verdict.CutsBack (path : List SymbolId) (reached : SymbolId → Prop) (v : Verdict) : Prop :=
  ∀ depth, v.cut = some depth → ∃ method, path[depth]? = some method ∧ reached method

/-- A cut above the last method of a path lies on the rest of the path. -/
theorem Verdict.CutsBack.above {path : List SymbolId} {reached : SymbolId → Prop}
    {helper : SymbolId} {v : Verdict} (h : v.CutsBack (path ++ [helper]) reached) {depth : Nat}
    (hd : v.cut.filter (· < path.length) = some depth) :
    ∃ method, path[depth]? = some method ∧ reached method := by
  obtain ⟨hcut, hlt⟩ := Option.filter_eq_some_iff.1 hd
  obtain ⟨method, hm, hr⟩ := h depth hcut
  rw [List.getElem?_append_left (of_decide_eq_true hlt)] at hm
  exact ⟨method, hm, hr⟩

namespace Finder

variable {w : Watch} {path : List SymbolId} {f g k : Finder} {trace trace' : List (SymbolId × Bool)}

/-- The method is settled. -/
def Knows (f : Finder) (method : SymbolId) : Prop :=
  f.memo.contains method = true

/-- The note that is taken of a verdict. -/
def verdictNote (w : Watch) (verdict : SymbolId × Bool) : Note :=
  .classified verdict.1 (w.model.nameOf verdict.1) verdict.2

/-- From one finder to another, a search below a path has gone through the methods of a trace, in
the order in which it left them. -/
structure Explored (w : Watch) (path : List SymbolId) (f g : Finder)
    (trace : List (SymbolId × Bool)) : Prop where
  notes : g.notes.toList = f.notes.toList ++ trace.map (verdictNote w)
  kept : ∀ method, f.Knows method → g.Knows method
  off : ∀ left ∈ trace, left.1 ∉ path
  unknown : ∀ left ∈ trace, ¬ f.Knows left.1
  settled : ∀ left ∈ trace, g.Knows left.1 ∨ left.2 = false ∧ w.SharesCycle left.1
  again : trace.Pairwise fun first second =>
    first.1 = second.1 → first.2 = false ∧ w.SharesCycle first.1

namespace Explored

theorem refl (w : Watch) (path : List SymbolId) (f : Finder) : Explored w path f f [] where
  notes := by simp
  kept := fun _ h => h
  off := nofun
  unknown := nofun
  settled := nofun
  again := .nil

/-- One search after the other: what the first one settled, the second one does not go through. -/
theorem trans (h : Explored w path f g trace) (h' : Explored w path g k trace') :
    Explored w path f k (trace ++ trace') where
  notes := by rw [h'.notes, h.notes, List.map_append, List.append_assoc]
  kept := fun method hm => h'.kept method (h.kept method hm)
  off := List.forall_mem_append.2 ⟨h.off, h'.off⟩
  unknown := List.forall_mem_append.2
    ⟨h.unknown, fun left hl hm => h'.unknown left hl (h.kept _ hm)⟩
  settled := List.forall_mem_append.2
    ⟨fun left hl => (h.settled left hl).imp_left (h'.kept _), h'.settled⟩
  again := by
    refine List.pairwise_append.2 ⟨h.again, h'.again, fun first hf second hs heq => ?_⟩
    exact (h.settled first hf).resolve_left fun hknown => h'.unknown second hs (heq ▸ hknown)

end Explored

/-! ## Leaving a method -/

theorem notes_conclude (w : Watch) (g : Finder) (helper : SymbolId) (depth : Nat) (v : Verdict) :
    (g.conclude w helper depth v).2.notes = g.notes.push (verdictNote w (helper, v.creates)) := by
  simp only [conclude, note]
  split <;> rfl

theorem memo_conclude (w : Watch) (g : Finder) (helper : SymbolId) (depth : Nat) (v : Verdict) :
    (g.conclude w helper depth v).2.memo =
      if v.creates || (v.cut.filter (· < depth)).isNone then g.memo.insert helper v.creates
      else g.memo := by
  simp only [conclude, note_memo]
  split <;> rfl

/-- The cut that is passed on leads above the method. -/
theorem cut_conclude {helper : SymbolId} {depth cut : Nat} {v : Verdict}
    (h : (g.conclude w helper depth v).1.cut = some cut) :
    v.cut.filter (· < depth) = some cut := by
  simp only [conclude] at h
  split at h
  · cases h
  · exact h

theorem knows_conclude {method : SymbolId} (helper : SymbolId) (depth : Nat) (v : Verdict)
    (h : g.Knows method) : (g.conclude w helper depth v).2.Knows method := by
  unfold Knows Table.contains at h ⊢
  rw [memo_conclude]
  split
  · rw [Table.get?_insert]
    split
    · rfl
    · exact h
  · exact h

/-- A method that is left is settled, unless the answer is "no" and a cycle led back above it. -/
theorem knows_conclude_self (helper : SymbolId) (depth : Nat) (v : Verdict) :
    (g.conclude w helper depth v).2.Knows helper ∨
      v.creates = false ∧ (v.cut.filter (· < depth)).isSome := by
  unfold Knows Table.contains
  rw [memo_conclude]
  split
  · rw [Table.get?_insert, beq_self_eq_true, if_pos rfl]
    exact .inl rfl
  · rename_i hopen
    rw [Bool.or_eq_true, not_or, Bool.not_eq_true, Option.isNone_iff_eq_none] at hopen
    exact .inr ⟨hopen.1, Option.isSome_iff_ne_none.2 hopen.2⟩

theorem Explored.conclude {helper : SymbolId} {v : Verdict}
    (h : Explored w (path ++ [helper]) f g trace) (hp : helper ∉ path) (hk : ¬ f.Knows helper)
    (hcycle : (v.cut.filter (· < path.length)).isSome → w.SharesCycle helper) :
    Explored w path f (g.conclude w helper path.length v).2 (trace ++ [(helper, v.creates)]) where
  notes := by
    rw [notes_conclude, Array.toList_push, h.notes, List.map_append, List.append_assoc]
    rfl
  kept := fun method hm => knows_conclude _ _ _ (h.kept method hm)
  off := List.forall_mem_append.2
    ⟨fun left hl hm => h.off left hl (List.mem_append_left _ hm), List.forall_mem_singleton.2 hp⟩
  unknown := List.forall_mem_append.2 ⟨h.unknown, List.forall_mem_singleton.2 hk⟩
  settled := by
    refine List.forall_mem_append.2 ⟨fun left hl => ?_, List.forall_mem_singleton.2 ?_⟩
    · exact (h.settled left hl).imp_left (knows_conclude _ _ _)
    · exact (knows_conclude_self helper path.length v).imp_right (And.imp_right hcycle)
  again := by
    refine List.pairwise_append.2 ⟨h.again, List.pairwise_singleton _ _, fun first hf => ?_⟩
    -- below the method itself, the search does not go through it
    refine List.forall_mem_singleton.2 fun heq => absurd ?_ (h.off first hf)
    rw [heq]
    exact List.mem_append_right _ List.mem_cons_self

/-! ## One search -/

theorem shallower_eq_some {a b : Option Nat} {depth : Nat} (h : shallower a b = some depth) :
    a = some depth ∨ b = some depth := by
  cases a with
  | none => exact .inr h
  | some x =>
    cases b with
    | none => exact .inl h
    | some y =>
      obtain rfl : min x y = depth := Option.some.inj h
      rcases Nat.le_total x y with hle | hle
      · rw [Nat.min_eq_left hle]
        exact .inl rfl
      · rw [Nat.min_eq_right hle]
        exact .inr rfl

/-- Sources that are taken into account one after the other. -/
theorem foldl_consult_explored {search : SymbolId → Finder → Verdict × Finder}
    {reached : SymbolId → Prop} {sources : List Creation}
    (hsearch : ∀ next, .helper next ∈ sources → ∀ f,
      (∃ trace, Explored w path f (search next f).2 trace) ∧
        (search next f).1.CutsBack path reached)
    {s : Verdict × Finder} (hs : s.1.CutsBack path reached) :
    (∃ trace, Explored w path s.2 (sources.foldl (consult search) s).2 trace) ∧
      (sources.foldl (consult search) s).1.CutsBack path reached := by
  induction sources generalizing s with
  | nil => exact ⟨⟨[], .refl w path s.2⟩, hs⟩
  | cons source rest ih =>
    have hstep : (∃ trace, Explored w path s.2 (consult search s source).2 trace) ∧
        (consult search s source).1.CutsBack path reached := by
      unfold consult
      split
      · exact ⟨⟨[], .refl w path s.2⟩, hs⟩
      · cases source with
        | factory => exact ⟨⟨[], .refl w path s.2⟩, nofun⟩
        | helper next =>
          obtain ⟨hexplored, hcut⟩ := hsearch next List.mem_cons_self s.2
          exact ⟨hexplored, fun depth hd => (shallower_eq_some hd).elim (hs depth) (hcut depth)⟩
    obtain ⟨⟨trace, hfirst⟩, hcut⟩ := hstep
    obtain ⟨⟨trace', hrest⟩, hcut'⟩ :=
      ih (fun next hm => hsearch next (List.mem_cons_of_mem _ hm)) hcut
    exact ⟨⟨trace ++ trace', hfirst.trans hrest⟩, hcut'⟩

/-- A search below methods that all lead to its start keeps the invariant, and cuts only where its
start leads back to one of them. -/
theorem classify_explored (helper : SymbolId) (path : List SymbolId) (f : Finder)
    (habove : ∀ method ∈ path, TransGen w.LeadsTo method helper) :
    (∃ trace, Explored w path f (f.classify w helper path).2 trace) ∧
      (f.classify w helper path).1.CutsBack path (ReflTransGen w.LeadsTo helper) := by
  induction helper, path, f using classify_induction w with
  | known helper path f known hk =>
    rw [classify_known hk]
    exact ⟨⟨[], .refl w path f⟩, nofun⟩
  | cut helper path f depth hk hd =>
    rw [classify_cut hk hd]
    obtain ⟨hlt, hget, -⟩ := List.idxOf?_eq_some_iff.1 hd
    refine ⟨⟨[], .refl w path f⟩, fun depth' hd' => ⟨helper, ?_, .refl⟩⟩
    cases hd'
    rw [List.getElem?_eq_getElem hlt, hget]
  | search helper path f hk hp ih =>
    have hsearch : ∀ next, .helper next ∈ w.sources helper → ∀ g,
        (∃ trace, Explored w (path ++ [helper]) g (g.classify w next (path ++ [helper])).2 trace) ∧
        (g.classify w next (path ++ [helper])).1.CutsBack (path ++ [helper])
          (TransGen w.LeadsTo helper) := by
      intro next hs g
      have hnext := Watch.leadsTo_of_mem_sources hs
      obtain ⟨hexplored, hcut⟩ := ih next hs g <| List.forall_mem_append.2
        ⟨fun method hm => (habove method hm).tail hnext,
          List.forall_mem_singleton.2 (.single hnext)⟩
      refine ⟨hexplored, fun depth hd => ?_⟩
      obtain ⟨method, hm, hr⟩ := hcut depth hd
      exact ⟨method, hm, .head' hnext hr⟩
    obtain ⟨⟨trace, hexplored⟩, hcut⟩ :=
      foldl_consult_explored hsearch (s := ({ creates := false }, f)) nofun
    rw [classify_search hk hp]
    refine ⟨⟨_, hexplored.conclude hp ?_ fun hsome => ?_⟩, fun depth hd => ?_⟩
    · simp [Knows, Table.contains, hk]
    · obtain ⟨depth, hd⟩ := Option.isSome_iff_exists.1 hsome
      obtain ⟨method, hm, hr⟩ := hcut.above hd
      have hmem : method ∈ path := List.mem_of_getElem? hm
      exact ⟨method, fun heq => hp (heq ▸ hmem), hr, habove method hmem⟩
    · obtain ⟨method, hm, hr⟩ := hcut.above (cut_conclude hd)
      exact ⟨method, hm, hr.to_reflTransGen⟩

/-- One search from a root, whatever the finder knows, takes a note each time it leaves a method,
and of no method that was settled before. A method of which it takes two notes lies on a cycle with
another method, and every note of it but the last says "no"; so where no two methods lie on a cycle,
it takes at most one note of each. -/
theorem helperCreates_retraces (w : Watch) (f : Finder) (helper : SymbolId) :
    ∃ trace : List (SymbolId × Bool),
      (f.helperCreates w helper).2.notes.toList = f.notes.toList ++ trace.map (verdictNote w) ∧
      (∀ verdict ∈ trace, ¬ f.Knows verdict.1) ∧
      (trace.Pairwise fun first second => first.1 = second.1 →
        first.2 = false ∧ w.SharesCycle first.1) ∧
      ((∀ verdict ∈ trace, ¬ w.SharesCycle verdict.1) → (trace.map Prod.fst).Nodup) := by
  obtain ⟨⟨trace, h⟩, -⟩ := classify_explored (w := w) helper [] f nofun
  refine ⟨trace, h.notes, h.unknown, h.again, fun hcycle => List.pairwise_map.2 ?_⟩
  exact h.again.imp_of_mem fun {first _} hm _ hagain heq => hcycle first hm (hagain heq).2

end Finder

/-- A method that gets what it returns from another, whether it is the first or the second time. -/
def ping : MethodDecl where
  site := ⟨10, {}⟩
  name := "ping"
  params := []
  returnType := some "Handle"
  body := some [
    .localVar ⟨11, {}⟩ ⟨⟨12, {}⟩, "r", "Handle", some (.call ⟨13, {}⟩ none "pong" [])⟩,
    .exprStmt ⟨14, {}⟩
      (.assign ⟨15, {}⟩ (.ident ⟨16, {}⟩ "r") (.call ⟨17, {}⟩ none "pong" [])),
    .returnStmt ⟨18, {}⟩ (some (.ident ⟨19, {}⟩ "r"))]

/-- The other method, which gets what it returns from the first. -/
def pong : MethodDecl where
  site := ⟨30, {}⟩
  name := "pong"
  params := []
  returnType := some "Handle"
  body := some [
    .localVar ⟨31, {}⟩ ⟨⟨32, {}⟩, "r", "Handle", some (.call ⟨33, {}⟩ none "ping" [])⟩,
    .returnStmt ⟨34, {}⟩ (some (.ident ⟨35, {}⟩ "r"))]

def cyclicUnit : CompilationUnit where
  package := some "p"
  imports := ["p.Pool", "p.Handle"]
  classes := [{
    site := ⟨0, {}⟩, name := "A", fields := [], methods := [ping, pong], nested := [] }]

/-- One search from `ping` goes through `pong` twice. -/
theorem notes_helperCreates_cyclicUnit :
    let w : Watch :=
      { model := (resolve .increasing cyclicUnit poolSignatures).model, resource := poolResource }
    (Finder.helperCreates w 1 {}).2.notes.toList =
      [.classified 2 "pong" false, .classified 2 "pong" false, .classified 1 "ping" false] := by
  intro w
  obtain ⟨hping, hpong, hname, hname'⟩ : w.sources 1 = [.helper 2, .helper 2] ∧
      w.sources 2 = [.helper 1] ∧ w.model.nameOf 1 = "ping" ∧ w.model.nameOf 2 = "pong" := by
    decide +kernel
  -- below `ping` the way back to it is cut, so that "no" is not settled for `pong`
  have hopen : ∀ f : Finder, f.memo = {} → f.classify w 2 [1] =
      ({ creates := false, cut := some 0 }, f.note (.classified 2 "pong" false)) := by
    intro f hf
    have hback : f.classify w 1 [1, 2] = ({ creates := false, cut := some 0 }, f) :=
      Finder.classify_cut (by rw [hf]; rfl) rfl
    rw [Finder.classify_search (by rw [hf]; rfl) (by decide), hpong]
    simp [Finder.consult, hback, Finder.shallower, Finder.conclude, hname']
  rw [Finder.helperCreates, Finder.classify_search rfl (by decide), hping]
  simp [Finder.consult, hopen, Finder.conclude, Finder.note, hname]

end HandleLint
