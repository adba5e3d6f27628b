import HandleLint.Proofs.AlikeWatches

/-!
# What the names of symbols are for

The search of handles goes by the numbers of symbols and by their kinds. Names are for notes and for
findings, and nothing depends on them: where symbols differ in their names only, the same candidates
are found, the same rules fire, and the findings come in the same order.

* `Watch.mapSymbols`: other symbols under the same numbers;
* `Watch.candidates_mapSymbols`: the candidates of a method;
* `checkUnit_mapSymbols`: the findings of a unit, one by one.
-/

namespace HandleLint

/-- The watch with each symbol replaced, under the same number. -/
def Watch.mapSymbols (g : Symbol → Symbol) (w : Watch) : Watch :=
  { w with model := { w.model with symbols := ⟨w.model.symbols.symbols.map g⟩ } }

namespace Watch

variable {w : Watch} {g : Symbol → Symbol}

theorem symbol?_mapSymbols (id : SymbolId) :
    (w.mapSymbols g).model.symbol? id = (w.model.symbol? id).map g :=
  Array.getElem?_map

/-! ## Candidates -/

theorem boundLocal?_mapSymbols (hkind : ∀ s, (g s).kind = s.kind) (target : BindTarget) :
    (w.mapSymbols g).boundLocal? target = w.boundLocal? target := by
  have hholder : ∀ s, (g s).isHolder = s.isHolder := by
    intro s
    rw [Symbol.isHolder, Symbol.isHolder, hkind]
  have hwritten : (w.mapSymbols g).written? target = w.written? target := by
    cases target <;> rfl
  rw [boundLocal?_eq_filter, boundLocal?_eq_filter, hwritten]
  simp only [symbol?_mapSymbols, Option.any_map, hholder]

theorem sources_mapSymbols (hkind : ∀ s, (g s).kind = s.kind) (method : SymbolId) :
    (w.mapSymbols g).sources method = w.sources method := by
  have hsource : (w.mapSymbols g).sourceOf? = w.sourceOf? := by
    funext id event
    cases event with
    | bind target value =>
      simp only [sourceOf?, boundLocal?_mapSymbols hkind]
      rfl
    | returned value => rfl
    | call site receiver method args => rfl
  unfold sources
  rw [hsource]
  rfl

theorem createsAs_mapSymbols (hkind : ∀ s, (g s).kind = s.kind) {value : Expr}
    {creation : Creation} :
    (w.mapSymbols g).CreatesAs value creation ↔ w.CreatesAs value creation := by
  cases creation with
  | factory => exact Iff.rfl
  | helper method =>
    refine and_congr_right fun _ => and_congr_right fun _ => ?_
    simp only [reachesFactory_iff_sources, sources_mapSymbols hkind]

theorem heldFrom_mapSymbols (hkind : ∀ s, (g s).kind = s.kind) {events : List Event}
    {id : SymbolId} {c : Creation} {i : Nat} :
    (w.mapSymbols g).HeldFrom events id c i ↔ w.HeldFrom events id c i := by
  have hopens : ∀ c k, (w.mapSymbols g).OpensAt events id c k ↔ w.OpensAt events id c k := by
    intro c k
    simp only [OpensAt, Opens, boundLocal?_mapSymbols hkind, createsAs_mapSymbols hkind]
  -- What returns a local does not look at symbols at all.
  constructor
  · rintro ⟨ho, hk, hfirst⟩
    exact ⟨(hopens c i).1 ho, hk, fun k c' hlt hc' => hfirst k c' hlt ((hopens c' k).2 hc')⟩
  · rintro ⟨ho, hk, hfirst⟩
    exact ⟨(hopens c i).2 ho, hk, fun k c' hlt hc' => hfirst k c' hlt ((hopens c' k).1 hc')⟩

theorem candidates_mapSymbols (hkind : ∀ s, (g s).kind = s.kind) (m : MethodDecl) :
    (w.mapSymbols g).candidates m = w.candidates m := by
  refine ((w.mapSymbols g).tracks_candidates m).unique ((w.tracks_candidates m).congr ?_)
  exact fun id c i => heldFrom_mapSymbols hkind

/-! ## Findings -/

variable {rules : List Rule}

/-- The same rules fire on an outcome that differs in the symbol. -/
theorem judge_mapSymbols (hrules : ∀ rule ∈ rules, rule.IsBuiltIn) {o o' : Outcome} {s : Symbol}
    (hs : o.symbol = s) (hs' : o'.symbol = g s)
    (hrelease : o'.release.isSome = o.release.isSome)
    (hhanded : o'.handedOff.isSome = o.handedOff.isSome) :
    List.Forall₂ (fun x x' => ∃ rule ∈ rules,
        x = .ofRule w.resource.handleName s rule.info ∧
        x' = .ofRule w.resource.handleName (g s) rule.info)
      (Finder.judge w rules o) (Finder.judge (w.mapSymbols g) rules o') := by
  rw [Finder.judge, Finder.judge, hs, hs',
    List.filter_congr fun rule hr => (hrules rule hr).fires_congr hrelease hhanded]
  refine List.forall₂_map_left_iff.2 (List.forall₂_map_right_iff.2 ?_)
  exact List.forall₂_same.2 fun rule hr => ⟨rule, List.mem_of_mem_filter hr, rfl, rfl⟩

theorem findingsOn_mapSymbols (hrules : ∀ rule ∈ rules, rule.IsBuiltIn) (m : MethodDecl)
    {candidate : SymbolId × Creation} {s : Symbol}
    (hs : w.model.symbol? candidate.1 = some s) :
    List.Forall₂ (fun x x' => ∃ rule ∈ rules,
        x = .ofRule w.resource.handleName s rule.info ∧
        x' = .ofRule w.resource.handleName (g s) rule.info)
      (w.findingsOn rules m candidate) ((w.mapSymbols g).findingsOn rules m candidate) := by
  have hs' : (w.mapSymbols g).model.symbol? candidate.1 = some (g s) := by
    rw [symbol?_mapSymbols, hs]
    rfl
  rw [findingsOn_of_symbol? hs, findingsOn_of_symbol? hs']
  refine judge_mapSymbols hrules rfl rfl ?_ ?_
  · exact Releases.calls_ofBody_congr Iff.rfl
  · exact Releases.handedOff_ofBody_congr Iff.rfl

end Watch

theorem forall₂_flatMap {α β γ : Type} {R : β → γ → Prop} {as : List α} {f : α → List β}
    {f' : α → List γ} (h : ∀ a ∈ as, List.Forall₂ R (f a) (f' a)) :
    List.Forall₂ R (as.flatMap f) (as.flatMap f') := by
  induction as with
  | nil => exact .nil
  | cons a rest ih =>
    obtain ⟨ha, hrest⟩ := List.forall_mem_cons.1 h
    exact List.rel_append ha (ih hrest)

/-- Lists that correspond are sorted alike by orders that correspond. -/
theorem forall₂_mergeSort {α β : Type} {R : α → β → Prop} {le : α → α → Bool}
    {le' : β → β → Bool} (hle : ∀ {a a' b b'}, R a a' → R b b' → le a b = le' a' b')
    {as : List α} {bs : List β} (h : List.Forall₂ R as bs) :
    List.Forall₂ R (as.mergeSort le) (bs.mergeSort le') := by
  -- Both are sorted by sorting the pairs.
  obtain ⟨hlength, hzip⟩ := List.forall₂_iff_zip.1 h
  have hrel : ∀ p ∈ as.zip bs, R p.1 p.2 := fun p hp => hzip hp
  have hleft : ((as.zip bs).mergeSort fun p q => le p.1 q.1).map Prod.fst = as.mergeSort le := by
    rw [List.map_mergeSort (s := le) fun _ _ _ _ => rfl, List.map_fst_zip hlength.le]
  have hright : ((as.zip bs).mergeSort fun p q => le p.1 q.1).map Prod.snd =
      bs.mergeSort le' := by
    rw [List.map_mergeSort fun p hp q hq => hle (hrel p hp) (hrel q hq),
      List.map_snd_zip hlength.ge]
  rw [← hleft, ← hright]
  refine List.forall₂_map_left_iff.2 (List.forall₂_map_right_iff.2 ?_)
  exact List.forall₂_same.2 fun p hp => hrel p (List.mem_mergeSort.1 hp)

/-- Where symbols are replaced by others of the same kinds and spans, the findings of a unit are the
same one by one, each on the other symbol of the variable. -/
theorem checkUnit_mapSymbols {g : Symbol → Symbol} (hkind : ∀ s, (g s).kind = s.kind)
    (hspan : ∀ s, (g s).span = s.span) (w : Watch) {rules : List Rule}
    (hrules : ∀ rule ∈ rules, rule.IsBuiltIn) (u : CompilationUnit) :
    List.Forall₂ (fun x x' => ∃ id s origin, w.model.symbol? id = some s ∧ s.kind = .var origin ∧
        ∃ rule ∈ rules, x = .ofRule w.resource.handleName s rule.info ∧
          x' = .ofRule w.resource.handleName (g s) rule.info)
      (checkUnit w rules u).1 (checkUnit (w.mapSymbols g) rules u).1 := by
  refine forall₂_mergeSort ?_ ?_
  · rintro _ _ _ _ ⟨-, s, -, -, -, rule, -, rfl, rfl⟩ ⟨-, t, -, -, -, rule', -, rfl, rfl⟩
    simp only [Finding.le, Finding.ofRule, hspan]
  · simp only [Finder.checkMethods_eq_flatMap (Finder.sound_fresh _),
      Watch.candidates_mapSymbols hkind]
    refine forall₂_flatMap fun m _ => forall₂_flatMap fun candidate hc => ?_
    obtain ⟨s, origin, hs, hk⟩ := Watch.variable_of_mem_candidates hc
    refine (Watch.findingsOn_mapSymbols hrules m hs).imp fun x x' h => ?_
    exact ⟨candidate.1, s, origin, hs, hk, h⟩

end HandleLint
