import HandleLint.Proofs.AlikeWatches
import HandleLint.Proofs.RelabelledTrees
import HandleLint.Proofs.ResolvedTables

/-!
# What is found in trees with other labels

A model may hold the same as another one about trees with other labels (`Model.Relabels`), and more
symbols besides. As long as the first model is coherent, whatever is found with it is found with the
other one too, in the trees with the other labels: the same candidates, the same releases, and the
same notes on the way. The findings differ in nothing but the number of the declaration that each is
about. The names in the trees do not matter: a variable is known by its symbol.

* `Watch.Relabels.classify`, `Watch.Relabels.find`: the helper graph and the candidates of a method;
* `Watch.Relabels.outcomes`, `Watch.Relabels.checkMethod`: what becomes of them;
* `Watch.Relabels.checkUnit`: the findings of a unit.
-/

namespace HandleLint

variable {ρ : Relabelling} {f : NodeId → NodeId}

theorem CompilationUnit.vocabulary_relabel (ρ : Relabelling) (order : ClassOrder)
    (u : CompilationUnit) (signatures : Signatures) :
    (u.relabel ρ).vocabulary order signatures = u.vocabulary order signatures := by
  rw [vocabulary, TypeNames.ofUnit_relabel]
  rfl

/-- The second model holds about the trees with other labels what the first one holds. -/
structure Model.Relabels (ρ : Relabelling) (m m' : Model) : Prop where
  symbols : ∀ {id s}, m.symbol? id = some s → m'.symbol? id = some (s.renumber ρ.node)
  references : ∀ i, m'.reference? (ρ.node i) = m.reference? i
  declarations : ∀ i, m'.declaration? (ρ.node i) = m.declaration? i
  calls : ∀ i, m'.callTarget? (ρ.node i) = m.callTarget? i
  methods : m'.methods = m.methods.mapValues (MethodDecl.relabel ρ)

namespace Model.Relabels

variable {m m' : Model} {id : SymbolId}

theorem nameOf (h : m.Relabels ρ m') {s : Symbol} (hs : m.symbol? id = some s) :
    m'.nameOf id = m.nameOf id := by
  rw [Model.nameOf, Model.nameOf, hs, h.symbols hs]
  rfl

theorem identReference? (h : m.Relabels ρ m') (e : Expr) :
    m'.identReference? (e.relabel ρ) = m.identReference? e := by
  cases e with
  | ident s name => exact h.references s.id
  | call s receiver method args =>
    rw [Expr.relabel_call]
    rfl
  | _ => rfl

theorem body? (h : m.Relabels ρ m') (id : SymbolId) :
    m'.body? id = (m.body? id).map (Stmt.relabelAll ρ) := by
  simp only [Model.body?, Model.method?, h.methods, Table.get?_mapValues]
  cases m.methods.get? id <;> rfl

end Model.Relabels

theorem Symbol.isHolder_renumber (s : Symbol) : (s.renumber f).isHolder = s.isHolder := by
  unfold Symbol.isHolder Symbol.renumber
  cases s.kind <;> rfl

/-- The watched handles are the same, and the tables of the second watch hold what those of the
first one hold, which refer to nothing that is not there. -/
structure Watch.Relabels (ρ : Relabelling) (w w' : Watch) : Prop where
  resource : w'.resource = w.resource
  model : w.model.Relabels ρ w'.model
  coherent : w.model.Coherent

namespace Model.Coherent

variable {m : Model}

theorem symbol_of_identReference? (h : m.Coherent) {e : Expr} {id : SymbolId}
    (he : m.identReference? e = some id) : ∃ s, m.symbol? id = some s := by
  cases e with
  | ident site name =>
    obtain ⟨s, hs, -⟩ := h.references he
    exact ⟨s, hs⟩
  | _ => cases he

end Model.Coherent

namespace Watch

variable {w : Watch}

theorem symbol_of_written? (h : w.model.Coherent) {target : BindTarget} {id : SymbolId}
    (ht : w.written? target = some id) : ∃ s, w.model.symbol? id = some s := by
  cases target with
  | declared v =>
    obtain ⟨s, hs, -⟩ := h.declarations ht
    exact ⟨s, hs⟩
  | assigned e => exact h.symbol_of_identReference? ht

theorem symbol_of_localHelper? (h : w.model.Coherent) {value : Expr} {helper : SymbolId}
    (hv : w.localHelper? value = some helper) : ∃ s, w.model.symbol? helper = some s := by
  obtain ⟨site, method, args, target, -, ht, -, hc, -⟩ := localHelper?_eq_some_iff.1 hv
  obtain ⟨⟨⟨s, hs, -⟩, -⟩, -⟩ := h.callees ht hc
  exact ⟨s, hs⟩

namespace Relabels

variable {w' : Watch}

/-! ## Expressions -/

theorem boundLocal? (h : w.Relabels ρ w') (target : BindTarget) :
    w'.boundLocal? (target.relabel ρ) = w.boundLocal? target := by
  have hwritten : w'.written? (target.relabel ρ) = w.written? target := by
    cases target with
    | declared v => exact h.model.declarations v.id
    | assigned e => exact h.model.identReference? e
  rw [boundLocal?_eq_filter, boundLocal?_eq_filter, hwritten]
  cases hid : w.written? target with
  | none => rfl
  | some id =>
    -- A number without a symbol might have one in the other model; coherence rules it out.
    obtain ⟨s, hs⟩ := symbol_of_written? h.coherent hid
    simp only [Option.filter_some, hs, h.model.symbols hs, Option.any_some,
      Symbol.isHolder_renumber]

theorem isFactoryCall (h : w.Relabels ρ w') (value : Expr) :
    w'.isFactoryCall (value.relabel ρ) = w.isFactoryCall value := by
  cases value with
  | call s receiver method args =>
    simp only [Expr.relabel_call, Watch.isFactoryCall, Site.renumber, h.model.calls, h.resource]
  | _ => rfl

theorem localHelper? (h : w.Relabels ρ w') (value : Expr) :
    w'.localHelper? (value.relabel ρ) = w.localHelper? value := by
  cases value with
  | call s receiver method args =>
    cases receiver with
    | none =>
      simp only [Expr.relabel_call, Option.map_none, Watch.localHelper?, Site.renumber,
        h.model.calls, h.resource, h.model.body?, Option.bind_eq_bind, Option.bind_map]
      rfl
    | some e =>
      rw [Expr.relabel_call]
      rfl
  | _ => rfl

theorem source? (h : w.Relabels ρ w') (value : Expr) :
    w'.source? (value.relabel ρ) = w.source? value := by
  rw [Watch.source?, Watch.source?, h.isFactoryCall, h.localHelper?]

/-! ## The helper graph -/

theorem returnedVariable? (h : w.Relabels ρ w') (body : List Stmt) :
    w'.returnedVariable? (Stmt.relabelAll ρ body) = w.returnedVariable? body := by
  rw [Watch.returnedVariable?, eventsOf_relabel, List.findSome?_map, Watch.returnedVariable?]
  congr 1
  funext event
  cases event with
  | returned value => exact h.model.identReference? value
  | bind target value => rfl
  | call site receiver method args => rfl

theorem sourceOf? (h : w.Relabels ρ w') (id : SymbolId) (event : Event) :
    w'.sourceOf? id (event.relabel ρ) = w.sourceOf? id event := by
  cases event with
  | bind target value =>
    simp only [Event.relabel, Watch.sourceOf?, h.boundLocal?, h.source?]
  | returned value => rfl
  | call site receiver method args => rfl

theorem sources (h : w.Relabels ρ w') (method : SymbolId) :
    w'.sources method = w.sources method := by
  unfold Watch.sources
  rw [h.model.body?]
  cases w.model.body? method with
  | none => rfl
  | some body =>
    simp only [Option.map_some, h.returnedVariable?]
    cases w.returnedVariable? body with
    | none => rfl
    | some id =>
      simp only [eventsOf_relabel, List.filterMap_map]
      exact List.filterMap_congr fun event _ => h.sourceOf? id event

end Relabels

end Watch

/-! ## Classification -/

namespace Watch.Relabels

variable {w w' : Watch} {g : Finder}

theorem conclude (h : w.Relabels ρ w') {helper : SymbolId}
    (hs : ∃ s, w.model.symbol? helper = some s) (depth : Nat) (v : Verdict) :
    g.conclude w' helper depth v = g.conclude w helper depth v := by
  obtain ⟨s, hs⟩ := hs
  simp only [Finder.conclude, h.model.nameOf hs]

/-- All methods that the search comes to are called somewhere. -/
theorem classify (h : w.Relabels ρ w') {helper : SymbolId}
    (hs : ∃ s, w.model.symbol? helper = some s) (path : List SymbolId) :
    g.classify w' helper path = g.classify w helper path := by
  induction helper, path, g using Finder.classify_induction w with
  | known helper path g known hk => rw [Finder.classify_known hk, Finder.classify_known hk]
  | cut helper path g depth hk hd => rw [Finder.classify_cut hk hd, Finder.classify_cut hk hd]
  | search helper path g hk hp ih =>
    have hstep : ∀ (v : Verdict × Finder), ∀ source ∈ w.sources helper,
        Finder.consult (fun next g => g.classify w' next (path ++ [helper])) v source =
          Finder.consult (fun next g => g.classify w next (path ++ [helper])) v source := by
      intro v source hsource
      cases source with
      | factory => rfl
      | helper next =>
        obtain ⟨value, -, hvalue⟩ := Watch.leadsTo_of_mem_sources hsource
        have hnext := ih next hsource v.2 (symbol_of_localHelper? h.coherent hvalue)
        simp only [Finder.consult, hnext]
    rw [Finder.classify_search hk hp, Finder.classify_search hk hp, h.sources,
      List.foldl_ext _ _ _ hstep, h.conclude hs]

theorem creation? (h : w.Relabels ρ w') (value : Expr) :
    g.creation? w' (value.relabel ρ) = g.creation? w value := by
  unfold Finder.creation?
  rw [h.source?]
  cases hsource : w.source? value with
  | none => rfl
  | some source =>
    cases source with
    | factory => rfl
    | helper method =>
      have hs := symbol_of_localHelper? h.coherent (Watch.source?_eq_helper_iff.1 hsource).2
      simp only [Finder.helperCreates, h.classify hs]
      rfl

/-! ## Candidates -/

theorem step (h : w.Relabels ρ w') (method : String) (set : CandidateSet) (event : Event) :
    g.step w' method set (event.relabel ρ) = g.step w method set event := by
  cases event with
  | bind target value =>
    simp only [Event.relabel, Finder.step, h.boundLocal?, h.creation?]
    cases hbound : w.boundLocal? target with
    | none => rfl
    | some id =>
      obtain ⟨-, s, -, hs, -⟩ := Watch.boundLocal?_eq_some_iff.1 hbound
      simp only [h.model.nameOf hs]
  | returned value =>
    simp only [Event.relabel, Finder.step, h.model.identReference?]
    cases hreturned : w.model.identReference? value with
    | none => rfl
    | some id =>
      obtain ⟨s, hs⟩ := h.coherent.symbol_of_identReference? hreturned
      simp only [h.model.nameOf hs]
  | call site receiver name args => rfl

/-- The candidates of a method, and the notes taken on the way. -/
theorem find (h : w.Relabels ρ w') (method : MethodDecl) :
    g.find w' (method.relabel ρ) = g.find w method := by
  unfold Finder.find MethodDecl.relabel
  cases method.body with
  | none => rfl
  | some body =>
    simp only [Option.map_some, eventsOf_relabel, List.foldl_map, h.step]

end Watch.Relabels

namespace Finder

variable {w : Watch} {g : Finder}

/-- What an event makes a candidate is a symbol. -/
theorem symbols_step (method : String) {set : CandidateSet}
    (hset : ∀ entry ∈ set.entries, ∃ s, w.model.symbol? entry.1 = some s) (event : Event) :
    ∀ entry ∈ (g.step w method set event).1.entries, ∃ s, w.model.symbol? entry.1 = some s := by
  cases event with
  | bind target value =>
    simp only [step]
    cases hbound : w.boundLocal? target with
    | none => exact hset
    | some id =>
      rcases hc : g.creation? w value with ⟨_ | creation, g'⟩
      · exact hset
      · obtain ⟨-, s, -, hs, -⟩ := Watch.boundLocal?_eq_some_iff.1 hbound
        simp only [CandidateSet.insert]
        split
        · exact hset
        · simp only [List.forall_mem_append, List.forall_mem_singleton]
          exact ⟨hset, s, hs⟩
  | returned value =>
    simp only [step]
    cases w.model.identReference? value with
    | none => exact hset
    | some id =>
      simp only
      split
      · exact fun entry he => hset entry (List.mem_of_mem_filter he)
      · exact hset
  | call site receiver name args => exact hset

/-- Every candidate is a symbol, whatever the finder remembers. -/
theorem symbols_find (g : Finder) (method : MethodDecl) :
    ∀ entry ∈ (g.find w method).1.entries, ∃ s, w.model.symbol? entry.1 = some s := by
  rw [find_eq_foldl]
  refine List.foldlRecOn _ _ (motive := fun p : CandidateSet × Finder =>
    ∀ entry ∈ p.1.entries, ∃ s, w.model.symbol? entry.1 = some s) nofun ?_
  intro p hp event _
  exact symbols_step method.name hp event

end Finder

/-! ## Releases -/

namespace Watch.Relabels

variable {w w' : Watch} {g : Finder}

theorem release (h : w.Relabels ρ w') (method : String) (rs : HandleLint.Releases) (event : Event) :
    rs.step w' method (event.relabel ρ) = rs.step w method event := by
  cases event with
  | bind target value => rfl
  | returned value => rfl
  | call site receiver name args =>
    have hreceiver : Releases.receiver? w' (receiver.map (Expr.relabel ρ)) =
        Releases.receiver? w receiver := by
      cases receiver with
      | none => rfl
      | some e => exact h.model.identReference? e
    have hargs : (args.map (Expr.relabel ρ)).filterMap w'.model.identReference? =
        args.filterMap w.model.identReference? := by
      rw [List.filterMap_map]
      exact List.filterMap_congr fun e _ => h.model.identReference? e
    have hhandOff : ∀ (rs : HandleLint.Releases), ∀ id ∈ args.filterMap w.model.identReference?,
        rs.handOff id site.span (.handedOff method (w'.model.nameOf id) name) =
          rs.handOff id site.span (.handedOff method (w.model.nameOf id) name) := by
      intro rs id hid
      obtain ⟨e, -, he⟩ := List.mem_filterMap.1 hid
      obtain ⟨s, hs⟩ := h.coherent.symbol_of_identReference? he
      rw [h.model.nameOf hs]
    simp only [Event.relabel, Releases.step, List.isEmpty_map, h.resource, hreceiver, hargs]
    rw [← List.foldl_ext _ _ rs hhandOff]
    rfl

theorem ofBody (h : w.Relabels ρ w') (method : String) (body : List Stmt) :
    Releases.ofBody w' method (Stmt.relabelAll ρ body) = Releases.ofBody w method body := by
  simp only [Releases.ofBody, eventsOf_relabel, List.foldl_map, h.release]

end Watch.Relabels

/-! ## Findings -/

variable (f) in
def Outcome.renumber (o : Outcome) : Outcome :=
  { o with symbol := o.symbol.renumber f }

variable (f) in
def Finding.renumber (x : Finding) : Finding :=
  { x with anchor := f x.anchor }

/-- The rule does not look at the numbers of nodes. -/
def Rule.Ignores (f : NodeId → NodeId) (rule : Rule) : Prop :=
  ∀ o, rule.fires (o.renumber f) = rule.fires o

theorem Rule.IsBuiltIn.ignores {rule : Rule} (h : rule.IsBuiltIn) : rule.Ignores f :=
  fun _ => h.fires_congr rfl rfl

namespace Watch.Relabels

variable {w w' : Watch} {g : Finder} {rules : List Rule}

theorem outcome? (h : w.Relabels ρ w') (rs : HandleLint.Releases) {entry : SymbolId × Creation}
    (he : ∃ s, w.model.symbol? entry.1 = some s) :
    rs.outcome? w' entry = (rs.outcome? w entry).map (Outcome.renumber ρ.node) := by
  obtain ⟨s, hs⟩ := he
  rw [Releases.outcome?, Releases.outcome?, hs, h.model.symbols hs]
  rfl

/-- What becomes of the candidates of a method. -/
theorem outcomes (h : w.Relabels ρ w') (method : MethodDecl) :
    g.outcomes w' (method.relabel ρ) =
      ((g.outcomes w method).1.map (Outcome.renumber ρ.node), (g.outcomes w method).2) := by
  have hbody : (method.relabel ρ).body.getD [] = Stmt.relabelAll ρ (method.body.getD []) := by
    unfold MethodDecl.relabel
    cases method.body <;> rfl
  unfold Finder.outcomes
  rw [h.find, hbody]
  have hsymbols := Finder.symbols_find (w := w) g method
  generalize g.find w method = found at hsymbols ⊢
  obtain ⟨set, g'⟩ := found
  simp only
  split
  · rfl
  · rw [show (method.relabel ρ).name = method.name from rfl, h.ofBody, List.map_filterMap,
      List.filterMap_congr fun entry he => h.outcome? _ (hsymbols entry he)]

theorem judge (h : w.Relabels ρ w') (hrules : ∀ rule ∈ rules, rule.Ignores ρ.node) (o : Outcome) :
    Finder.judge w' rules (o.renumber ρ.node) =
      (Finder.judge w rules o).map (Finding.renumber ρ.node) := by
  unfold Finder.judge
  rw [List.filter_congr fun rule hr => hrules rule hr o, List.map_map, h.resource]
  rfl

/-- The findings of a method, and the notes taken on the way. -/
theorem checkMethod (h : w.Relabels ρ w') (hrules : ∀ rule ∈ rules, rule.Ignores ρ.node)
    (method : MethodDecl) :
    g.checkMethod w' rules (method.relabel ρ) =
      ((g.checkMethod w rules method).1.map (Finding.renumber ρ.node),
        (g.checkMethod w rules method).2) := by
  unfold Finder.checkMethod
  split
  · rfl
  · simp only [h.outcomes, List.flatMap_map, h.judge hrules, ← List.map_flatMap, List.foldl_map]
    rfl

theorem checkMethods (h : w.Relabels ρ w') (hrules : ∀ rule ∈ rules, rule.Ignores ρ.node)
    (ms : List MethodDecl) :
    g.checkMethods w' rules (ms.map (MethodDecl.relabel ρ)) =
      ((g.checkMethods w rules ms).1.map (Finding.renumber ρ.node),
        (g.checkMethods w rules ms).2) := by
  induction ms generalizing g with
  | nil => rfl
  | cons m rest ih =>
    simp only [List.map_cons, Finder.checkMethods, h.checkMethod hrules, ih, List.map_append]

/-- The findings of a unit, and the notes taken on the way. -/
theorem checkUnit (h : w.Relabels ρ w') (hrules : ∀ rule ∈ rules, rule.Ignores ρ.node)
    (u : CompilationUnit) :
    checkUnit w' rules (u.relabel ρ) =
      ((checkUnit w rules u).1.map (Finding.renumber ρ.node), (checkUnit w rules u).2) := by
  have hbodies : (u.relabel ρ).allMethods.filter (·.body.isSome) =
      (u.allMethods.filter (·.body.isSome)).map (MethodDecl.relabel ρ) := by
    rw [u.allMethods_relabel, List.filter_map]
    congr 1
    exact List.filter_congr fun m _ => Option.isSome_map
  have hsort : ∀ xs : List Finding, (xs.map (Finding.renumber ρ.node)).mergeSort Finding.le =
      (xs.mergeSort Finding.le).map (Finding.renumber ρ.node) := by
    -- The order looks at spans and rules, not at anchors.
    intro xs
    symm
    apply List.map_mergeSort
    exact fun _ _ _ _ => rfl
  simp only [HandleLint.checkUnit, hbodies, h.checkMethods hrules, hsort]

end Watch.Relabels

end HandleLint
