import HandleLint.Proofs.NameResolution

/-!
# Where symbols come from

Every symbol was made for one declaration. With distinct numbers of nodes the tables of symbols and
of declarations undo each other, and a symbol tells which declaration it stands for.

* `CompilationUnit.announced`, `resolve_model`: resolving a unit is taking its steps from the tables
  in which classes and members have their symbols;
* `Model.Faithful`: the declaration that a symbol names has that symbol;
* `Resolver.symbol?_run`: a symbol that appears on the way is one that a step declares;
* `faithful_resolve`, `exists_declare_of_variable`, `introduces_of_declare`: the same for a unit.
-/

namespace HandleLint

open HandleLint.Resolver (Step)

/-- What the names of a unit are resolved against. -/
def CompilationUnit.vocabulary (u : CompilationUnit) (order : ClassOrder)
    (signatures : Signatures) : Vocabulary where
  types := TypeNames.ofUnit u signatures
  signatures
  order

/-- The tables of a unit in which classes, fields and methods have their symbols. -/
def CompilationUnit.announced (u : CompilationUnit) (order : ClassOrder) (signatures : Signatures) :
    Resolver :=
  u.allClasses.foldl (Resolver.declareClass (u.vocabulary order signatures)) {}

theorem resolve_model (order : ClassOrder) (u : CompilationUnit) (signatures : Signatures) :
    (resolve order u signatures).model =
      (Resolver.run (u.vocabulary order signatures) (u.announced order signatures)
        (ClassDecl.stepsOf u.classes)).toModel := by
  show (Resolver.resolveClasses (u.vocabulary order signatures) (u.announced order signatures)
    u.classes).toModel = _
  rw [CompilationUnit.announced, Resolver.resolveClasses_declareClasses]

namespace SymbolTable

theorem get?_insert (t : SymbolTable) (name : String) (kind : SymbolKind) (type : Option String)
    (site : Site) (id : SymbolId) :
    (t.insert name kind type site).get? id =
      if id = t.next then some { id := t.next, name, kind, type, site } else t.get? id :=
  Array.getElem?_push

theorem next_insert (t : SymbolTable) (name : String) (kind : SymbolKind) (type : Option String)
    (site : Site) : (t.insert name kind type site).next = t.next + 1 :=
  Array.size_push _

theorem get?_eq_none {t : SymbolTable} {id : SymbolId} (h : t.next ≤ id) : t.get? id = none :=
  Array.getElem?_eq_none h

end SymbolTable

/-- The declaration that a symbol names has that symbol. -/
def Model.Faithful (m : Model) : Prop :=
  ∀ id symbol, m.symbol? id = some symbol → m.declaration? symbol.decl = some id

/-- Symbols of one declaration are one symbol. -/
theorem Model.Faithful.eq_of_decl_eq {m : Model} (h : m.Faithful) {id id' : SymbolId}
    {s s' : Symbol} (hs : m.symbol? id = some s) (hs' : m.symbol? id' = some s')
    (hd : s.decl = s'.decl) : id = id' := by
  have hid := h id s hs
  rw [hd, h id' s' hs'] at hid
  exact (Option.some.inj hid).symm

namespace Resolver

variable {r : Resolver} {voc : Vocabulary} {steps : List Step}

theorem symbol?_empty (id : SymbolId) : ({} : Resolver).symbol? id = none :=
  Array.getElem?_empty

theorem symbol?_addSymbol {name : String} {kind : SymbolKind} {type : Option String} {site : Site}
    {id : SymbolId} {s : Symbol} (h : (r.addSymbol name kind type site).symbol? id = some s) :
    r.symbol? id = some s ∨
      id = r.symbols.next ∧ s = { id := r.symbols.next, name, kind, type, site } := by
  rw [Model.symbol?, addSymbol, SymbolTable.get?_insert] at h
  split at h
  · exact .inr ⟨‹_›, (Option.some.inj h).symm⟩
  · exact .inl h

theorem faithful_addSymbol (h : r.Faithful) (name : String) (kind : SymbolKind)
    (type : Option String) {site : Site} (hfresh : r.declaration? site.id = none) :
    (r.addSymbol name kind type site).Faithful := by
  intro id s hs
  have hothers := announces_addSymbol r name kind type site
  rcases symbol?_addSymbol hs with hs | ⟨rfl, rfl⟩
  · refine (hothers.others fun hm => ?_).trans (h id s hs)
    rw [← List.mem_singleton.1 hm, h id s hs] at hfresh
    cases hfresh
  · simp [addSymbol, Model.declaration?, Symbol.decl]

/-- Declarations that are announced one after the other, each number once. -/
theorem faithful_foldl {α : Type} {f : Resolver → α → Resolver} {key : α → List NodeId}
    (hann : ∀ r a, Announces (key a) r (f r a))
    (hstep : ∀ r a, (key a).Nodup → (∀ i ∈ key a, r.declaration? i = none) → r.Faithful →
      (f r a).Faithful)
    {as : List α} (hnodup : (as.flatMap key).Nodup)
    (hfresh : ∀ i ∈ as.flatMap key, r.declaration? i = none) (h : r.Faithful) :
    (as.foldl f r).Faithful := by
  induction as generalizing r with
  | nil => exact h
  | cons a rest ih =>
    obtain ⟨ha, hrest, hdisjoint⟩ := List.nodup_append.1 hnodup
    obtain ⟨hfa, hfrest⟩ := List.forall_mem_append.1 hfresh
    refine ih hrest (fun i hi => ?_) (hstep r a ha hfa h)
    rw [(hann r a).others fun hm => hdisjoint i hm i hi rfl]
    exact hfrest i hi

theorem faithful_declareClass {c : ClassDecl} (hnodup : c.memberIds.Nodup)
    (hfresh : ∀ i ∈ c.memberIds, r.declaration? i = none) (h : r.Faithful) :
    (declareClass voc r c).Faithful := by
  obtain ⟨hc, hmembers⟩ := List.nodup_cons.1 hnodup
  obtain ⟨hfields, hmethods, hdisjoint⟩ := List.nodup_append.1 hmembers
  obtain ⟨hfc, hfmembers⟩ := List.forall_mem_cons.1 hfresh
  obtain ⟨hffields, hfmethods⟩ := List.forall_mem_append.1 hfmembers
  let start := r.addSymbol c.name .type (voc.types.lookup? c.name) c.site
  let filled := c.fields.foldl (declareField voc c.id) start
  have hstart : start.Faithful := faithful_addSymbol h _ _ _ hfc
  have hann := announces_addSymbol r c.name .type (voc.types.lookup? c.name) c.site
  have hkept : ∀ i ∈ c.fields.map VarDecl.id ++ c.methods.map MethodDecl.id,
      start.declaration? i = none := by
    intro i hi
    have hne : i ∉ [c.site.id] := by
      intro hm
      cases List.mem_singleton.1 hm
      exact hc hi
    rw [hann.others hne]
    exact hfmembers i hi
  have hfilled : filled.Faithful := by
    refine faithful_foldl (announces_declareField voc c.id) (fun r v _ hf hr => ?_) ?_ ?_ hstart
    · exact faithful_addSymbol hr _ _ _ (hf _ List.mem_cons_self)
    · rw [← List.map_eq_flatMap]
      exact hfields
    · rw [← List.map_eq_flatMap]
      exact fun i hi => hkept i (List.mem_append_left _ hi)
  have hdone : (c.methods.foldl (declareMethod voc c.id) filled).Faithful := by
    refine faithful_foldl (announces_declareMethod voc c.id) (fun r m _ hf hr => ?_) ?_ ?_ hfilled
    · exact faithful_addSymbol hr _ _ _ (hf _ List.mem_cons_self)
    · rw [← List.map_eq_flatMap]
      exact hmethods
    · rw [← List.map_eq_flatMap]
      intro i hi
      rw [(announces_declareFields voc c.id start c.fields).others
        fun hm => hdisjoint i hm i hi rfl]
      exact hkept i (List.mem_append_right _ hi)
  exact hdone

/-- No variable of a body has a symbol. -/
def NoVariables (r : Resolver) : Prop :=
  ∀ id s, r.symbol? id = some s → s.isVariable = false

theorem noVariables_foldl {α : Type} {f : Resolver → α → Resolver}
    (hstep : ∀ r a, r.NoVariables → (f r a).NoVariables) (h : r.NoVariables) (as : List α) :
    (as.foldl f r).NoVariables :=
  List.foldlRecOn as f h fun r hr a _ => hstep r a hr

theorem noVariables_addSymbol (h : r.NoVariables) (name : String) (kind : SymbolKind)
    (type : Option String) (site : Site) (hk : ∀ origin, kind ≠ .var origin) :
    (r.addSymbol name kind type site).NoVariables := by
  intro id s hs
  rcases symbol?_addSymbol hs with hs | ⟨-, rfl⟩
  · exact h id s hs
  · cases kind with
    | var origin => exact absurd rfl (hk origin)
    | _ => rfl

theorem noVariables_declareClass (h : r.NoVariables) (c : ClassDecl) :
    (declareClass voc r c).NoVariables := by
  have hclass := noVariables_addSymbol h c.name .type (voc.types.lookup? c.name) c.site nofun
  have hfield : ∀ r v, NoVariables r → (declareField voc c.id r v).NoVariables :=
    fun _ v hr => noVariables_addSymbol hr v.name _ _ v.site nofun
  have hmethod : ∀ r m, NoVariables r → (declareMethod voc c.id r m).NoVariables :=
    fun _ m hr => noVariables_addSymbol hr m.name _ _ m.site nofun
  exact noVariables_foldl hmethod (noVariables_foldl hfield hclass c.fields) c.methods

/-! ## Steps -/

theorem Ready.faithful_run (h : Ready r steps) (hr : r.Faithful) :
    (run voc r steps).Faithful := by
  induction steps generalizing r with
  | nil => exact hr
  | cons s rest ih =>
    refine ih h.step ?_
    obtain ⟨e, _, _, _, _, -, hs, -⟩ | ⟨kind, v, _, _, rfl, hs⟩ | ⟨-, _, _, hs⟩ :=
      step_cases voc r s
    · rw [hs]
      exact hr
    · rw [hs]
      exact faithful_addSymbol hr v.name kind (voc.types.qualify v.type) (h.fresh_head v.id rfl)
    · rw [hs]
      exact hr

/-- A symbol that was not there before is one that a step declares. -/
theorem symbol?_run {id : SymbolId} {s : Symbol} (h : (run voc r steps).symbol? id = some s) :
    r.symbol? id = some s ∨
      ∃ kind v, .declare kind v ∈ steps ∧ s.kind = kind ∧ s.name = v.name ∧ s.site = v.site := by
  induction steps generalizing r with
  | nil => exact .inl h
  | cons t rest ih =>
    rcases ih h with hs | ⟨kind, v, hm, hv⟩
    · obtain ⟨e, _, _, _, _, -, ht, -⟩ | ⟨kind, v, _, _, rfl, ht⟩ | ⟨-, _, _, ht⟩ :=
        step_cases voc r t
      · rw [ht] at hs
        exact .inl hs
      · rw [ht] at hs
        refine (symbol?_addSymbol hs).imp_right ?_
        rintro ⟨-, rfl⟩
        exact ⟨kind, v, List.mem_cons_self, rfl, rfl, rfl⟩
      · rw [ht] at hs
        exact .inl hs
    · exact .inr ⟨kind, v, List.mem_cons_of_mem t hm, hv⟩

/-- What a step declares has its symbol in the end. -/
theorem Ready.introduces_of_declare {kind : SymbolKind} {v : VarDecl} (h : Ready r steps)
    (hv : .declare kind v ∈ steps) : ∃ id, (run voc r steps).Introduces v id := by
  induction steps generalizing r with
  | nil => cases hv
  | cons s rest ih =>
    rcases List.mem_cons.1 hv with rfl | hv
    · obtain ⟨problems, hs⟩ := exists_declare voc r kind v
      have hnew := introduces_addSymbol r v kind (voc.types.qualify v.type)
      refine ⟨_, h.step.introduces_run v r.symbols.next ?_⟩
      rw [hs]
      exact ⟨hnew.declaration, hnew.symbol⟩
    · exact ih h.step hv

end Resolver

/-! ## A whole unit -/

section Unit

variable {u : CompilationUnit} {order : ClassOrder} {signatures : Signatures}

theorem faithful_announced (distinct : u.nodeIds.Nodup) :
    (u.announced order signatures).Faithful := by
  have hmembers := (List.nodup_append.1 (CompilationUnit.nodup_declared distinct)).1
  exact Resolver.faithful_foldl (Resolver.announces_declareClass _)
    (fun _ _ => Resolver.faithful_declareClass) hmembers (fun _ _ => rfl)
    fun id _ hs => nomatch (Resolver.symbol?_empty id).symm.trans hs

theorem faithful_resolve (distinct : u.nodeIds.Nodup) :
    (resolve order u signatures).model.Faithful := by
  rw [resolve_model]
  exact (Resolver.ready_declareClasses _ distinct).faithful_run (faithful_announced distinct)

/-- A symbol of a variable of a body is that of a variable which a method of the unit declares. -/
theorem exists_declare_of_variable {id : SymbolId} {s : Symbol} {origin : VarOrigin}
    (hs : (resolve order u signatures).model.symbol? id = some s) (hk : s.kind = .var origin) :
    ∃ v, .declare (.var origin) v ∈ ClassDecl.stepsOf u.classes ∧ s.name = v.name ∧
      s.site = v.site := by
  have hannounced : (u.announced order signatures).NoVariables :=
    Resolver.noVariables_foldl (fun _ c hr => Resolver.noVariables_declareClass hr c)
      (fun id _ hs => nomatch (Resolver.symbol?_empty id).symm.trans hs) _
  rw [resolve_model] at hs
  rcases Resolver.symbol?_run hs with hs | ⟨kind, v, hv, hkind, hname, hsite⟩
  · have hno := hannounced id s hs
    rw [Symbol.isVariable, hk] at hno
    cases hno
  · cases hk.symm.trans hkind
    exact ⟨v, hv, hname, hsite⟩

theorem introduces_of_declare {kind : SymbolKind} {v : VarDecl} (distinct : u.nodeIds.Nodup)
    (h : .declare kind v ∈ ClassDecl.stepsOf u.classes) :
    ∃ id, (resolve order u signatures).model.Introduces v id := by
  rw [resolve_model]
  have hready := Resolver.ready_declareClasses (u.vocabulary order signatures) distinct
  exact hready.introduces_of_declare h

/-- An identifier of a unit refers to the symbol of what it means. -/
theorem rel_introduces_of_mem_uses (distinct : u.nodeIds.Nodup) {use : Use} (h : use ∈ u.uses) :
    Option.Rel (resolve order u signatures).model.Introduces use.target
      ((resolve order u signatures).model.reference? use.site.id) := by
  have hann : Resolver.Announces _ {} (u.announced order signatures) :=
    Resolver.announces_declareClasses (u.vocabulary order signatures) {} u.allClasses
  have hholds : Env.Holds (u.announced order signatures).Introduces
      (u.announced order signatures).scopes [] :=
    hann.scopes ▸ Env.Holds.empty
  rw [resolve_model]
  refine (Resolver.ready_declareClasses (u.vocabulary order signatures) distinct).resolves _ hholds
    (CompilationUnit.nodup_visited distinct) (fun i _ => ?_) use (u.usesAlong_steps ▸ h)
  exact congrArg (Table.get? · i) hann.references

end Unit

end HandleLint
