import HandleLint.Proofs.DeclaredMembers
import HandleLint.Proofs.EnvironmentSteps

/-!
# Names are resolved by lexical scope

While a unit is gone through, the scopes from the current one outwards hold the declarations of the
environment of lexical scope, scope by scope, under their symbols (`Env.Holds`). Every step keeps
that up, and so an identifier gets the symbol of the declaration that it means; with distinct
numbers of nodes, no later step writes over it.

* `Resolver.Ready.step`, `Resolver.Ready.holds_step`: what a step keeps;
* `Resolver.Ready.resolves`: what steps make of the identifiers they meet;
* `reference?_resolve`: every identifier of a unit refers to what it means.
-/

namespace HandleLint

open HandleLint.Resolver (Step)

theorem rel_mono {α β : Type} {R R' : α → β → Prop} {a : Option α} {b : Option β}
    (h : Option.Rel R a b) (hsub : ∀ x y, R x y → R' x y) : Option.Rel R' a b := by
  cases h with
  | none => exact .none
  | some hxy => exact .some (hsub _ _ hxy)

/-- The first result of two searches, where the results at each place correspond. -/
theorem rel_findSome? {α β γ δ : Type} {R : γ → δ → Prop} {f : α → Option γ} {g : β → Option δ}
    {as : List α} {bs : List β} (h : List.Forall₂ (fun a b => Option.Rel R (f a) (g b)) as bs) :
    Option.Rel R (as.findSome? f) (bs.findSome? g) := by
  induction h with
  | nil => exact .none
  | @cons a b as bs hab _ ih =>
    rw [List.findSome?_cons, List.findSome?_cons]
    generalize f a = x, g b = y at hab
    cases hab with
    | none => exact ih
    | some hxy => exact .some hxy

/-- Where the first declaration of each name agrees with what the name is bound to, one more
declaration keeps that up: a name that is bound already keeps its binding, and its declaration comes
first. -/
theorem agrees_insertIfNew {Q : Option VarDecl → Option Binding → Prop} {vs : List VarDecl}
    {bindings : Table String Binding} {v : VarDecl} {b : Binding}
    (h : ∀ name, Q (vs.find? (·.name = name)) (bindings.get? name))
    (hboth : ∀ first bound, Q first bound → bound.isSome = first.isSome)
    (hv : Q (some v) (some b)) (name : String) :
    Q ((vs ++ [v]).find? (·.name = name)) ((bindings.insertIfNew v.name b).get? name) := by
  have hname := h name
  rw [List.find?_append, Table.get?_insertIfNew]
  by_cases hn : v.name = name
  · subst hn
    have hsome := hboth _ _ hname
    simp only [List.find?_singleton, decide_true, if_true, beq_self_eq_true]
    generalize vs.find? (fun x => decide (x.name = v.name)) = first,
      bindings.get? v.name = bound at hname hsome ⊢
    cases first with
    | none =>
      cases bound with
      | none => exact hv
      | some _ => cases hsome
    | some _ =>
      cases bound with
      | none => cases hsome
      | some _ => exact hname
  · have hne : (name == v.name) = false := beq_false_of_ne (Ne.symm hn)
    simpa [List.find?_singleton, hn, hne] using hname

/-- A declaration comes into force in the innermost scope only. -/
theorem forall₂_declare {R : Scope → List VarDecl → Prop} {chain : List Scope} {env : Env}
    {v : VarDecl} {b : Binding}
    (hR : ∀ s vs, R s vs →
      R { s with bindings := s.bindings.insertIfNew v.name b } (vs ++ [v]))
    (h : List.Forall₂ R chain env) :
    List.Forall₂ R (ScopeTree.bindInnermost v.name b chain) (env.declare v) := by
  cases h with
  | nil => exact .nil
  | cons hs houter => exact .cons (hR _ _ hs) houter

/-- A scope binds the names of declarations, the first declaration of each name, to symbols. -/
def Scope.Holds (symbolOf : VarDecl → SymbolId → Prop) (s : Scope) (vs : List VarDecl) : Prop :=
  ∀ name, Option.Rel symbolOf (vs.find? (·.name = name)) ((s.bindings.get? name).map (·.symbol))

/-- The scopes of a tree, from the current one outwards, hold an environment. -/
structure Env.Holds (symbolOf : VarDecl → SymbolId → Prop) (t : ScopeTree) (env : Env) : Prop where
  scopes : List.Forall₂ (Scope.Holds symbolOf) t.chain env

section Holds

variable {symbolOf symbolOf' : VarDecl → SymbolId → Prop} {s : Scope} {vs : List VarDecl}
  {chain : List Scope} {t : ScopeTree} {env : Env}

theorem Scope.Holds.declare (h : s.Holds symbolOf vs) {v : VarDecl} {id : SymbolId}
    (hv : symbolOf v id) :
    Scope.Holds symbolOf { s with bindings := s.bindings.insertIfNew v.name ⟨id, v.span⟩ }
      (vs ++ [v]) := by
  refine agrees_insertIfNew
    (Q := fun first bound => Option.Rel symbolOf first (bound.map Binding.symbol))
    h (fun first bound hrel => ?_) (Option.Rel.some hv)
  cases bound with
  | none => cases hrel; rfl
  | some _ => cases hrel; rfl

theorem rel_lookup? (h : List.Forall₂ (Scope.Holds symbolOf) chain env) (name : String) :
    Option.Rel symbolOf (env.lookup? name)
      ((chain.findSome? (·.bindings.get? name)).map (·.symbol)) := by
  rw [List.map_findSome?]
  exact rel_findSome? (h.flip.imp fun vs s hs => hs name)

namespace Env.Holds

theorem empty : Holds symbolOf {} [] :=
  ⟨.nil⟩

theorem mono (h : Holds symbolOf t env) (hsub : ∀ v id, symbolOf v id → symbolOf' v id) :
    Holds symbolOf' t env :=
  ⟨h.scopes.imp fun _ _ hs name => rel_mono (hs name) hsub⟩

/-- Looking a name up in the tree finds the symbol of what it means. -/
theorem lookup? (h : Holds symbolOf t env) (name : String) :
    Option.Rel symbolOf (env.lookup? name) (t.lookup? name) :=
  rel_lookup? h.scopes name

theorem enter (h : Holds symbolOf t env) (kind : ScopeKind) :
    Holds symbolOf (t.enter kind) env.nested := by
  refine ⟨?_⟩
  rw [ScopeTree.chain_enter]
  exact .cons (fun name => .none) h.scopes

theorem leave (h : Holds symbolOf t env) : Holds symbolOf t.leave env.tail := by
  obtain ⟨hscopes⟩ := h
  refine ⟨?_⟩
  rw [ScopeTree.chain_leave]
  exact forall₂_tail hscopes

/-- A declaration comes into force in the innermost scope; it changes nothing if its name is bound
there already. -/
theorem declare (h : Holds symbolOf t env) {v : VarDecl} {id : SymbolId} (hv : symbolOf v id) :
    Holds symbolOf (t.declared v.name ⟨id, v.span⟩) (env.declare v) := by
  obtain ⟨hscopes⟩ := h
  refine ⟨?_⟩
  rw [ScopeTree.chain_declared]
  exact forall₂_declare (fun _ _ hs => hs.declare hv) hscopes

theorem declareAll (h : Holds symbolOf t env) {vs : List VarDecl} {ids : List SymbolId}
    (hvs : List.Forall₂ symbolOf vs ids) :
    Holds symbolOf (t.declaredAll (vs.zip ids)) (vs.foldl Env.declare env) := by
  induction hvs generalizing t env with
  | nil => exact h
  | cons hv _ ih => exact ih (h.declare hv)

end Env.Holds

end Holds

namespace Resolver

variable {voc : Vocabulary} {r : Resolver} {env : Env} {s : Step} {steps rest : List Step}

/-- The steps can be taken: they declare variables that have no symbol yet, each once, and open
classes whose fields have theirs. -/
structure Ready (r : Resolver) (steps : List Step) : Prop where
  nodup : (steps.filterMap Step.declared?).Nodup
  fresh : ∀ i ∈ steps.filterMap Step.declared?, r.declaration? i = none
  known : ∀ c, .openClass c ∈ steps → r.KnowsFields c

/-- A step that declares a new variable leaves the symbols of the others alone. -/
theorem introduces_step (hfresh : ∀ i ∈ s.declared?, r.declaration? i = none) (v : VarDecl)
    (id : SymbolId) (h : r.Introduces v id) : (step voc r s).Introduces v id := by
  obtain ⟨e, _, _, _, _, -, hs, -⟩ | ⟨kind, w, _, _, rfl, hs⟩ | ⟨-, _, _, hs⟩ := step_cases voc r s
  · rw [hs]
    exact ⟨h.declaration, h.symbol⟩
  · have hne : v.id ∉ [w.site.id] := by
      intro hm
      have hnone := hfresh v.id (congrArg some (List.mem_singleton.1 hm).symm)
      cases hnone.symm.trans h.declaration
    have hkept := (announces_addSymbol r w.name kind (voc.types.qualify w.type) w.site).introduces
      hne h
    rw [hs]
    exact ⟨hkept.declaration, hkept.symbol⟩
  · rw [hs]
    exact ⟨h.declaration, h.symbol⟩

theorem Ready.fresh_head (h : Ready r (s :: rest)) : ∀ i ∈ s.declared?, r.declaration? i = none :=
  fun i hi => h.fresh i (List.mem_filterMap.2 ⟨s, List.mem_cons_self, hi⟩)

theorem Ready.step (h : Ready r (s :: rest)) : Ready (step voc r s) rest where
  nodup := h.nodup.sublist ((List.sublist_cons_self s rest).filterMap _)
  fresh := by
    intro i hi
    have hne : s.declared? ≠ some i := by
      intro hs
      have hnd := h.nodup
      rw [List.filterMap_cons_some hs] at hnd
      exact (List.nodup_cons.1 hnd).1 hi
    rw [declaration?_step_of_ne voc r hne]
    exact h.fresh i (((List.sublist_cons_self s rest).filterMap _).subset hi)
  known := by
    intro c hc
    refine (h.known c (List.mem_cons_of_mem s hc)).mono ?_ fun v _ id => ?_
    · rw [classMembers, step_members, classMembers]
    · exact introduces_step h.fresh_head v id

theorem Ready.introduces_run (h : Ready r steps) (v : VarDecl) (id : SymbolId)
    (hv : r.Introduces v id) : (run voc r steps).Introduces v id := by
  induction steps generalizing r with
  | nil => exact hv
  | cons s rest ih => exact ih h.step (introduces_step h.fresh_head v id hv)

/-- After a step the scopes hold the environment after the step. -/
theorem Ready.holds_step (h : Ready r (s :: rest)) (henv : env.Holds r.Introduces r.scopes) :
    (env.step s).Holds (Resolver.step voc r s).Introduces (Resolver.step voc r s).scopes := by
  have hkeep : ∀ v id, r.Introduces v id → (Resolver.step voc r s).Introduces v id :=
    introduces_step h.fresh_head
  have hkept := henv.mono hkeep
  cases s with
  | openClass c =>
    obtain ⟨problems, hs⟩ := exists_openClass voc r c
    have hfields := introduces_all_mono (h.known c List.mem_cons_self) fun v _ => hkeep v
    rw [hs] at hkept hfields ⊢
    exact (hkept.enter _).declareAll hfields
  | openMethod m => exact hkept.enter _
  | openBlock => exact hkept.enter _
  | leave => exact hkept.leave
  | visit e =>
    obtain ⟨_, _, _, _, hs, -⟩ := exists_visit voc r e
    rw [Resolver.step, hs] at hkept ⊢
    exact hkept
  | declare kind v =>
    obtain ⟨problems, hs⟩ := exists_declare voc r kind v
    have hnew := introduces_addSymbol r v kind (voc.types.qualify v.type)
    rw [hs] at hkept ⊢
    exact hkept.declare ⟨hnew.declaration, hnew.symbol⟩

/-- Visiting an identifier for the first time makes it refer to what its name is bound to. -/
theorem reference?_visit_ident {site : Site} (h : r.reference? site.id = none) (name : String) :
    (visit voc r (.ident site name)).reference? site.id = r.scopes.lookup? name := by
  rw [visit]
  cases hl : r.scopes.lookup? name with
  | some id => simp [refer, Model.reference?]
  | none =>
    simp only
    split <;> exact h

/-- The steps end with every identifier they met referring to what it means. -/
theorem Ready.resolves (voc : Vocabulary) (h : Ready r steps)
    (henv : env.Holds r.Introduces r.scopes)
    (hvisited : (steps.filterMap Step.visited?).Nodup)
    (hnew : ∀ i ∈ steps.filterMap Step.visited?, r.reference? i = none) :
    ∀ use ∈ env.usesAlong steps, Option.Rel (run voc r steps).Introduces use.target
      ((run voc r steps).reference? use.site.id) := by
  induction steps generalizing r env with
  | nil => exact nofun
  | cons s rest ih =>
    have hsub := (List.sublist_cons_self s rest).filterMap Step.visited?
    -- What the step visits is not visited again.
    have honce : ∀ i, s.visited? = some i → i ∉ rest.filterMap Step.visited? := by
      intro i hs
      rw [List.filterMap_cons_some hs] at hvisited
      exact (List.nodup_cons.1 hvisited).1
    intro use huse
    rw [Env.usesAlong, List.mem_append] at huse
    rcases huse with huse | huse
    · obtain ⟨rfl, htarget⟩ := Env.useAt?_eq_some (Option.mem_toList.1 huse)
      have hseen : r.reference? use.site.id = none := hnew _ List.mem_cons_self
      let visited := Resolver.step voc r (.visit (.ident use.site use.name))
      have hrefer : (run voc visited rest).reference? use.site.id = r.scopes.lookup? use.name := by
        rw [reference?_run_of_not_mem voc _ (honce use.site.id rfl)]
        exact reference?_visit_ident hseen use.name
      rw [run_cons, hrefer, htarget]
      exact rel_mono (henv.lookup? use.name) fun v id hv =>
        h.step.introduces_run v id (introduces_step h.fresh_head v id hv)
    · refine ih h.step (h.holds_step henv) (hvisited.sublist hsub) (fun i hi => ?_) use huse
      rw [reference?_step_of_ne voc r fun hs => honce i hs hi]
      exact hnew i (hsub.subset hi)

/-! ## A whole unit -/

/-- After the classes and their members have their symbols, the bodies can be gone through. -/
theorem ready_declareClasses (voc : Vocabulary) {u : CompilationUnit} (h : u.nodeIds.Nodup) :
    Ready (u.allClasses.foldl (declareClass voc) {}) (ClassDecl.stepsOf u.classes) := by
  obtain ⟨hmembers, hvars, hdisjoint⟩ := List.nodup_append.1 (CompilationUnit.nodup_declared h)
  refine ⟨hvars, fun i hi => ?_, fun c hc => ?_⟩
  · exact (announces_declareClasses voc {} u.allClasses).others fun hm => hdisjoint i hm i hi rfl
  · exact knowsFields_declareClasses voc {} hmembers c
      (ClassDecl.mem_withNestedAll_of_openClass hc)

theorem resolveClasses_declareClasses (voc : Vocabulary) (u : CompilationUnit) :
    resolveClasses voc (u.allClasses.foldl (declareClass voc) {}) u.classes =
      run voc (u.allClasses.foldl (declareClass voc) {}) (ClassDecl.stepsOf u.classes) := by
  refine resolveClasses_eq_run voc u.classes fun c hc m hm => ?_
  refine (announces_declareClasses voc {} u.allClasses).declared (.inl ?_)
  exact List.mem_flatMap.2 ⟨c, hc, ClassDecl.mem_memberIds_of_method hm⟩

end Resolver

/-- Resolution implements lexical scope. In a unit whose nodes have distinct numbers, the rules of
lexical scope give one meaning to every identifier in the initial value of a field or in the body of
a method, and the identifier refers to the symbol of the declaration that it means; where it means
none, it refers to nothing. -/
theorem reference?_resolve (order : ClassOrder) (u : CompilationUnit) (signatures : Signatures)
    (distinct : u.nodeIds.Nodup) :
    (∀ site name, u.Mentions (.ident site name) ↔ ∃ target, ⟨site, name, target⟩ ∈ u.uses) ∧
    (u.uses.map (·.site.id)).Nodup ∧
    ∀ use ∈ u.uses, Option.Rel (resolve order u signatures).model.Introduces use.target
      ((resolve order u signatures).model.reference? use.site.id) := by
  let voc : Vocabulary := { types := TypeNames.ofUnit u signatures, signatures, order }
  let start := u.allClasses.foldl (Resolver.declareClass voc) {}
  have hann : Resolver.Announces _ {} start := Resolver.announces_declareClasses voc {} u.allClasses
  have hholds : Env.Holds start.Introduces start.scopes [] := hann.scopes ▸ Env.Holds.empty
  have hnone : ∀ i, start.reference? i = none := fun i => congrArg (Table.get? · i) hann.references
  have hvisited := CompilationUnit.nodup_visited distinct
  have hall := (Resolver.ready_declareClasses voc distinct).resolves voc hholds hvisited
    fun i _ => hnone i
  rw [CompilationUnit.usesAlong_steps, ← Resolver.resolveClasses_declareClasses] at hall
  refine ⟨fun site name => CompilationUnit.mem_uses_iff.symm, ?_, hall⟩
  exact hvisited.sublist (u.usesAlong_steps ▸ Env.usesAlong_sublist [] _)

/-- A class with the fields `f` and `g`, where `f` starts as `g`. Its method takes `p`, starts a
local `a` from `a`, shadows `f` in a loop over `p`, reads `f`, and has a `try` whose handler reads
the resource. A member class has a `g` of its own and reads both fields. -/
def shadowingUnit : CompilationUnit where
  classes := [{
    site := ⟨0, {}⟩
    name := "A"
    fields := [⟨⟨1, {}⟩, "f", "R", some (.ident ⟨2, {}⟩ "g")⟩, ⟨⟨3, {}⟩, "g", "R", none⟩]
    methods := [{
      site := ⟨4, {}⟩
      name := "m"
      params := [⟨⟨5, {}⟩, "p", "R", none⟩]
      returnType := none
      body := some [
        .localVar ⟨6, {}⟩ ⟨⟨7, {}⟩, "a", "R", some (.ident ⟨8, {}⟩ "a")⟩,
        .forEachStmt ⟨9, {}⟩ ⟨⟨10, {}⟩, "f", "R", none⟩ (.ident ⟨11, {}⟩ "p")
          [.exprStmt ⟨12, {}⟩ (.ident ⟨13, {}⟩ "f")],
        .exprStmt ⟨14, {}⟩ (.ident ⟨15, {}⟩ "f"),
        .tryStmt ⟨16, {}⟩ [⟨⟨17, {}⟩, "r", "R", some (.ident ⟨18, {}⟩ "a")⟩]
          [.exprStmt ⟨19, {}⟩ (.ident ⟨20, {}⟩ "r")]
          [.mk ⟨⟨21, {}⟩, "e", "E", none⟩ [.throwStmt ⟨22, {}⟩ (.ident ⟨23, {}⟩ "r")]] none] }]
    nested := [{
      site := ⟨24, {}⟩
      name := "B"
      fields := [⟨⟨25, {}⟩, "g", "R", some (.ident ⟨26, {}⟩ "f")⟩]
      methods := [{
        site := ⟨27, {}⟩
        name := "n"
        params := []
        returnType := some "R"
        body := some [.returnStmt ⟨28, {}⟩ (some (.ident ⟨29, {}⟩ "g"))] }]
      nested := [] }] }]

theorem reference?_resolve_shadowingUnit :
    shadowingUnit.nodeIds.Nodup ∧
    (shadowingUnit.uses.map fun use => (use.site.id, use.target.map (·.id))) =
      [(2, some 3), (8, none), (11, some 5), (13, some 10), (15, some 1), (18, some 7),
        (20, some 17), (23, none), (26, some 1), (29, some 25)] ∧
    ∀ use ∈ shadowingUnit.uses,
      Option.Rel (resolve .increasing shadowingUnit {}).model.Introduces use.target
        ((resolve .increasing shadowingUnit {}).model.reference? use.site.id) := by
  have distinct : shadowingUnit.nodeIds.Nodup := by decide
  exact ⟨distinct, by decide, (reference?_resolve .increasing shadowingUnit {} distinct).2.2⟩

end HandleLint
