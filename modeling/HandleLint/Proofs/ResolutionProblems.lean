import HandleLint.Proofs.EnclosingClasses
import HandleLint.Proofs.Encounters

/-!
# Problems with names, one by one

What goes wrong while names are resolved can be read off the unit and the tables that it ends with:
each expression and each declaration that is met accounts for one problem or for none.

* `Encounter.problem?`: the problem that is due to what is met;
* `Env.Records`: the scopes have the spans of the first declarations of names;
* `Resolver.problems_step`, `Resolver.problems_run`: what steps add to the problems;
* `Resolver.scopes_resolveClass`: a class leaves the scopes as they were;
* `problems_resolve`: the problems of a unit.
-/

namespace HandleLint

open HandleLint.Resolver (Step)

/-! ## The problem that is due -/

namespace Encounter

/-- The problem of an identifier that refers to nothing and names no type, of a call on `this`,
written or not, that calls nothing, or of a name that is declared again in its scope. -/
def problem? (m : Model) (types : TypeNames) : Encounter → Option Problem
  | .expression (.ident site name) =>
    if m.reference? site.id = none ∧ types.qualify name = none then
      some ⟨.undefinedSymbol name, site.span⟩
    else none
  | .expression (.call site receiver method args) =>
    if receiver.all Expr.isThis ∧ (m.callTarget? site.id).bind (·.callee) = none then
      some ⟨.unknownMethod method args.length, site.span⟩
    else none
  | .expression _ => none
  | .declaration v earlier =>
    (earlier.find? (·.name = v.name)).map fun first =>
      ⟨.duplicateDefinition v.name first.span, v.span⟩

variable {m m' : Model} {types : TypeNames}

theorem problem?_expression_congr {e : Expr} (href : m.reference? e.id = m'.reference? e.id)
    (hcall : m.callTarget? e.id = m'.callTarget? e.id) :
    problem? m types (.expression e) = problem? m' types (.expression e) := by
  cases e with
  | ident site name =>
    have href' : m.reference? site.id = m'.reference? site.id := href
    rw [problem?, problem?, href']
  | call site receiver method args =>
    have hcall' : m.callTarget? site.id = m'.callTarget? site.id := hcall
    rw [problem?, problem?, hcall']
  | _ => rfl

end Encounter

/-! ## The spans in scopes -/

/-- A scope has the spans of declarations, of the first one of each name. -/
def Scope.Records (s : Scope) (vs : List VarDecl) : Prop :=
  ∀ name, (s.bindings.get? name).map (·.span) = (vs.find? (·.name = name)).map VarDecl.span

theorem Scope.Records.declare {s : Scope} {vs : List VarDecl} (h : s.Records vs) (v : VarDecl)
    (id : SymbolId) :
    Scope.Records { s with bindings := s.bindings.insertIfNew v.name ⟨id, v.span⟩ }
      (vs ++ [v]) := by
  refine agrees_insertIfNew
    (Q := fun first bound => bound.map Binding.span = first.map VarDecl.span)
    h (fun first bound hspan => ?_) rfl
  simpa using congrArg Option.isSome hspan

/-- The scopes of a tree, from the current one outwards, have the spans of an environment. -/
structure Env.Records (t : ScopeTree) (env : Env) : Prop where
  scopes : List.Forall₂ Scope.Records t.chain env

namespace Env.Records

variable {t : ScopeTree} {env : Env}

theorem empty : Records {} [] :=
  ⟨.nil⟩

theorem enter (h : Records t env) (kind : ScopeKind) : Records (t.enter kind) env.nested := by
  refine ⟨?_⟩
  rw [ScopeTree.chain_enter]
  exact .cons (fun name => rfl) h.scopes

theorem leave (h : Records t env) : Records t.leave env.tail := by
  refine ⟨?_⟩
  rw [ScopeTree.chain_leave]
  exact forall₂_tail h.scopes

theorem declare (h : Records t env) (v : VarDecl) (id : SymbolId) :
    Records (t.declared v.name ⟨id, v.span⟩) (env.declare v) := by
  refine ⟨?_⟩
  rw [ScopeTree.chain_declared]
  exact forall₂_declare (fun _ _ hs => hs.declare v id) h.scopes

theorem declareAll (h : Records t env) (entries : List (VarDecl × SymbolId)) :
    Records (t.declaredAll entries) ((entries.map Prod.fst).foldl Env.declare env) := by
  induction entries generalizing t env with
  | nil => exact h
  | cons entry rest ih => exact ih (h.declare entry.1 entry.2)

/-- Binding a name in the current scope fails with the problem that is due, if there is one. -/
theorem define (h : Records t env) (v : VarDecl) (id : SymbolId) (m : Model) (types : TypeNames) :
    match Encounter.problem? m types (.declaration v (env.headD [])) with
    | none => ∃ t', t.define v.name id v.span = .ok t'
    | some p => t.define v.name id v.span = .error p := by
  have hscopes := h.scopes
  unfold ScopeTree.define Encounter.problem?
  generalize t.chain = chain at hscopes
  cases hscopes with
  | nil => exact ⟨t, rfl⟩
  | @cons s vs outer _ hs _ =>
    have hname := hs v.name
    simp only [List.headD_cons]
    generalize vs.find? (fun x => decide (x.name = v.name)) = first at hname ⊢
    cases hb : s.bindings.get? v.name with
    | none =>
      rw [hb] at hname
      cases first with
      | none => exact ⟨_, rfl⟩
      | some w => cases hname
    | some b =>
      rw [hb] at hname
      cases first with
      | none => cases hname
      | some w =>
        have hspan : b.span = w.span := Option.some.inj hname
        simp [hspan]

end Env.Records

theorem Table.keys_insert_perm {κ α : Type} [Ord κ] [Std.TransOrd κ] [Std.LawfulEqOrd κ]
    {t : Table κ α} {k : κ} {v : α} (h : k ∉ t.keys) :
    (t.insert k v).keys.Perm (k :: t.keys) := by
  show ((place k v t.entries).map Prod.fst).Perm (k :: t.entries.map Prod.fst)
  unfold keys at h
  generalize t.entries = entries at h
  induction entries with
  | nil => exact .refl _
  | cons e rest ih =>
    unfold place
    split
    · exact .refl _
    next heq => exact absurd (Std.LawfulEqOrd.eq_of_compare heq) fun hk => h (hk ▸ .head _)
    · exact ((ih fun hmem => h (.tail _ hmem)).cons _).trans (.swap ..)

theorem ScopeTree.current_declared (t : ScopeTree) (name : String) (b : Binding) :
    (t.declared name b).current = t.current := by
  unfold declared define
  cases t.chain with
  | nil => rfl
  | cons s outer => cases hb : s.bindings.get? name <;> simp [hb, bindIn, mapScopes]

namespace Resolver

variable {voc : Vocabulary} {r : Resolver} {env : Env} {s : Step} {steps rest : List Step}

/-! ## What a step adds -/

theorem problems_bind (h : env.Records r.scopes) (v : VarDecl) (id : SymbolId) (m : Model)
    (types : TypeNames) :
    (r.bind v.name id v.span).problems.toList = r.problems.toList ++
      (Encounter.problem? m types (.declaration v (env.headD []))).toList := by
  have hdefine := h.define v id m types
  unfold bind
  cases hdue : Encounter.problem? m types (.declaration v (env.headD [])) with
  | none =>
    rw [hdue] at hdefine
    obtain ⟨t, ht⟩ := hdefine
    rw [ht]
    exact (List.append_nil _).symm
  | some p =>
    rw [hdue] at hdefine
    simp only at hdefine
    rw [hdefine]
    exact Array.toList_push

/-- Names that are bound one after the other in one scope. -/
theorem problems_foldl_bind {scope : List VarDecl} {outer : Env}
    (h : Env.Records r.scopes (scope :: outer)) (entries : List (VarDecl × SymbolId)) (m : Model)
    (types : TypeNames) :
    (entries.foldl (fun r (v, id) => r.bind v.name id v.span) r).problems.toList =
      r.problems.toList ++ (VarDecl.declarationsInTurn scope (entries.map Prod.fst)).filterMap
        (Encounter.problem? m types) := by
  induction entries generalizing r scope with
  | nil => exact (List.append_nil _).symm
  | cons entry rest ih =>
    obtain ⟨v, id⟩ := entry
    obtain ⟨problems, hbind⟩ := exists_bind r v.name id v.span
    have hnext : Env.Records (r.bind v.name id v.span).scopes ((scope ++ [v]) :: outer) := by
      rw [hbind]
      exact h.declare v id
    rw [List.foldl_cons, ih hnext, problems_bind h v id m types, List.append_assoc, List.map_cons,
      VarDecl.declarationsInTurn, List.filterMap_cons]
    simp only [List.headD_cons]
    cases Encounter.problem? m types (.declaration v scope) <;> rfl

theorem problems_openClass (h : env.Records r.scopes) {c : ClassDecl} (hc : r.KnowsFields c)
    (m : Model) (types : TypeNames) :
    (step voc r (.openClass c)).problems.toList = r.problems.toList ++
      (VarDecl.declarationsInTurn [] c.fields).filterMap (Encounter.problem? m types) := by
  have hfields : (c.fields.zip (r.classMembers c.id).fields).map Prod.fst = c.fields :=
    List.map_fst_zip (Nat.le_of_eq (List.Forall₂.length_eq hc))
  have hinside : Env.Records (r.enter (.classBody c.id)).scopes ([] :: env) := h.enter _
  have hfold := problems_foldl_bind hinside (c.fields.zip (r.classMembers c.id).fields) m types
  rw [hfields] at hfold
  exact hfold

theorem problems_ownTarget (r : Resolver) (method : String) (arity : Nat) (span : Span) :
    (r.ownTarget method arity span).2.problems.toList = r.problems.toList ++
      if (r.ownTarget method arity span).1.callee = none then
        [⟨.unknownMethod method arity, span⟩]
      else [] := by
  unfold ownTarget
  split
  · exact (List.append_nil _).symm
  · exact Array.toList_push

theorem problems_memberTarget (r : Resolver) (owner method : String) (arity : Nat) :
    (memberTarget voc r owner method arity).2.problems = r.problems := by
  unfold memberTarget
  split
  · rfl
  · split <;> rfl

/-- A call on `this` is a problem where it has no callee, and no other call is. -/
theorem problems_callTarget (r : Resolver) (receiver : Option Expr) (method : String) (arity : Nat)
    (span : Span) :
    (callTarget voc r receiver method arity span).2.problems.toList = r.problems.toList ++
      if receiver.all Expr.isThis ∧
          (callTarget voc r receiver method arity span).1.callee = none then
        [⟨.unknownMethod method arity, span⟩]
      else [] := by
  have hown := r.problems_ownTarget method arity span
  cases receiver with
  | none => simpa [callTarget] using hown
  | some e =>
    by_cases he : e.isThis
    · simpa [callTarget, he] using hown
    · have hnot : ¬ (Option.all Expr.isThis (some e) = true ∧
          (callTarget voc r (some e) method arity span).1.callee = none) := fun h => he h.1
      rw [if_neg hnot, List.append_nil]
      simp only [callTarget, if_neg he]
      split
      · rfl
      · exact congrArg _ (problems_memberTarget r _ method arity)

theorem problems_visit {e : Expr} (h : r.reference? e.id = none) :
    (visit voc r e).problems.toList = r.problems.toList ++
      (Encounter.problem? (visit voc r e).toModel voc.types (.expression e)).toList := by
  cases e with
  | ident site name =>
    have hrefer : (visit voc r (.ident site name)).reference? site.id = r.scopes.lookup? name :=
      reference?_visit_ident h name
    rw [Encounter.problem?, hrefer, visit]
    cases r.scopes.lookup? name with
    | some id => simp [refer]
    | none =>
      cases hq : voc.types.qualify name with
      | some type => simp
      | none => simp [report]
  | call site receiver method args =>
    rw [Encounter.problem?, callTarget?_visit_call]
    simp only [visit, Option.bind_some, problems_callTarget]
    split <;> rfl
  | field site object name =>
    simp only [visit, Encounter.problem?]
    split <;> simp [refer]
  | _ => exact (List.append_nil _).symm

theorem Ready.records_step (h : Ready r (s :: rest)) (henv : env.Records r.scopes) :
    (env.step s).Records (Resolver.step voc r s).scopes := by
  cases s with
  | openClass c =>
    obtain ⟨problems, hs⟩ := exists_openClass voc r c
    have hfields : (c.fields.zip (r.classMembers c.id).fields).map Prod.fst = c.fields :=
      List.map_fst_zip (Nat.le_of_eq (h.known c List.mem_cons_self).length_eq)
    have hinside := (henv.enter (.classBody c.id)).declareAll
      (c.fields.zip (r.classMembers c.id).fields)
    rw [hfields] at hinside
    rw [hs]
    exact hinside
  | openMethod m => exact henv.enter _
  | openBlock => exact henv.enter _
  | leave => exact henv.leave
  | visit e =>
    obtain ⟨_, _, _, _, hs, -⟩ := exists_visit voc r e
    rw [Resolver.step, hs]
    exact henv
  | declare kind v =>
    obtain ⟨problems, hs⟩ := exists_declare voc r kind v
    rw [hs]
    exact henv.declare v _

/-- A step adds the problems that are due to what it meets, by any tables that tell of the
expression that it visits what the tables after the step do. -/
theorem Ready.problems_step (h : Ready r (s :: rest)) (henv : env.Records r.scopes)
    (hnew : ∀ i ∈ s.visited?, r.reference? i = none) {m : Model}
    (hrefer : ∀ i ∈ s.visited?, m.reference? i = (Resolver.step voc r s).reference? i)
    (hcall : ∀ i ∈ s.visited?, m.callTarget? i = (Resolver.step voc r s).callTarget? i) :
    (Resolver.step voc r s).problems.toList = r.problems.toList ++
      (env.encountersAt s).filterMap (Encounter.problem? m voc.types) := by
  cases s with
  | openClass c => exact problems_openClass henv (h.known c List.mem_cons_self) m voc.types
  | visit e =>
    rw [Env.encountersAt, List.filterMap_eq_flatMap_toList, List.flatMap_singleton,
      Encounter.problem?_expression_congr (hrefer e.id rfl) (hcall e.id rfl)]
    exact problems_visit (hnew e.id rfl)
  | declare kind v =>
    rw [Env.encountersAt, List.filterMap_eq_flatMap_toList, List.flatMap_singleton]
    exact problems_bind (r := r.addSymbol v.name kind (voc.types.qualify v.type) v.site) henv v
      r.symbols.next m voc.types
  | openMethod m => exact (List.append_nil _).symm
  | openBlock => exact (List.append_nil _).symm
  | leave => exact (List.append_nil _).symm

/-- Steps that visit each expression once add the problems that are due to what they meet, by the
tables that they end with. -/
theorem Ready.problems_run (voc : Vocabulary) (h : Ready r steps) (henv : env.Records r.scopes)
    (hvisited : (steps.filterMap Step.visited?).Nodup)
    (hnew : ∀ i ∈ steps.filterMap Step.visited?, r.reference? i = none) :
    (run voc r steps).problems.toList = r.problems.toList ++
      (env.encountersAlong steps).filterMap
        (Encounter.problem? (run voc r steps).toModel voc.types) := by
  induction steps generalizing r env with
  | nil => exact (List.append_nil _).symm
  | cons s rest ih =>
    have hsub := (List.sublist_cons_self s rest).filterMap Step.visited?
    have honce : ∀ i, s.visited? = some i → i ∉ rest.filterMap Step.visited? := by
      intro i hs
      rw [List.filterMap_cons_some hs] at hvisited
      exact (List.nodup_cons.1 hvisited).1
    have hfirst : ∀ i ∈ s.visited?, r.reference? i = none :=
      fun i hi => hnew i (List.mem_filterMap.2 ⟨s, List.mem_cons_self, hi⟩)
    have hstep := h.problems_step henv hfirst
      (fun i hi => reference?_run_of_not_mem voc (Resolver.step voc r s) (honce i hi))
      (fun i hi => callTarget?_run_of_not_mem voc (Resolver.step voc r s) (honce i hi))
    rw [run_cons, ih h.step (h.records_step henv) (hvisited.sublist hsub), hstep,
      Env.encountersAlong, List.filterMap_append, List.append_assoc]
    intro i hi
    rw [reference?_step_of_ne voc r fun hs => honce i hs hi]
    exact hnew i (hsub.subset hi)

/-! ## Back to the scopes before -/

/-- Where the scopes are as before, so is the number of the current one. -/
theorem current_eq_of_chain {t t' : ScopeTree} (h : t'.chain = t.chain) :
    t'.current = t.current := by
  rw [t'.current_eq, t.current_eq, h]

/-- Balanced steps end in the scope in which they began. -/
theorem Balanced.current_run (h : Balanced steps) :
    (run voc r steps).scopes.current = r.scopes.current := by
  induction h generalizing r with
  | nil => rfl
  | visit e =>
    obtain ⟨_, _, _, _, hs, -⟩ := exists_visit voc r e
    rw [run_cons, run_nil, step, hs]
  | declare kind v =>
    obtain ⟨_, hs⟩ := exists_declare voc r kind v
    rw [run_cons, run_nil, hs]
    exact r.scopes.current_declared _ _
  | scope hinner _ =>
    rw [run_cons, run_append, run_cons, run_nil]
    exact current_eq_of_chain (scopes_leave hinner.scopes_run)
  | append _ _ ih ih' => rw [run_append, ih', ih]

theorem scopes_evaluate (voc : Vocabulary) (r : Resolver) (e : Expr) :
    (evaluate voc r e).scopes = r.scopes := by
  unfold evaluate
  induction e.postorder generalizing r with
  | nil => rfl
  | cons x rest ih =>
    obtain ⟨_, _, _, _, hx, -⟩ := exists_visit voc r x
    rw [List.foldl_cons, ih, hx]

theorem scopes_foldl_evaluate (voc : Vocabulary) (r : Resolver) (es : List Expr) :
    (es.foldl (evaluate voc) r).scopes = r.scopes := by
  induction es generalizing r with
  | nil => rfl
  | cons e rest ih => rw [List.foldl_cons, ih, scopes_evaluate]

/-- After a method the scopes are what they were. -/
theorem scopes_resolveMethod (voc : Vocabulary) (r : Resolver) (m : MethodDecl) :
    (resolveMethod voc r m).scopes.chain = r.scopes.chain := by
  cases hdecl : r.declaration? m.id with
  | some symbol =>
    rw [resolveMethod_eq_run voc (Option.isSome_iff_exists.2 ⟨symbol, hdecl⟩)]
    exact m.scopes_run voc r
  | none =>
    have hskip : resolveMethod voc r m = r := by
      unfold resolveMethod
      rw [hdecl]
      cases m.body <;> rfl
    rw [hskip]

theorem scopes_foldl_resolveMethod (voc : Vocabulary) (r : Resolver) (ms : List MethodDecl) :
    (ms.foldl (resolveMethod voc) r).scopes.chain = r.scopes.chain := by
  induction ms generalizing r with
  | nil => rfl
  | cons m rest ih => rw [List.foldl_cons, ih, scopes_resolveMethod]

/-- Binding fields changes no scope but the innermost. -/
theorem scopes_bindFields (r : Resolver) (c : ClassDecl) :
    (r.bindFields c).scopes.chain.tail = r.scopes.chain.tail := by
  obtain ⟨problems, hfields⟩ := exists_bindFields r c
  rw [hfields]
  show (r.scopes.declaredAll _).chain.tail = _
  generalize r.scopes = t, c.fields.zip (r.classMembers c.id).fields = entries
  induction entries generalizing t with
  | nil => rfl
  | cons entry rest ih => exact (ih _).trans (t.tail_chain_declared _ _)

mutual

theorem scopes_resolveClass (voc : Vocabulary) (r : Resolver) :
    (c : ClassDecl) → (resolveClass voc r c).scopes.chain = r.scopes.chain
  | ⟨site, name, fields, methods, nested⟩ => by
    let c : ClassDecl := ⟨site, name, fields, methods, nested⟩
    let opened := (r.enter (.classBody c.id)).bindFields c
    let filled := (fields.flatMap (·.init.toList)).foldl (evaluate voc) opened
    have htail := (r.enter (.classBody c.id)).scopes_bindFields c
    have hvalues : filled.scopes = opened.scopes := scopes_foldl_evaluate voc opened _
    have hmethods := scopes_foldl_resolveMethod voc filled methods
    have hnested := scopes_resolveClasses voc (methods.foldl (resolveMethod voc) filled) nested
    have houter := congrArg List.tail ((hnested.trans hmethods).trans (congrArg _ hvalues))
    rw [resolveClass]
    exact scopes_leave (houter.trans htail)

theorem scopes_resolveClasses (voc : Vocabulary) (r : Resolver) :
    (cs : List ClassDecl) → (resolveClasses voc r cs).scopes.chain = r.scopes.chain
  | [] => by rw [resolveClasses]
  | c :: cs => by
    rw [resolveClasses, scopes_resolveClasses voc _ cs, scopes_resolveClass voc r c]

end

/-- After a statement the current scope and those around it are what they were. -/
theorem scopes_foldl_perform (voc : Vocabulary) (r : Resolver) (s : Stmt) :
    (s.actions.foldl (perform voc) r).scopes.current = r.scopes.current ∧
      (s.actions.foldl (perform voc) r).scopes.chain.tail = r.scopes.chain.tail := by
  rw [foldl_perform_eq_run]
  exact ⟨s.balanced.current_run, s.balanced.scopes_run⟩

theorem problems_foldl {α : Type} {f : Resolver → α → Resolver}
    (hf : ∀ r a, (f r a).problems = r.problems) (r : Resolver) (as : List α) :
    (as.foldl f r).problems = r.problems := by
  induction as generalizing r with
  | nil => rfl
  | cons a rest ih => rw [List.foldl_cons, ih, hf]

/-! ## The table of calls -/

theorem keys_writeCalls_perm {calls : Table NodeId CallTarget} {written : List (Expr × CallTarget)}
    (h : (written.map (·.1.id) ++ calls.keys).Nodup) :
    (writeCalls calls written).keys.Perm (written.map (·.1.id) ++ calls.keys) := by
  induction written generalizing calls with
  | nil => exact .refl _
  | cons entry rest ih =>
    obtain ⟨e, target⟩ := entry
    obtain ⟨hnew, hrest⟩ := List.nodup_cons.1 h
    have hinsert := Table.keys_insert_perm (v := target)
      (fun hmem => hnew (List.mem_append_right _ hmem) : e.id ∉ calls.keys)
    have hmiddle := (hinsert.append_left (rest.map (·.1.id))).trans List.perm_middle
    exact (ih (hmiddle.nodup_iff.2 h)).trans hmiddle

end Resolver

/-! ## The problems of a unit -/

namespace CompilationUnit

variable (u : CompilationUnit) (order : ClassOrder) (signatures : Signatures)

theorem problems_announced : (u.announced order signatures).problems = #[] := by
  have hclass : ∀ r c, (Resolver.declareClass (u.vocabulary order signatures) r c).problems =
      r.problems := by
    intro r c
    have hfields := Resolver.problems_foldl
      (f := Resolver.declareField (u.vocabulary order signatures) c.id) (fun _ _ => rfl)
    have hmethods := Resolver.problems_foldl
      (f := Resolver.declareMethod (u.vocabulary order signatures) c.id) (fun _ _ => rfl)
    exact (hmethods _ c.methods).trans (hfields _ c.fields)
  exact Resolver.problems_foldl hclass {} u.allClasses

theorem mem_encounters_iff {u : CompilationUnit} {e : Expr} :
    .expression e ∈ u.encounters ↔ u.Mentions e := by
  have hvisit : .expression e ∈ u.encounters ↔ .visit e ∈ ClassDecl.stepsOf u.classes := by
    have hmem : .expression e ∈ u.encounters ↔
        e ∈ u.encounters.filterMap Encounter.expression? := by
      rw [List.mem_filterMap]
      constructor
      · exact fun h => ⟨_, h, rfl⟩
      · rintro ⟨met, h, he⟩
        cases met <;> cases he
        exact h
    rw [hmem, u.expressions_encounters, List.mem_filterMap]
    constructor
    · rintro ⟨s, h, he⟩
      cases s <;> cases he
      exact h
    · exact fun h => ⟨_, h, rfl⟩
  rw [hvisit]
  constructor
  · intro h
    rcases ClassDecl.mem_stepsOf u.classes h with hleave | ⟨c, hc, hopen | hown⟩
    · cases hleave
    · cases hopen
    · exact ⟨c, hc, ClassDecl.visit_mem_ownSteps_iff.1 hown⟩
  · rintro ⟨c, hc, he⟩
    exact ClassDecl.ownSteps_subset_stepsOf u.classes hc (ClassDecl.visit_mem_ownSteps_iff.2 he)

theorem nodup_encounters {u : CompilationUnit} (distinct : u.nodeIds.Nodup) :
    ((u.encounters.filterMap Encounter.expression?).map Expr.id).Nodup := by
  have hvisited := nodup_visited distinct
  have hids : (ClassDecl.stepsOf u.classes).filterMap Step.visited? =
      ((ClassDecl.stepsOf u.classes).filterMap Step.expression?).map Expr.id := by
    rw [List.map_filterMap]
    congr 1
    funext s
    cases s <;> rfl
  rwa [u.expressions_encounters, ← hids]

variable {u}

theorem problems_eq (distinct : u.nodeIds.Nodup) :
    (resolve order u signatures).model.problems.toList =
      u.encounters.filterMap (Encounter.problem? (resolve order u signatures).model
        (u.vocabulary order signatures).types) := by
  have hann := u.announced_announced order signatures
  have hready : (u.announced order signatures).Ready (ClassDecl.stepsOf u.classes) :=
    Resolver.ready_declareClasses (u.vocabulary order signatures) distinct
  have hrecords : Env.Records (u.announced order signatures).scopes [] := hann.scopes ▸ .empty
  have hproblems := hready.problems_run (u.vocabulary order signatures) hrecords
    (nodup_visited distinct) fun i _ => congrArg (Table.get? · i) hann.references
  rw [u.encountersAlong_steps, problems_announced] at hproblems
  rw [resolve_model]
  exact hproblems

theorem keys_calls_perm (distinct : u.nodeIds.Nodup) :
    (resolve order u signatures).model.calls.keys.Perm
      (((u.encounters.filterMap Encounter.expression?).filter Expr.isCall).map Expr.id) := by
  let voc := u.vocabulary order signatures
  let start := u.announced order signatures
  have hwritten : (Resolver.recorded voc start (ClassDecl.stepsOf u.classes)).map (·.1.id) =
      ((u.encounters.filterMap Encounter.expression?).filter Expr.isCall).map Expr.id := by
    rw [u.expressions_encounters, ← Resolver.map_fst_recorded voc start, List.map_map]
    rfl
  have hempty : start.calls = {} := (u.announced_announced order signatures).calls
  have hnodup : ((Resolver.recorded voc start (ClassDecl.stepsOf u.classes)).map (·.1.id) ++
      start.calls.keys).Nodup := by
    rw [hwritten, hempty]
    show (_ ++ []).Nodup
    rw [List.append_nil]
    exact (nodup_encounters distinct).sublist (List.filter_sublist.map _)
  have hkeys := Resolver.keys_writeCalls_perm hnodup
  rw [hwritten, hempty] at hkeys
  rw [resolve_model, Resolver.calls_run, hempty]
  refine hkeys.trans (.of_eq ?_)
  exact List.append_nil _

end CompilationUnit

/-- The problems of a unit are accounted for. In a unit whose nodes have distinct numbers, the
problems are those that are due to what is met in it, in that order: to an identifier that refers to
nothing and names no type, to a call on `this`, written or not, without a callee, to a declaration
whose name its own scope has already. What is met are the expressions in the initial values of
fields and in the bodies of methods, each once, and the declarations of fields, and of the
parameters and the variables of methods that have a body. The table of calls has one entry for every
call that is met. Classes, methods and statements end in the scope in which they began, with the
scopes around it as they were. -/
theorem problems_resolve (order : ClassOrder) (u : CompilationUnit) (signatures : Signatures)
    (distinct : u.nodeIds.Nodup) :
    let voc := u.vocabulary order signatures
    let m := (resolve order u signatures).model
    m.problems.toList = u.encounters.filterMap (Encounter.problem? m voc.types) ∧
    (∀ e, .expression e ∈ u.encounters ↔ u.Mentions e) ∧
    ((u.encounters.filterMap Encounter.expression?).map Expr.id).Nodup ∧
    (u.encounters.filterMap Encounter.declaration?).Perm
      (u.allClasses.flatMap ClassDecl.declaredVars) ∧
    m.calls.keys.Perm
      (((u.encounters.filterMap Encounter.expression?).filter Expr.isCall).map Expr.id) ∧
    ∀ r : Resolver,
      (∀ c, let t := (Resolver.resolveClass voc r c).scopes
        t.current = r.scopes.current ∧ t.chain = r.scopes.chain) ∧
      (∀ method, let t := (Resolver.resolveMethod voc r method).scopes
        t.current = r.scopes.current ∧ t.chain = r.scopes.chain) ∧
      ∀ s : Stmt, let t := (s.actions.foldl (Resolver.perform voc) r).scopes
        t.current = r.scopes.current ∧ t.chain.tail = r.scopes.chain.tail := by
  intro voc m
  refine ⟨CompilationUnit.problems_eq order signatures distinct,
    fun e => CompilationUnit.mem_encounters_iff, CompilationUnit.nodup_encounters distinct,
    u.declarations_encounters_perm, CompilationUnit.keys_calls_perm order signatures distinct,
    fun r => ⟨fun c => ?_, fun method => ?_, fun s => ?_⟩⟩
  · have hchain := Resolver.scopes_resolveClass voc r c
    exact ⟨Resolver.current_eq_of_chain hchain, hchain⟩
  · have hchain := Resolver.scopes_resolveMethod voc r method
    exact ⟨Resolver.current_eq_of_chain hchain, hchain⟩
  · exact Resolver.scopes_foldl_perform voc r s

/-- A class with two fields `f`, the first of which starts as an unknown `g`. Its method declares
its parameter `p` again, with a call of an unknown method that is passed the class, hides it in a
block, and calls itself. -/
def troubledUnit : CompilationUnit where
  classes := [{
    site := ⟨0, ⟨0, 99⟩⟩
    name := "A"
    fields := [
      ⟨⟨1, ⟨10, 11⟩⟩, "f", "R", some (.ident ⟨2, ⟨12, 13⟩⟩ "g")⟩,
      ⟨⟨3, ⟨20, 21⟩⟩, "f", "R", none⟩]
    methods := [{
      site := ⟨4, ⟨30, 98⟩⟩
      name := "m"
      params := [⟨⟨5, ⟨31, 32⟩⟩, "p", "R", none⟩]
      returnType := none
      body := some [
        .localVar ⟨6, {}⟩ ⟨⟨7, ⟨40, 41⟩⟩, "p", "R",
          some (.call ⟨8, ⟨42, 45⟩⟩ none "k" [.ident ⟨9, ⟨44, 45⟩⟩ "A"])⟩,
        .block ⟨10, {}⟩ [.localVar ⟨11, {}⟩ ⟨⟨12, ⟨50, 51⟩⟩, "p", "R", none⟩],
        .exprStmt ⟨13, {}⟩
          (.call ⟨14, ⟨60, 69⟩⟩ (some (.this ⟨15, {}⟩)) "m" [.ident ⟨16, ⟨66, 67⟩⟩ "p"])] }]
    nested := [] }]

theorem problems_resolve_troubledUnit :
    let m := (resolve .increasing troubledUnit {}).model
    let types := (troubledUnit.vocabulary .increasing {}).types
    troubledUnit.nodeIds.Nodup ∧
    troubledUnit.encounters.filterMap (Encounter.problem? m types) = [
      ⟨.duplicateDefinition "f" ⟨10, 11⟩, ⟨20, 21⟩⟩, ⟨.undefinedSymbol "g", ⟨12, 13⟩⟩,
      ⟨.unknownMethod "k" 1, ⟨42, 45⟩⟩, ⟨.duplicateDefinition "p" ⟨31, 32⟩, ⟨40, 41⟩⟩] ∧
    m.calls.keys.Perm [8, 14] := by
  intro m types
  have distinct : troubledUnit.nodeIds.Nodup := by decide
  obtain ⟨hproblems, -, -, -, hcalls, -⟩ := problems_resolve .increasing troubledUnit {} distinct
  have hreported : m.problems.toList = [
      ⟨.duplicateDefinition "f" ⟨10, 11⟩, ⟨20, 21⟩⟩, ⟨.undefinedSymbol "g", ⟨12, 13⟩⟩,
      ⟨.unknownMethod "k" 1, ⟨42, 45⟩⟩, ⟨.duplicateDefinition "p" ⟨31, 32⟩, ⟨40, 41⟩⟩] := by
    decide +kernel
  exact ⟨distinct, hproblems.symm.trans hreported, hcalls⟩

end HandleLint
