import HandleLint.Proofs.Anchors
import HandleLint.Proofs.ClassLookups
import HandleLint.Proofs.RelabelledWatches
import HandleLint.Proofs.RenamedResolution
import HandleLint.Proofs.SymbolNames

/-!
# Variables under other names

A parameter or a variable of a body may get any name that the unit does not use, along with the
identifiers that refer to it. The tables that resolution ends with differ in the name of one symbol,
and the findings differ where they show that name.

* `Resolver.PartsFirst`: an expression is visited after its parts, when it is known what these refer
  to;
* `foreseen`: every step of a unit fits what is known in the end;
* `renames_resolve`, `Resolver.Renames.checkUnit`: the tables and the findings, before and after;
* `checkUnit_rename`: the findings on the variable carry its new name, and the others are as before.
-/

namespace HandleLint

open HandleLint.Resolver (Step)

/-! ## Parts come first -/

namespace Resolver

/-- Every expression is visited after all that stands inside it. -/
def PartsFirst (steps : List Step) : Prop :=
  ∀ before e after, steps = before ++ .visit e :: after → e.parts.flatMap Expr.steps ⊆ before

theorem PartsFirst.append {first rest : List Step} (h : PartsFirst first)
    (h' : PartsFirst rest) : PartsFirst (first ++ rest) := by
  intro before e after hsteps
  rcases List.append_eq_append_iff.1 hsteps with ⟨mid, hbefore, hrest⟩ | ⟨mid, hfirst, hrest⟩
  · rw [hbefore]
    exact fun s hs => List.mem_append_right _ (h' mid e after hrest hs)
  · cases mid with
    | nil =>
      have hparts := h' [] e after hrest.symm
      exact fun s hs => absurd (hparts hs) List.not_mem_nil
    | cons s mid =>
      cases (List.cons.inj hrest).1
      exact h before e mid hfirst

theorem PartsFirst.flatMap {α : Type} {f : α → List Step} {as : List α}
    (h : ∀ a ∈ as, PartsFirst (f a)) : PartsFirst (as.flatMap f) := by
  induction as with
  | nil => exact fun before e after hsteps => absurd hsteps (by simp)
  | cons a rest ih =>
    obtain ⟨ha, hrest⟩ := List.forall_mem_cons.1 h
    exact ha.append (ih hrest)

theorem partsFirst_of_no_visit {steps : List Step} (h : ∀ e, .visit e ∉ steps) :
    PartsFirst steps := by
  intro before e after hsteps
  refine absurd ?_ (h e)
  rw [hsteps]
  exact List.mem_append_right _ List.mem_cons_self

end Resolver

open HandleLint.Resolver (PartsFirst partsFirst_of_no_visit)

theorem Expr.steps_eq_concat (e : Expr) :
    e.steps = e.parts.flatMap Expr.steps ++ [.visit e] := by
  rw [steps, postorder_eq_concat, List.map_append, List.map_flatMap]
  rfl

theorem Expr.partsFirst_steps (e : Expr) : PartsFirst e.steps := by
  induction e using induction_parts with
  | step e ih =>
    have hparts : PartsFirst (e.parts.flatMap Expr.steps) := .flatMap ih
    intro before x after hsteps
    rw [steps_eq_concat] at hsteps
    rcases List.eq_nil_or_concat after with rfl | ⟨mid, last, rfl⟩
    · obtain ⟨hbefore, hlast⟩ := List.append_inj' hsteps rfl
      cases hlast
      exact hbefore ▸ List.Subset.refl _
    · have hsplit : e.parts.flatMap Expr.steps ++ [.visit e] =
          (before ++ .visit x :: mid) ++ [last] := by
        simpa using hsteps
      exact hparts before x mid (List.append_inj' hsplit rfl).1

theorem Action.partsFirst_steps (a : Action) : PartsFirst a.steps := by
  cases a with
  | enter => exact partsFirst_of_no_visit (by simp [steps])
  | leave => exact partsFirst_of_no_visit (by simp [steps])
  | evaluate e => exact e.partsFirst_steps
  | declare origin v =>
    refine .append (.flatMap fun e _ => e.partsFirst_steps) (partsFirst_of_no_visit ?_)
    simp

theorem MethodDecl.partsFirst_steps (m : MethodDecl) : PartsFirst m.steps := by
  unfold steps
  cases m.body with
  | none => exact partsFirst_of_no_visit (by simp)
  | some body =>
    have hparams : PartsFirst (.openMethod m :: m.params.map (Step.declare .parameter)) :=
      partsFirst_of_no_visit (by simp)
    have hbody : PartsFirst ((actionsOf body).flatMap Action.steps) :=
      .flatMap fun a _ => a.partsFirst_steps
    exact (hparams.append hbody).append (partsFirst_of_no_visit (by simp))

/-- A unit is gone through in segments, and each of them visits parts first. -/
theorem ClassDecl.partsFirst_stepsOf (cs : List ClassDecl) : PartsFirst (stepsOf cs) := by
  rw [← flatMap_steps_segmentsOf]
  refine .flatMap fun s _ => ?_
  cases s with
  | openClass c => exact partsFirst_of_no_visit (by simp [Segment.steps])
  | values es => exact .flatMap fun e _ => e.partsFirst_steps
  | method m => exact m.partsFirst_steps
  | leave => exact partsFirst_of_no_visit (by simp [Segment.steps])

/-! ## The steps of a unit -/

namespace Resolver

variable {voc : Vocabulary} {r : Resolver} {before after : List Step} {s : Step}

theorem Ready.run (h : Ready r (before ++ after)) : Ready (Resolver.run voc r before) after := by
  induction before generalizing r with
  | nil => exact h
  | cons s rest ih => exact ih h.step

/-- A declaration gets the next symbol, and keeps it. -/
theorem Ready.declaration?_run {kind : SymbolKind} {v : VarDecl}
    (h : Ready r (.declare kind v :: after)) :
    (Resolver.run voc r (.declare kind v :: after)).declaration? v.id = some r.symbols.next := by
  obtain ⟨problems, hs⟩ := exists_declare voc r kind v
  have hnew := introduces_addSymbol r v kind (voc.types.qualify v.type)
  refine (h.step.introduces_run v r.symbols.next ?_).declaration
  rw [hs]
  exact ⟨hnew.declaration, hnew.symbol⟩

end Resolver

/-- The name of an identifier. -/
def Expr.identName? : Expr → Option String
  | .ident _ name => some name
  | _ => none

/-- The names of all variables of a unit, fields and parameters included, and of all identifiers. -/
def CompilationUnit.names (u : CompilationUnit) : List String :=
  u.vars.map (·.2.name) ++ u.expressions.filterMap Expr.identName?

section Unit

variable {u : CompilationUnit} {order : ClassOrder} {signatures : Signatures}
  {before after : List Step} {s : Step}

theorem CompilationUnit.var_name_ne {name : String} (fresh : name ∉ u.names)
    {x : VarPlace × VarDecl} (h : x ∈ u.vars) : x.2.name ≠ name := by
  rintro rfl
  exact fresh (List.mem_append_left _ (List.mem_map_of_mem h))

theorem CompilationUnit.ident_name_ne {name : String} (fresh : name ∉ u.names) {site : Site}
    {x : String} (h : .ident site x ∈ u.expressions) : x ≠ name := by
  rintro rfl
  exact fresh (List.mem_append_right _ (List.mem_filterMap.2 ⟨_, h, rfl⟩))

theorem model_eq_run (signatures : Signatures)
    (hsteps : ClassDecl.stepsOf u.classes = before ++ s :: after) :
    (resolve order u signatures).model =
      (Resolver.run (u.vocabulary order signatures)
        (Resolver.run (u.vocabulary order signatures) (u.announced order signatures) before)
        (s :: after)).toModel := by
  rw [resolve_model, hsteps, Resolver.run_append]

/-- What is inside a part of a visited expression was visited before and is not visited again. -/
theorem notMem_visited_of_part (distinct : u.nodeIds.Nodup) {e p x : Expr}
    (hsteps : ClassDecl.stepsOf u.classes = before ++ .visit e :: after) (hp : p ∈ e.parts)
    (hx : p.Inside x) : x.id ∉ (Step.visit e :: after).filterMap Step.visited? := by
  have hbefore : .visit x ∈ before :=
    ClassDecl.partsFirst_stepsOf u.classes before e after hsteps
      (List.mem_flatMap.2 ⟨p, hp, Expr.visit_mem_steps.2 hx⟩)
  have hvisited := CompilationUnit.nodup_visited distinct
  rw [hsteps, List.filterMap_append] at hvisited
  exact fun hm =>
    (List.nodup_append.1 hvisited).2.2 x.id (List.mem_filterMap.2 ⟨_, hbefore, rfl⟩) x.id hm rfl

/-- What a node inside a visited expression refers to is known before the visit. -/
theorem reference?_of_part (distinct : u.nodeIds.Nodup) {e p x : Expr}
    (hsteps : ClassDecl.stepsOf u.classes = before ++ .visit e :: after) (hp : p ∈ e.parts)
    (hx : p.Inside x) :
    (resolve order u signatures).model.reference? x.id =
      (Resolver.run (u.vocabulary order signatures) (u.announced order signatures)
        before).reference? x.id := by
  rw [model_eq_run signatures hsteps]
  exact Resolver.reference?_run_of_not_mem _ _ (notMem_visited_of_part distinct hsteps hp hx)

/-- What an identifier refers to in the end is what its name is bound to when it is visited. -/
theorem reference?_of_ident (distinct : u.nodeIds.Nodup) {site : Site} {x : String}
    (hsteps : ClassDecl.stepsOf u.classes = before ++ .visit (.ident site x) :: after) :
    (resolve order u signatures).model.reference? site.id =
      (Resolver.run (u.vocabulary order signatures) (u.announced order signatures)
        before).scopes.lookup? x := by
  have hvisited := CompilationUnit.nodup_visited distinct
  rw [hsteps, List.filterMap_append] at hvisited
  obtain ⟨-, hrest, hdisjoint⟩ := List.nodup_append.1 hvisited
  have hbefore : site.id ∉ before.filterMap Step.visited? := fun hm =>
    hdisjoint site.id hm site.id List.mem_cons_self rfl
  have hafter : site.id ∉ after.filterMap Step.visited? := (List.nodup_cons.1 hrest).1
  have hnone : (Resolver.run (u.vocabulary order signatures) (u.announced order signatures)
      before).reference? site.id = none := by
    rw [Resolver.reference?_run_of_not_mem _ _ hbefore, Model.reference?,
      (u.announced_announced order signatures).references]
    rfl
  rw [model_eq_run signatures hsteps, Resolver.run_cons,
    Resolver.reference?_run_of_not_mem _ _ hafter]
  exact Resolver.reference?_visit_ident hnone x

/-- Only one declaration makes a symbol. -/
theorem declaration?_iff_of_declare (distinct : u.nodeIds.Nodup) {kind : SymbolKind} {v : VarDecl}
    (hsteps : ClassDecl.stepsOf u.classes = before ++ .declare kind v :: after) (d : NodeId) :
    (resolve order u signatures).model.declaration? d =
      some (Resolver.run (u.vocabulary order signatures) (u.announced order signatures)
        before).symbols.next ↔ v.id = d := by
  have hready := Resolver.ready_declareClasses (u.vocabulary order signatures) distinct
  rw [hsteps] at hready
  have hdeclared : (resolve order u signatures).model.declaration? v.id = some (Resolver.run
      (u.vocabulary order signatures) (u.announced order signatures) before).symbols.next := by
    rw [model_eq_run signatures hsteps]
    exact hready.run.declaration?_run
  constructor
  · intro hd
    obtain ⟨symbol, hs, rfl⟩ := (coherent_resolve order u signatures).declarations hd
    obtain ⟨symbol', hs', hv⟩ := (coherent_resolve order u signatures).declarations hdeclared
    cases hs.symm.trans hs'
    exact hv.symm
  · rintro rfl
    exact hdeclared

/-- A variable of a method has its symbol after all classes and members have theirs. -/
theorem not_declaration?_of_member (distinct : u.nodeIds.Nodup) {d c : NodeId} {id : SymbolId}
    (hd : d ∉ u.allClasses.flatMap ClassDecl.memberIds)
    (hid : id ∈ ((u.announced order signatures).classMembers c).fields ++
      ((u.announced order signatures).classMembers c).methods) :
    (resolve order u signatures).model.declaration? d ≠ some id := by
  intro hdecl
  obtain ⟨symbol, hs, rfl⟩ := (coherent_resolve order u signatures).declarations hdecl
  have hearly : (u.announced order signatures).symbol? id = some symbol := by
    rw [resolve_model] at hs
    rw [← (Resolver.frame_run (u.vocabulary order signatures) (u.announced order signatures)
      (ClassDecl.stepsOf u.classes)).symbols id
        ((u.announced_announced order signatures).members c id hid), hs]
  have hann : Resolver.Announces (u.allClasses.flatMap ClassDecl.memberIds) {}
      (u.announced order signatures) :=
    Resolver.announces_declareClasses (u.vocabulary order signatures) {} u.allClasses
  cases (hann.others hd).symm.trans (faithful_announced distinct id symbol hearly)

theorem CompilationUnit.mem_vars_of_declare {kind : SymbolKind} {v : VarDecl}
    (h : .declare kind v ∈ ClassDecl.stepsOf u.classes) : ∃ place, (place, v) ∈ u.vars := by
  obtain ⟨c, hc, method, hm, hv⟩ := ClassDecl.declare_mem_stepsOf h
  have hmethod : method ∈ u.allMethods := List.mem_flatMap.2 ⟨c, hc, hm⟩
  rcases MethodDecl.mem_vars_of_declare hv with ⟨-, hparam⟩ | ⟨body, origin, hb, -, hv⟩
  · exact ⟨_, mem_vars_of_method hmethod hparam⟩
  · exact ⟨_, mem_vars_of_method hmethod (MethodDecl.body_mem_vars hb hv)⟩

/-- A variable of a method is not a class, a field or a method. -/
theorem CompilationUnit.notMem_memberIds (distinct : u.nodeIds.Nodup) {method : MethodDecl}
    {x : VarPlace × VarDecl} (hmethod : method ∈ u.allMethods) (hx : x ∈ method.vars) :
    x.2.id ∉ u.allClasses.flatMap ClassDecl.memberIds := by
  have hclass : ∀ c : ClassDecl, (c.memberIds ++ c.methods.flatMap MethodDecl.variableIds).Perm
      (c.id :: (c.fields.map VarDecl.id ++
        c.methods.flatMap fun m => m.id :: m.variableIds)) := by
    intro c
    rw [ClassDecl.memberIds, List.cons_append, List.append_assoc]
    exact ((List.map_append_flatMap_perm c.methods _ _).append_left _).cons _
  have hnodup : (u.allClasses.flatMap ClassDecl.memberIds ++
      u.allClasses.flatMap fun c => c.methods.flatMap MethodDecl.variableIds).Nodup := by
    refine (List.flatMap_append_perm u.allClasses _ _).nodup_iff.2 ?_
    refine (List.Perm.flatMap_left u.allClasses fun c _ => hclass c).nodup_iff.2 ?_
    refine distinct.sublist (.flatMap_right _ fun c _ => .cons_cons _ ?_)
    exact (VarDecl.map_id_sublist c.fields).append
      (.flatMap_right _ fun m _ => m.variableIds_sublist)
  obtain ⟨c, hc, hm⟩ := List.mem_flatMap.1 hmethod
  have hvar : x.2.id ∈ method.variableIds :=
    method.map_id_vars_perm.mem_iff.1 (List.mem_map_of_mem hx)
  intro hmember
  refine (List.nodup_append.1 hnodup).2.2 _ hmember _ ?_ rfl
  exact List.mem_flatMap.2 ⟨c, hc, List.mem_flatMap.2 ⟨method, hm, hvar⟩⟩

theorem foreseen (distinct : u.nodeIds.Nodup) {d : NodeId} {name : String}
    (hd : d ∉ u.allClasses.flatMap ClassDecl.memberIds) (fresh : name ∉ u.names)
    (hsteps : ClassDecl.stepsOf u.classes = before ++ s :: after) :
    Resolver.Foreseen (resolve order u signatures).model d name
      (Resolver.run (u.vocabulary order signatures) (u.announced order signatures) before) s := by
  have hmem : s ∈ ClassDecl.stepsOf u.classes := by
    rw [hsteps]
    exact List.mem_append_right _ List.mem_cons_self
  constructor
  case symbols =>
    intro id symbol hs
    refine faithful_resolve distinct id symbol ?_
    rw [model_eq_run signatures hsteps]
    exact (Resolver.keeps_run _ _ _).symbols hs
  case members =>
    intro c id hid
    rw [Resolver.classMembers, (Resolver.frame_run _ _ _).members] at hid
    exact not_declaration?_of_member distinct hd hid
  case fields =>
    rintro c rfl v hv
    have hc : c ∈ u.allClasses := ClassDecl.mem_withNestedAll_of_openClass hmem
    have hvar := CompilationUnit.field_mem_vars hc hv
    refine ⟨fun he => hd ?_, CompilationUnit.var_name_ne fresh hvar⟩
    exact he ▸ List.mem_flatMap.2 ⟨c, hc, ClassDecl.mem_memberIds_of_field hv⟩
  case ident =>
    rintro site x rfl
    refine ⟨CompilationUnit.ident_name_ne fresh (CompilationUnit.mem_expressions_of_visit hmem), ?_⟩
    exact reference?_of_ident distinct hsteps
  case parts =>
    rintro e rfl p hp x hx
    exact reference?_of_part distinct hsteps hp hx
  case declare =>
    rintro kind v rfl
    obtain ⟨place, hv⟩ := CompilationUnit.mem_vars_of_declare hmem
    exact ⟨CompilationUnit.var_name_ne fresh hv, declaration?_iff_of_declare distinct hsteps d⟩

/-- What is known of the unit before and of the unit after when all is gone through. -/
theorem renames_resolve (signatures : Signatures) (distinct : u.nodeIds.Nodup) {d : NodeId}
    {name : String} (hd : d ∉ u.allClasses.flatMap ClassDecl.memberIds) (fresh : name ∉ u.names) :
    let m := (resolve order u signatures).model
    ∃ r r' : Resolver, m = r.toModel ∧
      (resolve order (u.relabel (m.rename d name)) signatures).model = r'.toModel ∧
      Resolver.Renames m d name r r' := by
  intro m
  have hclasses : (u.relabel (m.rename d name)).classes =
      ClassDecl.relabelAll (m.rename d name) u.classes := rfl
  refine ⟨_, _, resolve_model order u signatures, resolve_model order _ signatures, ?_⟩
  rw [u.vocabulary_relabel, hclasses, ClassDecl.stepsOf_relabel]
  refine Resolver.Renames.run ?_ fun before s after hsteps => foreseen distinct hd fresh hsteps
  rw [CompilationUnit.announced, CompilationUnit.announced, u.vocabulary_relabel,
    u.allClasses_relabel]
  refine (Resolver.Renames.empty m d name).foldl fun c hc r r' hr => hr.declareClass ?_
  exact fun hm => hd (List.mem_flatMap.2 ⟨c, hc, hm⟩)

end Unit

/-! ## Findings -/

section Models

variable {m m' : Model} {d : NodeId} {name : String}

/-- With the symbols of the first, the tables of the second resolver hold about the trees with the
new names what those of the first hold about the trees before. -/
theorem Resolver.Renames.relabels {r r' : Resolver} (h : Renames m d name r r')
    (hm : m = r.toModel) (hm' : m' = r'.toModel) :
    m.Relabels (m.rename d name) { m' with symbols := m.symbols } := by
  subst hm hm'
  refine ⟨?_, fun i => ?_, fun i => ?_, fun i => ?_, h.methods⟩
  · intro id s hs
    exact hs.trans (congrArg some (s.renumber_self fun _ => rfl).symm)
  · exact congrArg (Table.get? · i) h.references
  · exact congrArg (Table.get? · i) h.declarations
  · exact congrArg (Table.get? · i) h.calls

/-- The findings with the one model and with the other: first the trees get the new names while the
symbols keep the old ones, then the symbols get theirs. -/
theorem Resolver.Renames.checkUnit {r r' : Resolver} (h : Renames m d name r r')
    (hm : m = r.toModel) (hm' : m' = r'.toModel) (hcoherent : m.Coherent)
    (resource : ResourceConfig) {rules : List Rule} (hrules : ∀ rule ∈ rules, rule.IsBuiltIn)
    (u : CompilationUnit) :
    List.Forall₂ (fun x x' => ∃ id s origin, m.symbol? id = some s ∧ s.kind = .var origin ∧
        ∃ rule ∈ rules, x = .ofRule resource.handleName s rule.info ∧
          x' = .ofRule resource.handleName (s.rename d name) rule.info)
      (checkUnit { model := m, resource } rules u).1
      (checkUnit { model := m', resource } rules (u.relabel (m.rename d name))).1 := by
  let between : Model := { m' with symbols := m.symbols }
  have hrelabels : Watch.Relabels (m.rename d name) { model := m, resource }
      { model := between, resource } := ⟨rfl, h.relabels hm hm', hcoherent⟩
  have hfirst : (HandleLint.checkUnit { model := between, resource } rules
      (u.relabel (m.rename d name))).1 =
      (HandleLint.checkUnit { model := m, resource } rules u).1 := by
    rw [hrelabels.checkUnit fun rule hr => (hrules rule hr).ignores]
    exact List.map_id'' (fun _ => rfl) _
  have hsymbols : ⟨m.symbols.symbols.map (Symbol.rename d name)⟩ = m'.symbols := by
    subst hm hm'
    rw [← h.symbols]
  have hsecond := checkUnit_mapSymbols (Symbol.kind_rename d name) (Symbol.span_rename d name)
    { model := between, resource } hrules (u.relabel (m.rename d name))
  rw [hfirst, Watch.mapSymbols, hsymbols] at hsecond
  exact hsecond

end Models

/-- Findings before and after a variable gets another name: those on the variable carry the new
name, in their advice as well, and the others are as they were. -/
inductive Finding.Renamed (handle : String) (rules : List Rule) (v : VarDecl) (name : String) :
    Finding → Finding → Prop
  | other {x : Finding} : x.anchor ≠ v.id → Renamed handle rules v name x x
  | anchored {x : Finding} {rule : Rule} : rule ∈ rules → x.rule = rule.info.key →
    x.anchor = v.id → x.var = v.name → x.fix = rule.info.renderFix handle v.name →
    Renamed handle rules v name x
      { x with var := name, fix := rule.info.renderFix handle name }

theorem Finding.renamed_ofRule {handle : String} {rules : List Rule} {rule : Rule} {v : VarDecl}
    {name : String} {s : Symbol} (hr : rule ∈ rules) (hs : s.decl = v.id → s.name = v.name) :
    Renamed handle rules v name (ofRule handle s rule.info)
      (ofRule handle (s.rename v.id name) rule.info) := by
  unfold Symbol.rename
  split
  · rename_i hd
    refine .anchored hr rfl hd (hs hd) ?_
    show rule.info.renderFix handle s.name = _
    rw [hs hd]
  · rename_i hd
    exact .other hd

/-- Let a parameter or a variable of a method get a name that no variable and no identifier of the
unit has, together with exactly those identifiers that refer to it. The findings are the same, in
the same order and in every field, except that those on the variable carry the new name, in their
advice as well. Classes are looked at in the same order, unless they all get names of their own. -/
theorem checkUnit_rename (order order' : ClassOrder) (u : CompilationUnit)
    (signatures : Signatures) (orders : order' = order ∨ u.ClassNamesDiffer signatures)
    (resource : ResourceConfig) (rules : List Rule) (hrules : ∀ rule ∈ rules, rule.IsBuiltIn)
    (distinct : u.nodeIds.Nodup) {method : MethodDecl} (hmethod : method ∈ u.allMethods)
    {place : VarPlace} {v : VarDecl} (hv : (place, v) ∈ method.vars) {name : String}
    (fresh : name ∉ u.names) :
    let m := (resolve order u signatures).model
    let u' := u.relabel (m.rename v.id name)
    let m' := (resolve order' u' signatures).model
    List.Forall₂ (Finding.Renamed resource.handleName rules v name)
      (checkUnit { model := m, resource } rules u).1
      (checkUnit { model := m', resource } rules u').1 := by
  rw [← resolve_eq_of_order orders]
  intro m u' m'
  have hd := CompilationUnit.notMem_memberIds distinct hmethod hv
  obtain ⟨r, r', hm, hm', hrenames⟩ := renames_resolve signatures distinct hd fresh
  refine (hrenames.checkUnit hm hm' (coherent_resolve order' u signatures) resource hrules u).imp ?_
  rintro x x' ⟨id, s, origin, hs, hk, rule, hr, rfl, rfl⟩
  refine Finding.renamed_ofRule hr fun hdecl => ?_
  -- The symbol carries the name that the variable is declared with.
  obtain ⟨v', hdeclare, hname, hsite⟩ := exists_declare_of_variable hs hk
  obtain ⟨place', hv'⟩ := CompilationUnit.mem_vars_of_declare hdeclare
  have hid : v'.id = v.id := by
    rw [VarDecl.id, ← hsite]
    exact hdecl
  cases CompilationUnit.eq_of_mem_vars distinct hv'
    (CompilationUnit.mem_vars_of_method hmethod hv) hid
  exact hname

/-- A local hides a field of the same name in a block. Both are released. -/
def hidingUnit : CompilationUnit where
  package := some "p"
  imports := ["p.Pool"]
  classes := [{
    site := ⟨0, {}⟩
    name := "A"
    fields := [⟨⟨1, {}⟩, "h", "Handle", none⟩]
    methods := [{
      site := ⟨2, {}⟩
      name := "m"
      params := []
      returnType := none
      body := some [
        .block ⟨3, {}⟩ [
          .localVar ⟨4, {}⟩ ⟨⟨5, {}⟩, "h", "Handle", some (poolCall 6)⟩,
          .exprStmt ⟨8, {}⟩ (.call ⟨9, {}⟩ (some (.ident ⟨10, {}⟩ "h")) "close" [])],
        .exprStmt ⟨11, {}⟩ (.call ⟨12, {}⟩ (some (.ident ⟨13, {}⟩ "h")) "close" [])] }]
    nested := [] }]

/-- The local gets another name, and the field keeps its own, in another order of the one class. -/
theorem checkUnit_rename_hidingUnit :
    let m := (resolve .increasing hidingUnit poolSignatures).model
    let u' := hidingUnit.relabel (m.rename 5 "pooled")
    let w : Watch := { model := m, resource := poolResource }
    let w' : Watch :=
      { model := (resolve .decreasing u' poolSignatures).model, resource := poolResource }
    hidingUnit.nodeIds.Nodup ∧ "pooled" ∉ hidingUnit.names ∧
    u'.names = ["h", "pooled", "Pool", "pooled", "h"] ∧
    (checkUnit w Rule.all hidingUnit).1.map (fun x => (x.anchor, x.var, x.rule)) =
      [(5, "h", "resource/try-with-resources")] ∧
    (checkUnit w' Rule.all u').1.map (fun x => (x.anchor, x.var, x.fix)) =
      [(5, "pooled",
        "declare `pooled` in the resource list: `try (Handle pooled = ...) \x7b ... \x7d`")] := by
  intro m u' w w'
  have distinct : hidingUnit.nodeIds.Nodup := by decide
  have fresh : "pooled" ∉ hidingUnit.names := by decide
  have hfound : (checkUnit w Rule.all hidingUnit).1.map (fun x => (x.anchor, x.var, x.rule)) =
      [(5, "h", "resource/try-with-resources")] := by
    decide +kernel
  have hrenamed : List.Forall₂ (Finding.Renamed poolResource.handleName Rule.all
      ⟨⟨5, {}⟩, "h", "Handle", some (poolCall 6)⟩ "pooled")
      (checkUnit w Rule.all hidingUnit).1 (checkUnit w' Rule.all u').1 :=
    checkUnit_rename .increasing .decreasing hidingUnit poolSignatures
      (.inr (List.nodup_singleton _)) poolResource Rule.all (fun rule hr => ⟨rule, hr, rfl⟩)
      distinct (.head _) (.head _) fresh
  refine ⟨distinct, fresh, by decide +kernel, hfound, ?_⟩
  obtain ⟨x, hx, hfields⟩ := List.map_eq_singleton_iff.1 hfound
  simp only [Prod.mk.injEq] at hfields
  obtain ⟨hanchor, -, hrule⟩ := hfields
  rw [hx] at hrenamed
  obtain ⟨x', rest, hx', hrest, hafter⟩ := List.forall₂_cons_left_iff.1 hrenamed
  rw [hafter, List.forall₂_nil_left_iff.1 hrest, List.map_singleton]
  cases hx' with
  | other hne => exact absurd hanchor hne
  | anchored hr hkey =>
    simp only [Rule.all, List.mem_cons, List.not_mem_nil, or_false] at hr
    rcases hr with rfl | rfl
    · have hfix : Rule.tryWithResources.info.renderFix poolResource.handleName "pooled" =
          "declare `pooled` in the resource list: `try (Handle pooled = ...) \x7b ... \x7d`" := by
        decide +kernel
      rw [hanchor, hfix]
    · exact absurd (hrule.symm.trans hkey) (by decide)

end HandleLint
