import HandleLint.Proofs.Findings
import HandleLint.Proofs.VariablesInScope

/-!
# What findings are about

A finding names a declaration, its anchor. Candidates are found through the tables of the whole
unit, and one finder serves all methods; still a finding on a method is anchored in the body of that
very method.

* `Symbol.AnchoredIn`: the symbol is that of a variable of a method's body, resources left out;
* `anchoredIn_of_mem_candidates`: the candidates of a method are such variables;
* `checkUnit_anchors`: where the findings of a unit are anchored, and that no two of one rule share
  an anchor.
-/

namespace HandleLint

/-- The symbol is that of a variable of the body of a method which is not a resource of a `try`. -/
def Symbol.AnchoredIn (s : Symbol) (m : MethodDecl) : Prop :=
  ∃ body ∈ m.body, ∃ origin v, (origin, v) ∈ declarationsOf body ∧ origin ≠ .tryResource ∧
    s.name = v.name ∧ s.site = v.site

section Unit

variable {u : CompilationUnit} {order : ClassOrder} {signatures : Signatures}
  {resource : ResourceConfig} {m : MethodDecl} {body : List Stmt}

/-- What a binding in a method writes to is a field, or something that the method declares. -/
theorem introduces_of_written? (distinct : u.nodeIds.Nodup) (hm : m ∈ u.allMethods)
    (hb : m.body = some body) {target : BindTarget} {value : Expr} {id : SymbolId}
    (hevent : .bind target value ∈ eventsOf .skip body)
    (h : Watch.written? { model := (resolve order u signatures).model, resource } target =
      some id) :
    ∃ v, (resolve order u signatures).model.Introduces v id ∧
      ((∃ owner, (.field owner, v) ∈ u.vars) ∨ ∃ kind, .declare kind v ∈ m.steps) := by
  cases target with
  | declared v =>
    obtain ⟨origin, ho⟩ := declarationsOf_of_event hevent
    have hstep := MethodDecl.declare_mem_of_declarationsOf hb ho
    obtain ⟨id', hv⟩ := @introduces_of_declare u order signatures _ v distinct
      (CompilationUnit.steps_subset_of_method hm hstep)
    cases Option.some.inj (hv.declaration.symm.trans h)
    exact ⟨v, hv, .inr ⟨_, hstep⟩⟩
  | assigned e =>
    cases e with
    | ident site name =>
      have hvisit := MethodDecl.visit_mem_of_event hb hevent List.mem_cons_self
      obtain ⟨use, hu, rfl, htarget⟩ := CompilationUnit.exists_use_of_visit hm hvisit
      have hrel := @rel_introduces_of_mem_uses u order signatures distinct use hu
      have href : (resolve order u signatures).model.reference? use.site.id = some id := h
      rw [href] at hrel
      cases ht : use.target with
      | none =>
        rw [ht] at hrel
        cases hrel
      | some v =>
        rw [ht] at hrel
        cases hrel with
        | some hv => exact ⟨v, hv, htarget v ht⟩
    | _ => cases h

/-- A variable that a binding in a method counts for is a variable of that method's body. -/
theorem anchoredIn_of_boundLocal? (distinct : u.nodeIds.Nodup) (hm : m ∈ u.allMethods)
    (hb : m.body = some body) {target : BindTarget} {value : Expr} {id : SymbolId}
    (hevent : .bind target value ∈ eventsOf .skip body)
    (h : Watch.boundLocal? { model := (resolve order u signatures).model, resource } target =
      some id) :
    ∃ s, (resolve order u signatures).model.symbol? id = some s ∧ s.AnchoredIn m := by
  obtain ⟨hw, s, origin, hs, hk, hne⟩ := Watch.boundLocal?_eq_some_iff.1 h
  obtain ⟨v, hv, hscope⟩ := introduces_of_written? distinct hm hb hevent hw
  obtain ⟨kind, type, hsymbol⟩ := hv.symbol
  have heq : s = _ := Option.some.inj (hs.symm.trans hsymbol)
  -- The symbol is that of a variable which some method declares under the same number.
  obtain ⟨v', hdeclare, hname, hsite⟩ := exists_declare_of_variable hs hk
  obtain ⟨c, hc, m', hm', hstep⟩ := ClassDecl.declare_mem_stepsOf hdeclare
  have hid : v'.id = v.id := by
    rw [VarDecl.id, ← hsite, heq]
    rfl
  have hm'' : m' ∈ u.allMethods := List.mem_flatMap.2 ⟨c, hc, hm'⟩
  obtain ⟨hp, -⟩ | ⟨body', origin', hb', ho, hd⟩ := MethodDecl.mem_vars_of_declare hstep
  · cases hp
  · cases ho
    have hplace := CompilationUnit.mem_vars_of_method hm'' (MethodDecl.body_mem_vars hb' hd)
    refine ⟨s, hs, body, hb, origin, v, ?_, hne, heq ▸ rfl, heq ▸ rfl⟩
    rcases hscope with ⟨owner, hfield⟩ | ⟨kind', hkind'⟩
    · cases CompilationUnit.eq_of_mem_vars distinct hplace hfield hid
    · obtain ⟨-, hparam⟩ | ⟨body'', origin'', hb'', -, hd''⟩ :=
        MethodDecl.mem_vars_of_declare hkind'
      · cases CompilationUnit.eq_of_mem_vars distinct hplace
          (CompilationUnit.mem_vars_of_method hm hparam) hid
      · have hvar := CompilationUnit.mem_vars_of_method hm (MethodDecl.body_mem_vars hb'' hd'')
        cases Option.some.inj (hb.symm.trans hb'')
        have hsame := CompilationUnit.eq_of_mem_vars distinct hplace hvar hid
        obtain ⟨hbody, -⟩ := Prod.mk.inj hsame
        obtain ⟨-, rfl⟩ := VarPlace.body.inj hbody
        exact hd''

theorem anchoredIn_of_mem_candidates (distinct : u.nodeIds.Nodup) (hm : m ∈ u.allMethods)
    {candidate : SymbolId × Creation}
    (h : candidate ∈
      (Watch.candidates { model := (resolve order u signatures).model, resource } m).entries) :
    ∃ s, (resolve order u signatures).model.symbol? candidate.1 = some s ∧ s.AnchoredIn m := by
  obtain ⟨i, hi⟩ := ((Watch.tracks_candidates _ m).mem_iff _ _).1 h
  obtain ⟨event, hevent, target, value, rfl, ht, -⟩ := hi.opens
  have hmem := List.mem_of_getElem? hevent
  cases hb : m.body with
  | none =>
    rw [hb] at hmem
    cases hmem
  | some body =>
    rw [hb] at hmem
    exact anchoredIn_of_boundLocal? distinct hm hb hmem ht

end Unit

/-! ## Findings -/

theorem Watch.mem_findingsOn {w : Watch} {rules : List Rule} {m : MethodDecl}
    {candidate : SymbolId × Creation} {s : Symbol} (hs : w.model.symbol? candidate.1 = some s)
    {x : Finding} (h : x ∈ w.findingsOn rules m candidate) :
    ∃ rule ∈ rules, x = .ofRule w.resource.handleName s rule.info := by
  rw [findingsOn_of_symbol? hs] at h
  obtain ⟨rule, hr, rfl⟩ := List.mem_map.1 h
  exact ⟨rule, List.mem_of_mem_filter hr, rfl⟩

theorem Watch.nodup_findingsOn {w : Watch} {rules : List Rule}
    (keys : (rules.map (·.info.key)).Nodup) (m : MethodDecl) (candidate : SymbolId × Creation) :
    ((w.findingsOn rules m candidate).map fun x => (x.anchor, x.rule)).Nodup := by
  cases hs : w.model.symbol? candidate.1 with
  | none =>
    rw [findingsOn_of_none hs]
    exact List.nodup_nil
  | some s =>
    have hjudge : ∀ o : Outcome, ((Finder.judge w rules o).map fun x => (x.anchor, x.rule)) =
        ((rules.filter (·.fires o)).map (·.info.key)).map (o.symbol.decl, ·) := by
      intro o
      rw [Finder.judge, List.map_map, List.map_map]
      rfl
    rw [findingsOn_of_symbol? hs, hjudge]
    refine List.Nodup.map (fun a b h => (Prod.mk.inj h).2) (keys.sublist ?_)
    exact List.filter_sublist.map _

section Unit

variable {u : CompilationUnit} {order : ClassOrder} {signatures : Signatures}
  {resource : ResourceConfig} {rules : List Rule} {m : MethodDecl} {x : Finding}

/-- A finding on a method is anchored at a variable of its body. -/
theorem exists_anchor (distinct : u.nodeIds.Nodup) (hm : m ∈ u.allMethods)
    (hx : let w : Watch := { model := (resolve order u signatures).model, resource }
      x ∈ (w.candidates m).entries.flatMap (w.findingsOn rules m)) :
    ∃ body ∈ m.body, ∃ origin v, (origin, v) ∈ declarationsOf body ∧ origin ≠ .tryResource ∧
      x.anchor = v.id ∧ x.span = v.span ∧ x.var = v.name := by
  obtain ⟨candidate, hc, hx⟩ := List.mem_flatMap.1 hx
  obtain ⟨s, hs, body, hb, origin, v, hd, hne, hname, hsite⟩ :=
    anchoredIn_of_mem_candidates distinct hm hc
  obtain ⟨rule, -, rfl⟩ := Watch.mem_findingsOn hs hx
  exact ⟨body, hb, origin, v, hd, hne, congrArg Site.id hsite, congrArg Site.span hsite, hname⟩

/-- What else in the unit has the number of a variable of a body. -/
theorem eq_of_id_eq_body (distinct : u.nodeIds.Nodup) (hm : m ∈ u.allMethods) {body : List Stmt}
    (hb : m.body = some body) {origin : VarOrigin} {v : VarDecl}
    (hd : (origin, v) ∈ declarationsOf body) {place : VarPlace} {v' : VarDecl}
    (h : (place, v') ∈ u.vars) (hid : v'.id = v.id) : place = .body m.id origin ∧ v' = v :=
  Prod.mk.inj (CompilationUnit.eq_of_mem_vars distinct h
    (CompilationUnit.mem_vars_of_method hm (MethodDecl.body_mem_vars hb hd)) hid)

/-- No rule speaks twice about an anchor in one method: candidates are different symbols, and so
they have different declarations. -/
theorem nodup_anchors_of_method (distinct : u.nodeIds.Nodup)
    (keys : (rules.map (·.info.key)).Nodup) (m : MethodDecl) :
    let w : Watch := { model := (resolve order u signatures).model, resource }
    (((w.candidates m).entries.flatMap (w.findingsOn rules m)).map
      fun x => (x.anchor, x.rule)).Nodup := by
  intro w
  rw [List.map_flatMap, List.nodup_flatMap]
  refine ⟨fun candidate _ => Watch.nodup_findingsOn keys m candidate, ?_⟩
  have hsymbols := List.pairwise_map.1 (w.tracks_candidates m).nodup_symbols
  refine hsymbols.imp_of_mem fun {a b} ha hb hne p hpa hpb => hne ?_
  obtain ⟨s, hs⟩ := Watch.symbol?_of_mem_candidates ha
  obtain ⟨t, ht⟩ := Watch.symbol?_of_mem_candidates hb
  obtain ⟨x, hx, rfl⟩ := List.mem_map.1 hpa
  obtain ⟨y, hy, he⟩ := List.mem_map.1 hpb
  obtain ⟨rule, -, rfl⟩ := Watch.mem_findingsOn hs hx
  obtain ⟨rule', -, rfl⟩ := Watch.mem_findingsOn ht hy
  exact (faithful_resolve distinct).eq_of_decl_eq hs ht (Prod.mk.inj he).1.symm

end Unit

/-- Every finding of a unit is a finding on one of its methods, and is anchored at a variable that
the body of this very method declares as a local, as the variable of a for-each or as a catch
parameter; it has the span and the name of that variable, and no other variable of the unit has the
number of the anchor, be it a field, a parameter, a resource or a variable of another method. No two
findings share both anchor and rule. -/
theorem checkUnit_anchors (order : ClassOrder) (u : CompilationUnit) (signatures : Signatures)
    (resource : ResourceConfig) (rules : List Rule) (distinct : u.nodeIds.Nodup)
    (keys : (rules.map (·.info.key)).Nodup) :
    let w : Watch := { model := (resolve order u signatures).model, resource }
    (checkUnit w rules u).1.Perm ((u.allMethods.filter (·.body.isSome)).flatMap fun m =>
      (Finder.checkMethod w rules m {}).1) ∧
    (∀ m ∈ u.allMethods, ∀ f, Finder.Reached w f → ∀ x ∈ (f.checkMethod w rules m).1,
      ∃ body ∈ m.body, ∃ origin v, (origin, v) ∈ declarationsOf body ∧ origin ≠ .tryResource ∧
        x.anchor = v.id ∧ x.span = v.span ∧ x.var = v.name ∧
        ∀ place v', (place, v') ∈ u.vars → v'.id = x.anchor →
          place = .body m.id origin ∧ v' = v) ∧
    ((checkUnit w rules u).1.map fun x => (x.anchor, x.rule)).Nodup := by
  intro w
  have hfresh : ∀ m, (Finder.checkMethod w rules m {}).1 =
      (w.candidates m).entries.flatMap (w.findingsOn rules m) :=
    fun m => (Finder.checkMethod_eq (Finder.sound_fresh w) rules m).2
  have hperm : (checkUnit w rules u).1.Perm ((u.allMethods.filter (·.body.isSome)).flatMap fun m =>
      (Finder.checkMethod w rules m {}).1) := by
    simp only [hfresh]
    rw [← Finder.checkMethods_eq_flatMap (Finder.sound_fresh w)]
    exact List.mergeSort_perm _ _
  refine ⟨hperm, fun m hm f hf x hx => ?_, ?_⟩
  · rw [(Finder.checkMethod_eq hf.sound rules m).2] at hx
    obtain ⟨body, hb, origin, v, hd, hne, ha, hspan, hname⟩ := exists_anchor distinct hm hx
    refine ⟨body, hb, origin, v, hd, hne, ha, hspan, hname, fun place v' hv' hid => ?_⟩
    exact eq_of_id_eq_body distinct hm hb hd hv' (hid.trans ha)
  · rw [(hperm.map _).nodup_iff, List.map_flatMap, List.nodup_flatMap]
    simp only [hfresh]
    refine ⟨fun m _ => nodup_anchors_of_method distinct keys m, ?_⟩
    -- The number of an anchor tells in which method it stands.
    have hids := List.pairwise_map.1 (CompilationUnit.nodup_methodIds distinct)
    refine (hids.filter _).imp_of_mem fun {m m'} hm hm' hne p hp hp' => hne ?_
    obtain ⟨x, hx, rfl⟩ := List.mem_map.1 hp
    obtain ⟨y, hy, he⟩ := List.mem_map.1 hp'
    have hm := List.mem_of_mem_filter hm
    have hm' := List.mem_of_mem_filter hm'
    obtain ⟨body, hb, origin, v, hd, -, ha, -⟩ := exists_anchor distinct hm hx
    obtain ⟨body', hb', origin', v', hd', -, ha', -⟩ := exists_anchor distinct hm' hy
    have hvar := CompilationUnit.mem_vars_of_method hm (MethodDecl.body_mem_vars hb hd)
    have hid : v.id = v'.id := ha.symm.trans ((Prod.mk.inj he).1.symm.trans ha')
    exact (VarPlace.body.inj (eq_of_id_eq_body distinct hm' hb' hd' hvar hid).1).1

/-- A call of the factory `Pool`, on two nodes. -/
def poolCall (id : NodeId) : Expr :=
  .call ⟨id, {}⟩ (some (.ident ⟨id + 1, {}⟩ "Pool")) "get" []

/-- Two methods that bind new handles to a local, to a parameter, to a field, to a name that is a
local of the other method only, to a resource and to a catch parameter. -/
def poolUnit : CompilationUnit where
  package := some "p"
  imports := ["p.Pool"]
  classes := [{
    site := ⟨0, {}⟩
    name := "A"
    fields := [⟨⟨1, {}⟩, "h", "Handle", none⟩]
    methods := [
      { site := ⟨2, {}⟩
        name := "m"
        params := [⟨⟨3, {}⟩, "q", "Handle", none⟩]
        returnType := none
        body := some [
          .localVar ⟨4, {}⟩ ⟨⟨5, {}⟩, "r", "Handle", some (poolCall 6)⟩,
          .exprStmt ⟨8, {}⟩ (.assign ⟨9, {}⟩ (.ident ⟨10, {}⟩ "q") (poolCall 11)),
          .exprStmt ⟨13, {}⟩ (.assign ⟨14, {}⟩ (.ident ⟨15, {}⟩ "h") (poolCall 16))] },
      { site := ⟨18, {}⟩
        name := "n"
        params := []
        returnType := none
        body := some [
          .exprStmt ⟨19, {}⟩ (.assign ⟨20, {}⟩ (.ident ⟨21, {}⟩ "r") (poolCall 22)),
          .tryStmt ⟨24, {}⟩ [⟨⟨25, {}⟩, "s", "Handle", some (poolCall 26)⟩] []
            [.mk ⟨⟨28, {}⟩, "e", "Handle", none⟩ [
              .exprStmt ⟨29, {}⟩ (.assign ⟨30, {}⟩ (.ident ⟨31, {}⟩ "e") (poolCall 32)),
              .exprStmt ⟨34, {}⟩ (.call ⟨35, {}⟩ (some (.ident ⟨36, {}⟩ "e")) "close" [])]]
            none] }]
    nested := [] }]

def poolSignatures : Signatures :=
  .ofList [⟨"p.Pool", "get", "p.Handle"⟩]

def poolResource : ResourceConfig where
  handleType := "p.Handle"
  factoryType := "p.Pool"

/-- Only the local and the catch parameter are anchors. -/
theorem checkUnit_anchors_poolUnit :
    let w : Watch :=
      { model := (resolve .increasing poolUnit poolSignatures).model, resource := poolResource }
    let anchors := (checkUnit w Rule.all poolUnit).1.map fun x => (x.anchor, x.rule)
    poolUnit.nodeIds.Nodup ∧ Rule.keys.Nodup ∧ anchors.Nodup ∧
      anchors.Perm [(5, "resource/unclosed"), (28, "resource/try-with-resources")] := by
  intro w anchors
  have distinct : poolUnit.nodeIds.Nodup := by decide
  have keys : Rule.keys.Nodup := by decide
  obtain ⟨hperm, -, hnodup⟩ :=
    checkUnit_anchors .increasing poolUnit poolSignatures poolResource Rule.all distinct keys
  have hfound : (((poolUnit.allMethods.filter (·.body.isSome)).flatMap fun m =>
      (Finder.checkMethod w Rule.all m {}).1).map fun x => (x.anchor, x.rule)) =
      [(5, "resource/unclosed"), (28, "resource/try-with-resources")] := by
    decide +kernel
  exact ⟨distinct, keys, hnodup, hfound ▸ hperm.map _⟩

end HandleLint
