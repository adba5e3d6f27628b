import HandleLint.Proofs.AlikeWatches
import HandleLint.Proofs.ClassLookups
import HandleLint.Proofs.ParallelResolution
import HandleLint.Proofs.VariablesInScope

/-!
# Methods that do not interfere

What is said about a method depends on its own body and on the bodies of the methods that it gets
handles from. The body of any other method may be replaced: the findings stay the same, although
the symbols of all that comes after it get other numbers.

* `Watch.boundHelpers`: the methods that a body gets values from;
* `CompilationUnit.exists_alike`: resolving the unit with another body for a method;
* `checkMethod_withBody_eq`: the findings of another method.
-/

namespace HandleLint

open Relation (ReflTransGen)
open HandleLint.Resolver (Step)

namespace Watch

/-- The method of the unit whose bare call an event binds. -/
def boundHelper? (w : Watch) : Event → Option SymbolId
  | .bind _ value => w.localHelper? value
  | _ => none

/-- The methods of the unit whose bare calls are bound in a body, resource lists left out. -/
def boundHelpers (w : Watch) (body : List Stmt) : List SymbolId :=
  (eventsOf .skip body).filterMap w.boundHelper?

theorem mem_boundHelpers {w : Watch} {body : List Stmt} {target : BindTarget} {value : Expr}
    {helper : SymbolId} (h : .bind target value ∈ eventsOf .skip body)
    (hv : w.localHelper? value = some helper) : helper ∈ w.boundHelpers body :=
  List.mem_filterMap.2 ⟨_, h, hv⟩

theorem LeadsTo.mem_boundHelpers {w : Watch} {method next : SymbolId} (h : w.LeadsTo method next) :
    next ∈ w.boundHelpers ((w.model.body? method).getD []) := by
  obtain ⟨value, ⟨body, id, target, hbody, -, hbind, -⟩, hv⟩ := h
  rw [hbody]
  exact Watch.mem_boundHelpers hbind hv

end Watch

/-- An event of a method is about nodes of the method. -/
theorem MethodDecl.nodeIds_of_event {m : MethodDecl} {body : List Stmt} {lists : ResourceLists}
    {event : Event} (hb : m.body = some body) (h : event ∈ eventsOf lists body) :
    event.nodeIds ⊆ m.nodeIds := by
  have hexpression : ∀ x ∈ event.expressions, x.id ∈ m.nodeIds := fun x hx =>
    m.ids_steps_subset (List.mem_flatMap.2 ⟨_, visit_mem_of_event hb h hx, List.mem_cons_self⟩)
  intro i hi
  cases event with
  | bind target value =>
    cases target with
    | declared v =>
      rcases List.mem_cons.1 hi with rfl | hi
      · obtain ⟨origin, ho⟩ := declarationsOf_of_event h
        exact m.ids_steps_subset (List.mem_flatMap.2
          ⟨_, declare_mem_of_declarationsOf hb ho, List.mem_cons_self⟩)
      · exact List.mem_singleton.1 hi ▸ hexpression value List.mem_cons_self
    | assigned e =>
      obtain ⟨x, hx, rfl⟩ := List.mem_map.1 (show i ∈ [e, value].map Expr.id from hi)
      exact hexpression x hx
  | returned value => exact List.mem_singleton.1 hi ▸ hexpression value List.mem_cons_self
  | call site receiver method args =>
    obtain ⟨x, hx, rfl⟩ := List.mem_map.1
      (show i ∈ (Expr.call site receiver method args :: (receiver.toList ++ args)).map Expr.id
        from hi)
    exact hexpression x hx

namespace CompilationUnit

variable {u : CompilationUnit} {order : ClassOrder} {signatures : Signatures} {k m : MethodDecl}
  {body : Option (List Stmt)}

theorem allMethods_withBody (u : CompilationUnit) (k : NodeId) (body : Option (List Stmt)) :
    (u.withBody k body).allMethods = u.allMethods.map (MethodDecl.withBody k body) := by
  unfold allMethods allClasses withBody
  rw [ClassDecl.withNestedAll_withBodyAll, List.flatMap_map, List.map_flatMap]
  simp only [ClassDecl.methods_withBody]

/-- No event of another method is about a node of the method, whichever body this has. -/
theorem outsideOf_body (distinct : u.nodeIds.Nodup)
    (distinct' : (u.withBody k.id body).nodeIds.Nodup) (hk : k ∈ u.allMethods)
    (hm : m ∈ u.allMethods) (hne : m.id ≠ k.id) :
    OutsideOf (k.nodeIds ++ (k.withBody k.id body).nodeIds) (m.body.getD []) := by
  obtain ⟨before, after, hsegments, hout⟩ := exists_segments distinct distinct' hk
  have hother : .method m ∈ before ++ after := by
    have hmem := (ClassDecl.method_mem_segmentsOf u.classes).2 (List.mem_flatMap.1 hm)
    rw [hsegments, List.mem_append, List.mem_cons] at hmem
    rcases hmem with hmem | hmem | hmem
    · exact List.mem_append_left _ hmem
    · cases hmem
      exact absurd rfl hne
    · exact List.mem_append_right _ hmem
  intro event he i hi
  cases hb : m.body with
  | none =>
    rw [hb] at he
    cases he
  | some own =>
    rw [hb] at he
    exact (hout _ hother).2 i (MethodDecl.nodeIds_of_event hb he hi)

/-- The methods that are known in the end, with either body. -/
theorem method?_resolve_withBody (order : ClassOrder) (u : CompilationUnit)
    (signatures : Signatures) (k : NodeId) (body : Option (List Stmt)) (id : SymbolId) :
    (resolve order (u.withBody k body) signatures).model.method? id =
      ((resolve order u signatures).model.method? id).map (MethodDecl.withBody k body) := by
  rw [resolve_model, resolve_model, Model.method?, Model.method?,
    (Resolver.frame_run _ _ _).methods, (Resolver.frame_run _ _ _).methods, announced_withBody]
  exact Table.get?_mapValues _ _ id

theorem mem_allMethods_of_resolve {id : SymbolId}
    (h : (resolve order u signatures).model.method? id = some m) : m ∈ u.allMethods := by
  rw [resolve_model, Model.method?, (Resolver.frame_run _ _ _).methods] at h
  exact mem_allMethods_of_announced h

/-- With another body for a method, the unit is known up to the numbers of symbols, except for the
method. -/
theorem exists_alike (distinct : u.nodeIds.Nodup)
    (distinct' : (u.withBody k.id body).nodeIds.Nodup) (hk : k ∈ u.allMethods)
    (hbody : k.body.isSome) (resource : ResourceConfig) :
    ∃ tied, Watch.Alike (k.nodeIds ++ (k.withBody k.id body).nodeIds)
      (fun id => ((resolve order u signatures).model.method? id).map MethodDecl.id = some k.id) tied
      { model := (resolve order u signatures).model, resource }
      { model := (resolve order (u.withBody k.id body) signatures).model, resource } := by
  obtain ⟨ρ, h⟩ := @exists_simulates u order signatures k body distinct distinct' hk
  have hmethods := u.method?_resolve_withBody order signatures k.id body
  have hmethod : ∀ {id m}, (resolve order u signatures).model.method? id = some m →
      m ∈ u.allMethods := mem_allMethods_of_resolve
  refine ⟨Resolver.Tied ρ (Resolver.run (u.vocabulary order signatures)
    (u.announced order signatures) (ClassDecl.stepsOf u.classes)), ?_⟩
  constructor
  case resource => rfl
  case unique => exact fun ha hb => ha.1.eq_iff hb.1
  case symbols =>
    simp only [resolve_model]
    exact fun hid => h.symbols hid.1
  case references =>
    simp only [resolve_model]
    exact h.references
  case declarations =>
    simp only [resolve_model]
    exact h.declarations
  case calls =>
    simp only [resolve_model]
    exact h.calls
  case bodies =>
    intro id hid
    simp only [Model.body?, hmethods]
    cases hm : (resolve order u signatures).model.method? id with
    | none => rfl
    | some m =>
      have hne : m.id ≠ k.id := fun he => hid (by rw [hm, Option.map_some, he])
      rw [Option.map_some, MethodDecl.withBody_of_ne hne]
  case changed_body =>
    intro id hid
    obtain ⟨m, hm, he⟩ := Option.map_eq_some_iff.1 hid
    have hsame : m = k := List.inj_on_of_nodup_map (nodup_methodIds distinct) (hmethod hm) hk he
    simp only [Model.body?, hm, hsame]
    exact hbody
  case outside =>
    intro id own hid hown
    obtain ⟨m, hm, hb⟩ := Option.bind_eq_some_iff.1 hown
    have hne : m.id ≠ k.id := fun he => hid (by rw [hm, Option.map_some, he])
    have hout := outsideOf_body distinct distinct' hk (hmethod hm) hne
    rwa [hb] at hout

end CompilationUnit

/-- Let a method of a unit that has a body get another one, or none, and let a second method bind no
call from which the first is reached. Then any built-in rules have the same findings on the second
method before and after, in the same order, whatever was asked of the finders before, and if no two
classes get the same name, in whatever order classes are gone through. -/
theorem checkMethod_withBody_eq (order order' : ClassOrder) (u : CompilationUnit)
    (signatures : Signatures) (resource : ResourceConfig) (rules : List Rule) (k m : MethodDecl)
    (body : Option (List Stmt)) (orders : order' = order ∨ u.ClassNamesDiffer signatures)
    (distinct : u.nodeIds.Nodup) (distinct' : (u.withBody k.id body).nodeIds.Nodup)
    (hk : k ∈ u.allMethods) (hbody : k.body.isSome) (hm : m ∈ u.allMethods) (hne : m.id ≠ k.id)
    (hrules : ∀ rule ∈ rules, rule.IsBuiltIn) :
    let w : Watch := { model := (resolve order u signatures).model, resource }
    let w' : Watch :=
      { model := (resolve order' (u.withBody k.id body) signatures).model, resource }
    (∀ helper ∈ w.boundHelpers (m.body.getD []), ∀ method, ReflTransGen w.LeadsTo helper method →
      (w.model.method? method).map MethodDecl.id ≠ some k.id) →
    m ∈ (u.withBody k.id body).allMethods ∧
    ∀ f f' : Finder, f.Reached w → f'.Reached w' →
      (f'.checkMethod w' rules m).1 = (f.checkMethod w rules m).1 := by
  intro w w' hreach
  have hw : w = { model := (resolve order' u signatures).model, resource } := by
    rw [resolve_eq_of_order orders]
  obtain ⟨tied, halike⟩ :=
    @CompilationUnit.exists_alike u order' signatures k body distinct distinct' hk hbody resource
  rw [hw] at hreach ⊢
  constructor
  · rw [CompilationUnit.allMethods_withBody]
    exact List.mem_map.2 ⟨m, hm, MethodDecl.withBody_of_ne hne⟩
  · intro f f' hf hf'
    refine halike.checkMethod_eq (CompilationUnit.outsideOf_body distinct distinct' hk hm hne) ?_
      hrules hf.sound hf'.sound
    rintro event he target value helper rfl hv
    exact hreach helper (Watch.mem_boundHelpers he hv)

/-- A method that binds a value to a local and returns the local. -/
def lender (id : NodeId) (name : String) (value : Expr) : MethodDecl where
  site := ⟨id, {}⟩
  name
  params := []
  returnType := some "Handle"
  body := some [
    .localVar ⟨id + 1, {}⟩ ⟨⟨id + 2, {}⟩, "h", "Handle", some value⟩,
    .returnStmt ⟨id + 3, {}⟩ (some (.ident ⟨id + 4, {}⟩ "h"))]

/-- A method that lends handles and that no other calls. -/
def spareLender : MethodDecl :=
  lender 10 "spare" (.call ⟨15, {}⟩ (some (.ident ⟨16, {}⟩ "Pool")) "get" [])

/-- A call that borrows a handle. -/
def borrowing : Expr :=
  .call ⟨43, {}⟩ none "open" []

/-- A local that holds a borrowed handle. -/
def borrowed : VarDecl :=
  ⟨⟨42, {}⟩, "h", "Handle", some borrowing⟩

/-- A method that gets a handle and keeps it. -/
def borrower : MethodDecl where
  site := ⟨40, {}⟩
  name := "borrow"
  params := []
  returnType := none
  body := some [.localVar ⟨41, {}⟩ borrowed]

/-- The borrower gets its handle through two lenders; a third comes before them. -/
def lenderUnit : CompilationUnit where
  package := some "p"
  imports := ["p.Pool", "p.Handle"]
  classes := [{
    site := ⟨0, {}⟩
    name := "A"
    fields := []
    methods := [
      spareLender,
      lender 20 "create" (.call ⟨25, {}⟩ (some (.ident ⟨26, {}⟩ "Pool")) "get" []),
      lender 30 "open" (.call ⟨35, {}⟩ none "create" []),
      borrower]
    nested := [] }]

/-- A body with other symbols, which borrows itself and lends nothing. -/
def spareBody : List Stmt :=
  [.localVar ⟨50, {}⟩ ⟨⟨51, {}⟩, "a", "Handle", some (.call ⟨52, {}⟩ none "open" [])⟩,
    .localVar ⟨53, {}⟩ ⟨⟨54, {}⟩, "b", "Handle", none⟩]

def lenderSignatures : Signatures :=
  .ofList [⟨"p.Pool", "get", "p.Handle"⟩]

def lenderWatch (order : ClassOrder) (u : CompilationUnit) : Watch where
  model := (resolve order u lenderSignatures).model
  resource := { handleType := "p.Handle", factoryType := "p.Pool" }

/-- From what the borrower calls, only the two lenders on the way are reached. -/
theorem lenderUnit_spares_borrower :
    let w := lenderWatch .increasing lenderUnit
    ∀ helper ∈ w.boundHelpers (borrower.body.getD []), ∀ method,
      ReflTransGen w.LeadsTo helper method →
      (w.model.method? method).map MethodDecl.id ≠ some spareLender.id := by
  intro w
  obtain ⟨hbound, hclosed, hother⟩ :
      (∀ helper ∈ w.boundHelpers (borrower.body.getD []), helper ∈ [2, 3]) ∧
      (∀ a ∈ [2, 3], ∀ b ∈ w.boundHelpers ((w.model.body? a).getD []), b ∈ [2, 3]) ∧
      ∀ a ∈ [2, 3], (w.model.method? a).map MethodDecl.id ≠ some spareLender.id := by
    decide +kernel
  intro helper hh method hm
  refine hother method ?_
  induction hm with
  | refl => exact hbound helper hh
  | tail _ hbc ih => exact hclosed _ ih _ hbc.mem_boundHelpers

theorem candidates_borrower :
    (lenderWatch .increasing lenderUnit).candidates borrower = ⟨[(8, .helper 3)]⟩ := by
  let w := lenderWatch .increasing lenderUnit
  obtain ⟨hedge, hfactory, hbound, hcall, hhelper⟩ :
      .helper 2 ∈ w.sources 3 ∧ .factory ∈ w.sources 2 ∧
      w.boundLocal? (.declared borrowed) = some 8 ∧ w.isFactoryCall borrowing = false ∧
      w.localHelper? borrowing = some 3 := by
    decide +kernel
  have hreaches : w.ReachesFactory 3 :=
    Watch.reachesFactory_iff_sources.2 ⟨2, .single hedge, hfactory⟩
  have hopens : w.Opens 8 (.helper 3) (.bind (.declared borrowed) borrowing) :=
    ⟨_, _, rfl, hbound, hcall, hhelper, hreaches⟩
  have htracks := ((Tracks.nil w).concat_opens hopens).step (Finder.sound_fresh w) "borrow"
    (.call ⟨43, {}⟩ none "open" [])
  exact (w.tracks_candidates borrower).unique htracks

theorem checkMethod_borrower :
    ((Finder.checkMethod (lenderWatch .increasing lenderUnit) Rule.all borrower {}).1.map fun x =>
      (x.anchor, x.rule)) = [(42, "resource/unclosed")] := by
  rw [(Finder.checkMethod_eq (Finder.sound_fresh _) Rule.all borrower).2, candidates_borrower]
  decide +kernel

/-- The borrower leaks its handle, whichever body the third lender has. -/
theorem checkMethod_withBody_eq_lenderUnit :
    let u' := lenderUnit.withBody spareLender.id (some spareBody)
    let w := lenderWatch .increasing lenderUnit
    let w' := lenderWatch .decreasing u'
    lenderUnit.ClassNamesDiffer lenderSignatures ∧
    lenderUnit.nodeIds.Nodup ∧ u'.nodeIds.Nodup ∧
    (∀ helper ∈ w.boundHelpers (borrower.body.getD []), ∀ method,
      ReflTransGen w.LeadsTo helper method →
      (w.model.method? method).map MethodDecl.id ≠ some spareLender.id) ∧
    ((Finder.checkMethod w' Rule.all borrower {}).1.map fun x => (x.anchor, x.rule)) =
      [(42, "resource/unclosed")] := by
  intro u' w w'
  have names : lenderUnit.ClassNamesDiffer lenderSignatures := List.pairwise_singleton ..
  have distinct : lenderUnit.nodeIds.Nodup := by decide
  have distinct' : u'.nodeIds.Nodup := by decide
  have hspare : spareLender ∈ lenderUnit.allMethods := .head _
  have hborrower : borrower ∈ lenderUnit.allMethods := .tail _ (.tail _ (.tail _ (.head _)))
  obtain ⟨-, hsame⟩ := checkMethod_withBody_eq .increasing .decreasing lenderUnit _ w.resource
    Rule.all spareLender borrower (some spareBody) (.inr names) distinct distinct' hspare rfl
    hborrower (by decide) (fun rule hr => ⟨rule, hr, rfl⟩) lenderUnit_spares_borrower
  refine ⟨names, distinct, distinct', lenderUnit_spares_borrower, ?_⟩
  rw [← checkMethod_borrower]
  exact congrArg (List.map _) (hsame {} {} .fresh .fresh)

end HandleLint
