import HandleLint.Proofs.BodyReplacement
import HandleLint.Proofs.ResolverSimulation

/-!
# Resolving a unit with another body for a method

The way through the unit and the way through the unit with another body for a method are the same up
to the method, part there, and are the same again after it. So what the two know agrees up to the
numbers of symbols, except on the nodes of the method.

* `Resolver.Announced`: what holds before any body is gone through;
* `CompilationUnit.exists_segments`: the segments before and after a method, and their nodes;
* `CompilationUnit.exists_simulates`: what is known in the end agrees.
-/

namespace HandleLint

open HandleLint.Resolver (Step Simulates Frame)

/-! ## Before bodies -/

namespace Resolver

variable {r : Resolver} {voc : Vocabulary}

/-- The tables speak only of symbols that there are, and not of expressions. -/
structure Announced (r : Resolver) : Prop where
  members : ∀ c, ∀ id ∈ (r.classMembers c).fields ++ (r.classMembers c).methods,
    id < r.symbols.next
  declarations : ∀ i id, r.declaration? i = some id → id < r.symbols.next
  references : r.references = {}
  calls : r.calls = {}
  scopes : r.scopes = {}

theorem announced_empty : Announced {} := by
  constructor
  case members =>
    intro c id hid
    cases hid
  case declarations =>
    intro i id hid
    cases hid
  all_goals rfl

theorem next_addSymbol (r : Resolver) (name : String) (kind : SymbolKind) (type : Option String)
    (site : Site) : (r.addSymbol name kind type site).symbols.next = r.symbols.next + 1 :=
  SymbolTable.next_insert _ _ _ _ _

theorem Announced.addSymbol (h : r.Announced) (name : String) (kind : SymbolKind)
    (type : Option String) (site : Site) : (r.addSymbol name kind type site).Announced := by
  constructor
  case members =>
    intro c id hid
    rw [next_addSymbol]
    exact Nat.lt_succ_of_lt (h.members c id hid)
  case declarations =>
    intro i id hid
    rw [next_addSymbol]
    simp only [Resolver.addSymbol, Model.declaration?, Table.get?_insert] at hid
    split at hid
    · cases hid
      exact Nat.lt_succ_self _
    · exact Nat.lt_succ_of_lt (h.declarations i id hid)
  case references => exact h.references
  case calls => exact h.calls
  case scopes => exact h.scopes

/-- Members that are declared one after the other. -/
theorem Announced.foldl {α : Type} {f : Resolver → α → Resolver}
    (hf : ∀ r a, Announced r → (f r a).Announced ∧ (f r a).symbols.next = r.symbols.next + 1)
    (h : r.Announced) (as : List α) :
    (as.foldl f r).Announced ∧ (as.foldl f r).symbols.next = r.symbols.next + as.length := by
  induction as generalizing r with
  | nil => exact ⟨h, rfl⟩
  | cons a rest ih =>
    obtain ⟨ha, hnext⟩ := hf r a h
    obtain ⟨hdone, hlength⟩ := ih ha
    refine ⟨hdone, ?_⟩
    rw [List.foldl_cons, hlength, hnext, List.length_cons, Nat.add_assoc, Nat.add_comm 1]

theorem Announced.declareClass (h : r.Announced) (c : ClassDecl) :
    (declareClass voc r c).Announced := by
  have hstart := h.addSymbol c.name .type (voc.types.lookup? c.name) c.site
  obtain ⟨hfilled, hfields⟩ := hstart.foldl (f := declareField voc c.id)
    (fun r v hr => ⟨hr.addSymbol v.name _ _ v.site, next_addSymbol r v.name _ _ v.site⟩) c.fields
  have hmethod : ∀ r m, Announced r → (declareMethod voc c.id r m).Announced ∧
      (declareMethod voc c.id r m).symbols.next = r.symbols.next + 1 := by
    intro r m hr
    obtain ⟨hmembers, hdeclarations, hreferences, hcalls, hscopes⟩ :=
      hr.addSymbol m.name (.method c.id m.params.length) (returnType? voc m) m.site
    exact ⟨⟨hmembers, hdeclarations, hreferences, hcalls, hscopes⟩, next_addSymbol r m.name _ _ _⟩
  obtain ⟨hdone, hmethods⟩ := hfilled.foldl hmethod c.methods
  refine ⟨fun d id hid => ?_, hdone.declarations, hdone.references, hdone.calls, hdone.scopes⟩
  simp only [Resolver.declareClass, classMembers, Table.get?_insert] at hid ⊢
  split at hid
  · -- The numbers of its members were given out one after the other.
    simp only [Option.getD_some, consecutive, List.mem_append, List.mem_range'_1] at hid
    rw [hmethods]
    rcases hid with hid | hid
    · exact Nat.lt_of_lt_of_le (hfields ▸ hid.2) (Nat.le_add_right _ _)
    · exact hid.2
  · exact hdone.members d id hid

/-- The methods that are known after classes are declared are theirs. -/
theorem method?_declareClasses {cs : List ClassDecl} {id : SymbolId} {m : MethodDecl}
    (h : (cs.foldl (declareClass voc) r).method? id = some m) :
    r.method? id = some m ∨ ∃ c ∈ cs, m ∈ c.methods := by
  have hmethods : ∀ (owner : NodeId) (ms : List MethodDecl) (r : Resolver),
      (ms.foldl (declareMethod voc owner) r).method? id = some m →
      r.method? id = some m ∨ m ∈ ms := by
    intro owner ms
    induction ms with
    | nil => exact fun _ => .inl
    | cons a rest ih =>
      intro r h
      rcases ih _ h with h | h
      · simp only [declareMethod, Model.method?, Table.get?_insert] at h
        split at h
        · cases h
          exact .inr List.mem_cons_self
        · exact .inl h
      · exact .inr (List.mem_cons_of_mem a h)
  have hfields : ∀ (owner : NodeId) (vs : List VarDecl) (r : Resolver),
      (vs.foldl (declareField voc owner) r).methods = r.methods := by
    intro owner vs
    induction vs with
    | nil => exact fun _ => rfl
    | cons v rest ih => exact fun r => ih (declareField voc owner r v)
  induction cs generalizing r with
  | nil => exact .inl h
  | cons c rest ih =>
    rcases ih h with h | ⟨d, hd, hm⟩
    · rcases hmethods c.id c.methods _ h with h | hm
      · rw [Model.method?, hfields] at h
        exact .inl h
      · exact .inr ⟨c, List.mem_cons_self, hm⟩
    · exact .inr ⟨d, List.mem_cons_of_mem c hd, hm⟩

/-- Before bodies, the bodies of methods do not matter. -/
theorem Announced.simulates (h : r.Announced) (f : MethodDecl → MethodDecl) :
    Simulates [] ⟨r.symbols.next, 0, 0⟩ r (r.mapMethods f) := by
  constructor
  case next => exact ⟨0, rfl, rfl⟩
  case symbols =>
    intro id id' hid
    cases Renumbering.ties_same_iff.1 hid
    rfl
  case members => rfl
  case shared => exact h.members
  case scopes =>
    show List.Forall₂ _ r.scopes.chain r.scopes.chain
    rw [h.scopes]
    exact .nil
  case references =>
    intro i _
    show Option.Rel _ (r.reference? i) (r.reference? i)
    rw [Model.reference?, h.references]
    exact .none
  case declarations =>
    intro i _
    show Option.Rel _ (r.declaration? i) (r.declaration? i)
    cases hid : r.declaration? i with
    | none => exact .none
    | some id => exact .some ⟨Renumbering.ties_same_iff.2 rfl, h.declarations i id hid⟩
  case calls => exact fun _ _ => rfl
  case callees =>
    intro i _ target ht
    rw [Model.callTarget?, h.calls] at ht
    cases ht

end Resolver

namespace CompilationUnit

variable {u : CompilationUnit} {order : ClassOrder} {signatures : Signatures}

theorem announced_announced (order : ClassOrder) (u : CompilationUnit) (signatures : Signatures) :
    (u.announced order signatures).Announced :=
  List.foldlRecOn u.allClasses _ Resolver.announced_empty fun _ hr c _ => hr.declareClass c

theorem mem_allMethods_of_announced {id : SymbolId} {m : MethodDecl}
    (h : (u.announced order signatures).method? id = some m) : m ∈ u.allMethods := by
  rcases Resolver.method?_declareClasses h with h | ⟨c, hc, hm⟩
  · cases h
  · exact List.mem_flatMap.2 ⟨c, hc, hm⟩

end CompilationUnit

/-! ## Segments -/

theorem Expr.visit_mem_steps {e x : Expr} : .visit x ∈ e.steps ↔ e.Inside x := by
  rw [steps, List.mem_map, ← mem_postorder_iff]
  constructor
  · rintro ⟨y, hy, he⟩
    cases he
    exact hy
  · exact fun h => ⟨x, h, rfl⟩

/-- With an expression, a method visits what is inside it. -/
theorem MethodDecl.visit_mem_of_inside {m : MethodDecl} {e x : Expr} (h : .visit e ∈ m.steps)
    (hx : e.Inside x) : .visit x ∈ m.steps := by
  unfold steps at h
  cases hb : m.body with
  | none =>
    rw [hb] at h
    cases h
  | some body =>
    rw [hb] at h
    simp only [List.mem_append, List.mem_cons, List.mem_map, List.mem_flatMap, reduceCtorEq,
      List.not_mem_nil, or_false, false_or, and_false, exists_false] at h
    obtain ⟨a, ha, he⟩ := h
    refine mem_steps_of_mem_action hb ha ?_
    rw [Action.visit_mem_steps] at he ⊢
    cases a with
    | evaluate value =>
      exact Expr.mem_postorder_iff.2 ((Expr.mem_postorder_iff.1 he).trans hx)
    | declare origin v =>
      obtain ⟨value, hv, he⟩ := List.mem_flatMap.1 he
      exact List.mem_flatMap.2 ⟨value, hv,
        Expr.mem_postorder_iff.2 ((Expr.mem_postorder_iff.1 he).trans hx)⟩
    | _ => cases he

theorem MethodDecl.ids_steps_subset (m : MethodDecl) : m.steps.flatMap Step.ids ⊆ m.nodeIds :=
  fun _ hi => m.sublist_nodeIds.subset (List.mem_cons_of_mem _ hi)

/-- Going through a method changes the tables at the nodes of the method. -/
theorem MethodDecl.frame_run (m : MethodDecl) (voc : Vocabulary) (r : Resolver) :
    Frame m.nodeIds r (Resolver.run voc r m.steps) :=
  (Resolver.frame_run voc r m.steps).mono m.ids_steps_subset

namespace Segment

/-- A segment visits nodes of its own. -/
theorem mem_nodeIds_of_visit {s : Segment} {e x : Expr} (h : .visit e ∈ s.steps)
    (hx : e.Inside x) : x.id ∈ s.nodeIds := by
  cases s with
  | openClass c => cases List.mem_singleton.1 h
  | values es =>
    obtain ⟨value, hv, he⟩ := List.mem_flatMap.1 h
    refine List.mem_flatMap.2 ⟨value, hv, List.mem_map_of_mem ?_⟩
    exact Expr.mem_postorder_iff.2 ((Expr.visit_mem_steps.1 he).trans hx)
  | method m =>
    refine m.ids_steps_subset (List.mem_flatMap.2 ⟨_, MethodDecl.visit_mem_of_inside h hx, ?_⟩)
    exact List.mem_singleton_self _
  | leave => cases List.mem_singleton.1 h

end Segment

/-- Segments other than a method, gone through side by side. -/
theorem Resolver.Simulates.run_segments {except : List NodeId} {ρ : Renumbering} {r r' : Resolver}
    (h : Simulates except ρ r r') (voc : Vocabulary) {k : NodeId} (body : Option (List Stmt))
    {segments : List Segment} (hk : ∀ s ∈ segments, k ∉ s.nodeIds)
    (havoid : ∀ s ∈ segments, ∀ i ∈ s.nodeIds, i ∉ except) :
    Simulates except ρ (Resolver.run voc r (segments.flatMap Segment.steps))
      (Resolver.run voc r' ((segments.map (Segment.withBody k body)).flatMap Segment.steps)) := by
  induction segments generalizing r r' with
  | nil => exact h
  | cons s rest ih =>
    obtain ⟨hs, hrest⟩ := List.forall_mem_cons.1 hk
    obtain ⟨havoids, havoidrest⟩ := List.forall_mem_cons.1 havoid
    rw [List.map_cons, List.flatMap_cons, List.flatMap_cons, Resolver.run_append,
      Resolver.run_append, Segment.run_withBody hs]
    refine ih (h.run voc fun e he x hx => ?_) hrest havoidrest
    exact havoids _ (Segment.mem_nodeIds_of_visit he hx)

/-! ## The whole way -/

/-- An element of a list of things with numbers shares none with the others. -/
theorem forall_notMem_of_nodup_flatMap {α β : Type} {f : α → List β} {x : α}
    {before after : List α} (h : ((before ++ x :: after).flatMap f).Nodup) :
    ∀ a ∈ before ++ after, ∀ i ∈ f a, i ∉ f x := by
  have hperm : ((before ++ x :: after).flatMap f).Perm ((x :: (before ++ after)).flatMap f) :=
    List.perm_middle.flatMap_right f
  intro a ha i hi hx
  obtain ⟨-, -, hdisjoint⟩ := List.nodup_append.1 (hperm.nodup_iff.1 h)
  exact hdisjoint i hx i (List.mem_flatMap.2 ⟨a, ha, hi⟩) rfl

namespace CompilationUnit

variable {u : CompilationUnit} {order : ClassOrder} {signatures : Signatures} {k : MethodDecl}
  {body : Option (List Stmt)}

theorem nodup_segments (distinct : u.nodeIds.Nodup) :
    ((ClassDecl.segmentsOf u.classes).flatMap Segment.nodeIds).Nodup :=
  distinct.sublist (ClassDecl.segmentsOf_nodeIds_sublist u.classes)

/-- The segments before and after a method share no node with it, whichever body it has. -/
theorem exists_segments (distinct : u.nodeIds.Nodup)
    (distinct' : (u.withBody k.id body).nodeIds.Nodup) (hk : k ∈ u.allMethods) :
    ∃ before after, ClassDecl.segmentsOf u.classes = before ++ .method k :: after ∧
      ∀ s ∈ before ++ after, k.id ∉ s.nodeIds ∧
        ∀ i ∈ s.nodeIds, i ∉ k.nodeIds ++ (k.withBody k.id body).nodeIds := by
  obtain ⟨before, after, hsegments⟩ :=
    List.append_of_mem ((ClassDecl.method_mem_segmentsOf u.classes).2 (List.mem_flatMap.1 hk))
  refine ⟨before, after, hsegments, fun s hs => ?_⟩
  have hnodup := nodup_segments distinct
  have hnodup' := nodup_segments distinct'
  rw [withBody, ClassDecl.segmentsOf_withBodyAll, hsegments, List.map_append, List.map_cons]
    at hnodup'
  rw [hsegments] at hnodup
  have hout := forall_notMem_of_nodup_flatMap hnodup s hs
  have hid : k.id ∉ s.nodeIds := fun hm => hout k.id hm List.mem_cons_self
  have hout' := forall_notMem_of_nodup_flatMap hnodup' (s.withBody k.id body)
    (List.map_append ▸ List.mem_map_of_mem hs)
  rw [Segment.nodeIds_withBody hid] at hout'
  refine ⟨hid, fun i hi hm => ?_⟩
  rcases List.mem_append.1 hm with hm | hm
  · exact hout i hi hm
  · exact hout' i hi hm

/-- What is known in the end agrees up to the numbers of symbols, except on the nodes of the
method. -/
theorem exists_simulates (distinct : u.nodeIds.Nodup)
    (distinct' : (u.withBody k.id body).nodeIds.Nodup) (hk : k ∈ u.allMethods) :
    ∃ ρ, Simulates (k.nodeIds ++ (k.withBody k.id body).nodeIds) ρ
      (Resolver.run (u.vocabulary order signatures) (u.announced order signatures)
        (ClassDecl.stepsOf u.classes))
      (Resolver.run ((u.withBody k.id body).vocabulary order signatures)
        ((u.withBody k.id body).announced order signatures)
        (ClassDecl.stepsOf (u.withBody k.id body).classes)) := by
  obtain ⟨before, after, hsegments, hout⟩ := exists_segments distinct distinct' hk
  obtain ⟨hbefore, hafter⟩ := List.forall_mem_append.1 hout
  rw [vocabulary_withBody, announced_withBody, withBody, ← ClassDecl.flatMap_steps_segmentsOf,
    ← ClassDecl.flatMap_steps_segmentsOf, ClassDecl.segmentsOf_withBodyAll, hsegments]
  simp only [List.map_append, List.map_cons, List.flatMap_append, List.flatMap_cons,
    Resolver.run_append]
  generalize u.vocabulary order signatures = voc
  have hstart := (u.announced_announced order signatures).simulates (MethodDecl.withBody k.id body)
  have hparted := hstart.run_segments voc body (fun s hs => (hbefore s hs).1)
    fun _ _ _ _ => List.not_mem_nil
  have hmet := hparted.fork (k.frame_run voc _) ((k.withBody k.id body).frame_run voc _)
    (k.scopes_run voc _)
    ((k.withBody k.id body).scopes_run voc _)
  exact ⟨_, hmet.run_segments voc body (fun s hs => (hafter s hs).1) fun s hs => (hafter s hs).2⟩

end CompilationUnit

end HandleLint
