import HandleLint.Proofs.ParallelResolution
import HandleLint.Proofs.VariablesInScope
import Mathlib.Data.List.Perm.Subperm

/-!
# What the tables of a unit refer to

Nodes and classes may share numbers, and then later entries of a table replace earlier ones while
scopes still bind what the earlier ones named. Even so no entry ever dangles, and each refers to a
symbol of the right kind (`Model.Coherent`). With distinct numbers the entries are also about what
stands at their nodes (`Model.Exact`).

* `Resolver.Grounded`: everything that a resolver may refer to next is there;
* `Resolver.Grounded.step`, `Resolver.Grounded.run`: it stays there;
* `coherent_resolve`: the tables of a unit;
* `exact_resolve`: the tables of a unit whose nodes have distinct numbers.
-/

namespace HandleLint

open HandleLint.Resolver (Step)

/-- Whether symbols of a kind stand for values: variables of bodies, parameters and fields. -/
def SymbolKind.isValue : SymbolKind → Bool
  | .var _ | .parameter | .field _ => true
  | .method _ _ | .type => false

namespace Model

/-- The number is that of a variable, a parameter or a field. -/
def HasValue (m : Model) (id : SymbolId) : Prop :=
  ∃ s, m.symbol? id = some s ∧ s.kind.isValue = true

/-- The number is that of a method, and its declaration is known. -/
def HasMethod (m : Model) (id : SymbolId) : Prop :=
  (∃ s, m.symbol? id = some s ∧ s.isMethod = true) ∧ ∃ d, m.method? id = some d

/-- Symbols stand under their numbers, and the tables refer to symbols that there are, each to
symbols of the kind that it is about. What a call returns is the type of the method it calls. -/
structure Coherent (m : Model) : Prop where
  ids : ∀ {id s}, m.symbol? id = some s → s.id = id
  references : ∀ {i id}, m.reference? i = some id → m.HasValue id
  declarations : ∀ {i id}, m.declaration? i = some id → ∃ s, m.symbol? id = some s ∧ s.decl = i
  methods : ∀ {id d}, m.method? id = some d → m.HasMethod id
  callees : ∀ {i target callee}, m.callTarget? i = some target → target.callee = some callee →
    m.HasMethod callee ∧ target.returns = m.typeOf? callee

/-- No symbol is taken back, and no method. -/
structure Keeps (m m' : Model) : Prop where
  symbols : ∀ {id s}, m.symbol? id = some s → m'.symbol? id = some s
  methods : ∀ {id d}, m.method? id = some d → ∃ d', m'.method? id = some d'

namespace Keeps

variable {m m' m'' : Model} {id : SymbolId}

theorem refl (m : Model) : m.Keeps m :=
  ⟨fun h => h, fun h => ⟨_, h⟩⟩

theorem trans (h : m.Keeps m') (h' : m'.Keeps m'') : m.Keeps m'' where
  symbols := fun hs => h'.symbols (h.symbols hs)
  methods := by
    intro id d hd
    obtain ⟨d', hd'⟩ := h.methods hd
    exact h'.methods hd'

theorem hasValue (h : m.Keeps m') (hv : m.HasValue id) : m'.HasValue id := by
  obtain ⟨s, hs, hk⟩ := hv
  exact ⟨s, h.symbols hs, hk⟩

theorem hasMethod (h : m.Keeps m') (hm : m.HasMethod id) : m'.HasMethod id := by
  obtain ⟨⟨s, hs, hk⟩, d, hd⟩ := hm
  exact ⟨⟨s, h.symbols hs, hk⟩, h.methods hd⟩

theorem typeOf? (h : m.Keeps m') (hm : m.HasMethod id) : m'.typeOf? id = m.typeOf? id := by
  obtain ⟨⟨s, hs, -⟩, -⟩ := hm
  rw [Model.typeOf?, Model.typeOf?, hs, h.symbols hs]

end Keeps

end Model

/-! ## Scopes -/

namespace ScopeTree

variable {t : ScopeTree} {id : SymbolId}

/-- Some scope, be it still open or not, binds a name to the symbol. -/
def Binds (t : ScopeTree) (id : SymbolId) : Prop :=
  ∃ s ∈ t.scopes, ∃ name b, s.bindings.get? name = some b ∧ b.symbol = id

theorem binds_enter {kind : ScopeKind} (h : (t.enter kind).Binds id) : t.Binds id := by
  obtain ⟨s, hs, name, b, hb, rfl⟩ := h
  rcases List.mem_cons.1 hs with rfl | hs
  · cases hb
  · exact ⟨s, hs, name, b, hb, rfl⟩

theorem binds_leave (h : t.leave.Binds id) : t.Binds id :=
  h

theorem binds_bindIn {scope : ScopeId} {name : String} {b : Binding}
    (h : (t.bindIn scope name b).Binds id) : id = b.symbol ∨ t.Binds id := by
  obtain ⟨s', hs', n, b', hb', rfl⟩ := h
  obtain ⟨s, hs, rfl⟩ := List.mem_map.1 hs'
  unfold Scope.bindIf at hb'
  split at hb'
  · rw [Table.get?_insert] at hb'
    split at hb'
    · cases hb'
      exact .inl rfl
    · exact .inr ⟨s, hs, n, b', hb', rfl⟩
  · exact .inr ⟨s, hs, n, b', hb', rfl⟩

theorem binds_declared {name : String} {b : Binding} (h : (t.declared name b).Binds id) :
    id = b.symbol ∨ t.Binds id := by
  unfold declared define at h
  cases hc : t.chain with
  | nil =>
    simp only [hc] at h
    exact .inr h
  | cons s outer =>
    cases hb : s.bindings.get? name with
    | some bound =>
      simp only [hc, hb] at h
      exact .inr h
    | none =>
      simp only [hc, hb] at h
      exact binds_bindIn h

theorem binds_declaredAll {entries : List (VarDecl × SymbolId)}
    (h : (t.declaredAll entries).Binds id) : id ∈ entries.map Prod.snd ∨ t.Binds id := by
  induction entries generalizing t with
  | nil => exact .inr h
  | cons entry rest ih =>
    rcases ih h with h | h
    · exact .inl (List.mem_cons_of_mem _ h)
    · rcases binds_declared h with rfl | h
      · exact .inl List.mem_cons_self
      · exact .inr h

theorem binds_of_lookup? {name : String} (h : t.lookup? name = some id) : t.Binds id := by
  obtain ⟨b, hb, rfl⟩ := Option.map_eq_some_iff.1 h
  obtain ⟨s, hs, hb⟩ := List.exists_of_findSome?_eq_some hb
  exact ⟨s, mem_scopes_of_mem_chain hs, name, b, hb, rfl⟩

end ScopeTree

namespace Resolver

variable {r : Resolver} {voc : Vocabulary}

/-! ## What a resolver may refer to -/

/-- The tables are coherent, and so is what entries are made from: the members of classes, and what
scopes bind. -/
structure Grounded (r : Resolver) : Prop where
  model : r.toModel.Coherent
  fields : ∀ {c id}, id ∈ (r.classMembers c).fields → r.HasValue id
  methods : ∀ {c id}, id ∈ (r.classMembers c).methods → r.HasMethod id
  bound : ∀ {id}, r.scopes.Binds id → r.HasValue id

theorem grounded_empty : Grounded {} where
  model := by
    constructor
    case ids =>
      intro id s h
      cases (symbol?_empty id).symm.trans h
    all_goals
      intros
      contradiction
  fields := nofun
  methods := nofun
  bound := by
    rintro id ⟨s, hs, -⟩
    cases hs

theorem keeps_addSymbol (r : Resolver) (name : String) (kind : SymbolKind) (type : Option String)
    (site : Site) : r.Keeps (r.addSymbol name kind type site).toModel where
  symbols := (announces_addSymbol r name kind type site).symbols
  methods := fun h => ⟨_, h⟩

theorem symbol?_addSymbol_next (r : Resolver) (name : String) (kind : SymbolKind)
    (type : Option String) (site : Site) :
    (r.addSymbol name kind type site).symbol? r.symbols.next =
      some { id := r.symbols.next, name, kind, type, site } := by
  rw [Model.symbol?, addSymbol, SymbolTable.get?_insert, if_pos rfl]

theorem Grounded.addSymbol (h : r.Grounded) (name : String) (kind : SymbolKind)
    (type : Option String) (site : Site) : (r.addSymbol name kind type site).Grounded := by
  have hkeep := keeps_addSymbol r name kind type site
  constructor
  case model =>
    constructor
    case ids =>
      intro id s hs
      rcases symbol?_addSymbol hs with hs | ⟨rfl, rfl⟩
      · exact h.model.ids hs
      · rfl
    case references => exact fun hr => hkeep.hasValue (h.model.references hr)
    case declarations =>
      intro i id hd
      simp only [Resolver.addSymbol, Model.declaration?, Table.get?_insert] at hd
      split at hd
      · cases hd
        exact ⟨_, symbol?_addSymbol_next r name kind type site, by simp_all [Symbol.decl]⟩
      · obtain ⟨s, hs, hi⟩ := h.model.declarations hd
        exact ⟨s, hkeep.symbols hs, hi⟩
    case methods => exact fun hm => hkeep.hasMethod (h.model.methods hm)
    case callees =>
      intro i target callee ht hc
      obtain ⟨hm, hreturns⟩ := h.model.callees ht hc
      exact ⟨hkeep.hasMethod hm, hreturns.trans (hkeep.typeOf? hm).symm⟩
  case fields => exact fun hf => hkeep.hasValue (h.fields hf)
  case methods => exact fun hm => hkeep.hasMethod (h.methods hm)
  case bound => exact fun hb => hkeep.hasValue (h.bound hb)

/-- A method that has its symbol is entered. -/
theorem Grounded.withMethod (h : r.Grounded) {id : SymbolId} {s : Symbol}
    (hs : r.symbol? id = some s) (hk : s.isMethod = true) (m : MethodDecl) :
    Grounded { r with methods := r.methods.insert id m } := by
  have hkeep : r.Keeps { r.toModel with methods := r.methods.insert id m } := by
    refine ⟨fun h => h, fun {id' d} hd => ?_⟩
    simp only [Model.method?, Table.get?_insert]
    split
    · exact ⟨m, rfl⟩
    · exact ⟨d, hd⟩
  constructor
  case model =>
    constructor
    case ids => exact h.model.ids
    case references => exact fun hr => hkeep.hasValue (h.model.references hr)
    case declarations => exact h.model.declarations
    case methods =>
      intro id' d hd
      -- The new entry may replace one under the same number; the symbol is that of a method anyway.
      by_cases he : id' = id
      · subst he
        exact ⟨⟨s, hs, hk⟩, d, hd⟩
      · simp only [Model.method?, Table.get?_insert, beq_iff_eq, if_neg he] at hd
        exact hkeep.hasMethod (h.model.methods hd)
    case callees =>
      intro i target callee ht hc
      obtain ⟨hm, hreturns⟩ := h.model.callees ht hc
      exact ⟨hkeep.hasMethod hm, hreturns⟩
  case fields => exact fun hf => hkeep.hasValue (h.fields hf)
  case methods => exact fun hm => hkeep.hasMethod (h.methods hm)
  case bound => exact fun hb => hkeep.hasValue (h.bound hb)

/-- The members of a class are entered, in place of those of a class of the same number. -/
theorem Grounded.withMembers (h : r.Grounded) (c : NodeId) {members : ClassMembers}
    (hfields : ∀ id ∈ members.fields, r.HasValue id)
    (hmethods : ∀ id ∈ members.methods, r.HasMethod id) :
    Grounded { r with members := r.members.insert c members } := by
  refine ⟨h.model, fun {d id} hid => ?_, fun {d id} hid => ?_, h.bound⟩
  · simp only [classMembers, Table.get?_insert] at hid
    split at hid
    · exact hfields id hid
    · exact h.fields hid
  · simp only [classMembers, Table.get?_insert] at hid
    split at hid
    · exact hmethods id hid
    · exact h.methods hid

/-! ## Classes -/

/-- Declaring a member gives the next symbol to something that is `P`. -/
structure Adds (P : Model → SymbolId → Prop) (r r' : Resolver) : Prop where
  grounded : r'.Grounded
  keeps : r.Keeps r'.toModel
  next : r'.symbols.next = r.symbols.next + 1
  added : P r'.toModel r.symbols.next

theorem Adds.foldl {α : Type} {f : Resolver → α → Resolver} {P : Model → SymbolId → Prop}
    (hf : ∀ r a, Grounded r → Adds P r (f r a))
    (hP : ∀ {m m' id}, Model.Keeps m m' → P m id → P m' id) (h : r.Grounded) (as : List α) :
    (as.foldl f r).Grounded ∧ r.Keeps (as.foldl f r).toModel ∧
      ∀ id ∈ consecutive r.symbols.next as.length, P (as.foldl f r).toModel id := by
  induction as generalizing r with
  | nil => exact ⟨h, .refl _, nofun⟩
  | cons a rest ih =>
    obtain ⟨hgrounded, hkeeps, hnext, hadded⟩ := hf r a h
    obtain ⟨hdone, hkept, hall⟩ := ih hgrounded
    refine ⟨hdone, hkeeps.trans hkept, fun id hid => ?_⟩
    rw [consecutive, List.length_cons, List.range'_succ] at hid
    rcases List.mem_cons.1 hid with rfl | hid
    · exact hP hkept hadded
    · exact hall id (hnext ▸ hid)

theorem adds_declareField (voc : Vocabulary) (owner : NodeId) (r : Resolver) (v : VarDecl)
    (h : r.Grounded) : Adds Model.HasValue r (declareField voc owner r v) where
  grounded := h.addSymbol _ _ _ _
  keeps := keeps_addSymbol r _ _ _ _
  next := SymbolTable.next_insert _ _ _ _ _
  added := ⟨_, symbol?_addSymbol_next r _ _ _ _, rfl⟩

theorem adds_declareMethod (voc : Vocabulary) (owner : NodeId) (r : Resolver) (m : MethodDecl)
    (h : r.Grounded) : Adds Model.HasMethod r (declareMethod voc owner r m) := by
  have hnew := symbol?_addSymbol_next r m.name (.method owner m.params.length)
    (returnType? voc m) m.site
  have hkeep := keeps_addSymbol r m.name (.method owner m.params.length) (returnType? voc m) m.site
  constructor
  case grounded => exact (h.addSymbol _ _ _ _).withMethod hnew rfl m
  case keeps =>
    refine ⟨hkeep.symbols, fun {id d} hd => ?_⟩
    simp only [declareMethod, Model.method?, Table.get?_insert]
    split
    · exact ⟨m, rfl⟩
    · exact ⟨d, hd⟩
  case next => exact SymbolTable.next_insert _ _ _ _ _
  case added =>
    refine ⟨⟨_, hnew, rfl⟩, m, ?_⟩
    simp [declareMethod, Model.method?]

theorem Grounded.declareClass (h : r.Grounded) (c : ClassDecl) :
    (declareClass voc r c).Grounded := by
  have hclass := h.addSymbol c.name .type (voc.types.lookup? c.name) c.site
  obtain ⟨hfilled, -, hfields⟩ := Adds.foldl (adds_declareField voc c.id)
    Model.Keeps.hasValue hclass c.fields
  obtain ⟨hdone, hkeeps, hmethods⟩ := Adds.foldl (adds_declareMethod voc c.id)
    Model.Keeps.hasMethod hfilled c.methods
  exact hdone.withMembers c.id (fun id hid => hkeeps.hasValue (hfields id hid)) hmethods

/-! ## Steps -/

/-- An entry for an identifier or a field is for a bound symbol or a field. -/
theorem reference?_visit {e : Expr} {i : NodeId} {id : SymbolId}
    (h : (visit voc r e).reference? i = some id) :
    r.reference? i = some id ∨ r.scopes.Binds id ∨ ∃ c, id ∈ (r.classMembers c).fields := by
  have hrefer : ∀ {site : Site} {symbol}, (r.refer site.id symbol).reference? i = some id →
      r.reference? i = some id ∨ symbol = id := by
    intro site symbol h
    simp only [refer, Model.reference?, Table.get?_insert] at h
    split at h
    · exact .inr (Option.some.inj h)
    · exact .inl h
  cases e with
  | ident site name =>
    simp only [visit] at h
    cases hl : r.scopes.lookup? name with
    | some symbol =>
      rw [hl] at h
      rcases hrefer h with h | rfl
      · exact .inl h
      · exact .inr (.inl (ScopeTree.binds_of_lookup? hl))
    | none =>
      rw [hl] at h
      simp only at h
      split at h <;> exact .inl h
  | field site object name =>
    simp only [visit] at h
    cases ho : if object.isThis then r.ownField? name else none with
    | some symbol =>
      rw [ho] at h
      rcases hrefer h with h | rfl
      · exact .inl h
      · split at ho
        · exact .inr (.inr (mem_of_ownField? ho))
        · cases ho
    | none =>
      rw [ho] at h
      exact .inl h
  | call site receiver method args =>
    obtain ⟨problems, notes, ht⟩ := exists_callTarget voc r receiver method args.length site.span
    simp only [visit, ht] at h
    exact .inl h
  | _ => exact .inl h

/-- An entry for a call is for a method of that name. -/
theorem callTarget?_visit {e : Expr} {i : NodeId} {target : CallTarget}
    (h : (visit voc r e).callTarget? i = some target) :
    r.callTarget? i = some target ∨ ∃ method, r.CallsNamed method target := by
  rw [Model.callTarget?, show visit voc r e = step voc r (.visit e) from rfl, calls_step] at h
  cases e with
  | call site receiver method args =>
    simp only [record?, Option.toList_some, writeCalls, List.foldl_cons, List.foldl_nil,
      Table.get?_insert] at h
    split at h
    · cases h
      exact .inr ⟨method, callsNamed_callTarget voc r receiver method args.length site.span⟩
    · exact .inl h
  | _ => exact .inl h

theorem Grounded.visit (h : r.Grounded) (e : Expr) : (visit voc r e).Grounded := by
  obtain ⟨references, calls, problems, notes, hv, -⟩ := exists_visit voc r e
  have hrefs := @reference?_visit r voc e
  have hcalls := @callTarget?_visit r voc e
  rw [hv] at hrefs hcalls ⊢
  constructor
  case model =>
    constructor
    case ids => exact h.model.ids
    case references =>
      intro i id hi
      rcases hrefs hi with hi | hi | ⟨c, hc⟩
      · exact h.model.references hi
      · exact h.bound hi
      · exact h.fields hc
    case declarations => exact h.model.declarations
    case methods => exact h.model.methods
    case callees =>
      intro i target callee hi hc
      rcases hcalls hi with hi | ⟨method, hm⟩
      · exact h.model.callees hi hc
      · obtain ⟨⟨c, hmem⟩, hreturns⟩ := hm callee hc
        exact ⟨h.methods (List.mem_of_mem_filter hmem), hreturns⟩
  case fields => exact h.fields
  case methods => exact h.methods
  case bound => exact h.bound

/-- Other scopes, which bind nothing new but values. -/
theorem Grounded.withScopes (h : r.Grounded) {scopes : ScopeTree} {problems : Array Problem}
    (hs : ∀ id, scopes.Binds id → r.HasValue id) : Grounded { r with scopes, problems } :=
  ⟨⟨h.model.ids, h.model.references, h.model.declarations, h.model.methods, h.model.callees⟩,
    h.fields, h.methods, fun {id} => hs id⟩

/-- A step declares variables and parameters only. -/
def Step.DeclaresValue (s : Step) : Prop :=
  ∀ kind v, s = .declare kind v → kind.isValue = true

theorem Grounded.step (h : r.Grounded) {s : Step} (hvalue : s.DeclaresValue) :
    (step voc r s).Grounded := by
  cases s with
  | openClass c =>
    obtain ⟨problems, hs⟩ := exists_openClass voc r c
    rw [hs]
    refine h.withScopes fun id hid => ?_
    rcases ScopeTree.binds_declaredAll hid with hid | hid
    · obtain ⟨entry, he, rfl⟩ := List.mem_map.1 hid
      exact h.fields (List.of_mem_zip he).2
    · exact h.bound (ScopeTree.binds_enter hid)
  | openMethod m => exact h.withScopes fun id hid => h.bound (ScopeTree.binds_enter hid)
  | openBlock => exact h.withScopes fun id hid => h.bound (ScopeTree.binds_enter hid)
  | leave => exact h.withScopes fun id hid => h.bound (ScopeTree.binds_leave hid)
  | visit e => exact h.visit e
  | declare kind v =>
    obtain ⟨problems, hs⟩ := exists_declare voc r kind v
    have hnew := symbol?_addSymbol_next r v.name kind (voc.types.qualify v.type) v.site
    have hadded := h.addSymbol v.name kind (voc.types.qualify v.type) v.site
    rw [hs]
    refine hadded.withScopes fun id hid => ?_
    rcases ScopeTree.binds_declared hid with rfl | hid
    · exact ⟨_, hnew, hvalue kind v rfl⟩
    · exact hadded.bound hid

theorem Grounded.run (h : r.Grounded) {steps : List Step} (hvalue : ∀ s ∈ steps, s.DeclaresValue) :
    (run voc r steps).Grounded :=
  List.foldlRecOn steps (Resolver.step voc) h fun _ hr s hs => hr.step (hvalue s hs)

end Resolver

/-! ## The expressions of a unit -/

/-- The expressions of a method, at any depth: those in the initial values of its parameters, and
those in its body. -/
def MethodDecl.expressions (m : MethodDecl) : List Expr :=
  (m.params.flatMap (·.init.toList)).flatMap Expr.postorder ++
    m.body.toList.flatMap fun body => expressionsOf body ++ caughtExpressionsOf body

/-- The expressions of a class outside of its member classes, at any depth. -/
def ClassDecl.expressions (c : ClassDecl) : List Expr :=
  (c.fields.flatMap (·.init.toList)).flatMap Expr.postorder ++
    c.methods.flatMap MethodDecl.expressions

/-- The expressions of a unit, at any depth. -/
def CompilationUnit.expressions (u : CompilationUnit) : List Expr :=
  u.allClasses.flatMap ClassDecl.expressions

theorem Action.map_id_visits_sublist (a : Action) : (a.visits.map Expr.id).Sublist a.ids := by
  cases a with
  | evaluate e =>
    rw [ids_evaluate]
    exact .refl _
  | declare origin v =>
    rw [ids_declare, visits_declare, List.map_flatMap]
    exact List.sublist_append_left _ _
  | enter => exact .slnil
  | leave => exact .slnil

theorem subperm_flatMap {α β : Type} {f g : α → List β} {as : List α}
    (h : ∀ a ∈ as, (f a).Subperm (g a)) : (as.flatMap f).Subperm (as.flatMap g) := by
  induction as with
  | nil => exact .refl _
  | cons a rest ih =>
    obtain ⟨ha, hrest⟩ := List.forall_mem_cons.1 h
    exact ha.append (ih hrest)

/-- The expressions in initial values have their numbers among those of the variables. -/
theorem VarDecl.map_id_inits_subperm (vs : List VarDecl) :
    (((vs.flatMap (·.init.toList)).flatMap Expr.postorder).map Expr.id).Subperm
      (vs.flatMap VarDecl.nodeIds) := by
  rw [List.flatMap_assoc, List.map_flatMap]
  refine subperm_flatMap fun v _ => List.Sublist.subperm ?_
  rw [List.map_flatMap]
  exact List.sublist_append_left _ _

theorem MethodDecl.map_id_expressions_subperm (m : MethodDecl) :
    (m.expressions.map Expr.id).Subperm m.nodeIds := by
  rw [expressions, List.map_append]
  refine .trans (.append (VarDecl.map_id_inits_subperm m.params) ?_)
    (List.sublist_cons_self m.id _).subperm
  rw [List.map_flatMap]
  refine subperm_flatMap fun body _ => ?_
  refine ((visits_perm_expressionsOf body).map Expr.id).symm.subperm.trans (List.Sublist.subperm ?_)
  rw [List.map_flatMap]
  refine .trans ?_ (Stmt.sublist_nodeIdsOf body)
  exact .flatMap_right _ fun a _ => a.map_id_visits_sublist

theorem ClassDecl.map_id_expressions_subperm (c : ClassDecl) :
    (c.expressions.map Expr.id).Subperm c.nodeIds := by
  rw [expressions, List.map_append]
  refine .trans (.append (VarDecl.map_id_inits_subperm c.fields) ?_)
    (List.sublist_cons_self c.id _).subperm
  rw [List.map_flatMap]
  exact subperm_flatMap fun m _ => m.map_id_expressions_subperm

theorem MethodDecl.mem_expressions_of_visit {m : MethodDecl} {e : Expr}
    (h : .visit e ∈ m.steps) : e ∈ m.expressions := by
  unfold steps at h
  cases hb : m.body with
  | none =>
    rw [hb] at h
    cases h
  | some body =>
    simp only [hb, List.cons_append, List.mem_cons, List.mem_append, List.mem_map, List.mem_flatMap,
      Action.visit_mem_steps, reduceCtorEq, and_false, exists_false, List.not_mem_nil, or_false,
      false_or] at h
    refine List.mem_append_right _ (List.mem_flatMap.2 ⟨body, by simp [hb], ?_⟩)
    exact (visits_perm_expressionsOf body).mem_iff.1 (List.mem_flatMap.2 h)

namespace CompilationUnit

variable {u : CompilationUnit}

/-- Expressions of a unit that have the same number are the same. -/
theorem eq_of_mem_expressions (distinct : u.nodeIds.Nodup) {e e' : Expr} (he : e ∈ u.expressions)
    (he' : e' ∈ u.expressions) (hid : e.id = e'.id) : e = e' := by
  have hsub : (u.expressions.map Expr.id).Subperm u.nodeIds := by
    rw [expressions, List.map_flatMap]
    exact subperm_flatMap fun c _ => c.map_id_expressions_subperm
  obtain ⟨ids, hperm, hids⟩ := hsub
  exact List.inj_on_of_nodup_map (hperm.nodup_iff.1 (distinct.sublist hids)) he he' hid

theorem mem_expressions_of_visit {e : Expr} (h : .visit e ∈ ClassDecl.stepsOf u.classes) :
    e ∈ u.expressions := by
  rcases ClassDecl.mem_stepsOf u.classes h with h | ⟨c, hc, h | h⟩
  · cases h
  · cases h
  · refine List.mem_flatMap.2 ⟨c, hc, ?_⟩
    rcases List.mem_append.1 h with h | h
    · obtain ⟨value, hvalue, he⟩ := List.mem_flatMap.1 h
      obtain ⟨x, hx, hxe⟩ := List.mem_map.1 he
      cases hxe
      exact List.mem_append_left _ (List.mem_flatMap.2 ⟨value, hvalue, hx⟩)
    · obtain ⟨m, hm, he⟩ := List.mem_flatMap.1 h
      exact List.mem_append_right _ (List.mem_flatMap.2 ⟨m, hm, m.mem_expressions_of_visit he⟩)

end CompilationUnit

/-! ## Names -/

namespace Env

variable {env : Env} {steps : List Step} {use : Use}

theorem name_of_lookup? {name : String} {v : VarDecl} (h : env.lookup? name = some v) :
    v.name = name := by
  obtain ⟨scope, -, hv⟩ := List.exists_of_findSome?_eq_some h
  simpa using List.find?_some hv

/-- An identifier is met by visiting it, and what it means has its name. -/
theorem visit_of_mem_usesAlong (h : use ∈ env.usesAlong steps) :
    .visit (.ident use.site use.name) ∈ steps ∧ ∀ v, use.target = some v → v.name = use.name := by
  induction steps generalizing env with
  | nil => cases h
  | cons s rest ih =>
    rw [usesAlong, List.mem_append] at h
    rcases h with h | h
    · obtain ⟨rfl, htarget⟩ := useAt?_eq_some (Option.mem_toList.1 h)
      exact ⟨List.mem_cons_self, fun v hv => name_of_lookup? (htarget.symm.trans hv)⟩
    · exact (ih h).imp_left (List.mem_cons_of_mem s)

end Env

namespace Resolver

variable {r : Resolver} {voc : Vocabulary} {steps : List Step}

theorem keeps_run (voc : Vocabulary) (r : Resolver) (steps : List Step) :
    r.Keeps (run voc r steps).toModel := by
  have hframe := frame_run voc r steps
  constructor
  case symbols =>
    intro id s hs
    refine (hframe.symbols id (Nat.lt_of_not_le fun hle => ?_)).trans hs
    cases (SymbolTable.get?_eq_none hle).symm.trans hs
  case methods =>
    intro id d hd
    rw [Model.method?, hframe.methods]
    exact ⟨d, hd⟩

theorem exists_of_mem_named {name : String} {ids : List SymbolId} {id : SymbolId}
    (h : id ∈ r.named name ids) : ∃ s, r.symbol? id = some s ∧ s.name = name := by
  obtain ⟨-, hname⟩ := List.mem_filter.1 h
  obtain ⟨s, hs, hn⟩ := (Option.any_eq_true _ _).1 hname
  exact ⟨s, hs, by simpa using hn⟩

theorem visit_of_record? {s : Step} {e : Expr} {target : CallTarget}
    (h : record? voc r s = some (e, target)) : s = .visit e := by
  cases s with
  | visit e' =>
    cases e' <;> cases h
    rfl
  | _ => cases h

/-- What is written for a call is a method of the name that the call has. -/
theorem name_of_mem_recorded {site : Site} {receiver : Option Expr} {method : String}
    {args : List Expr} {target : CallTarget} {callee : SymbolId}
    (h : (.call site receiver method args, target) ∈ recorded voc r steps)
    (hc : target.callee = some callee) :
    ∃ s, (run voc r steps).symbol? callee = some s ∧ s.name = method := by
  induction steps generalizing r with
  | nil => cases h
  | cons s rest ih =>
    rw [recorded, List.mem_append] at h
    rcases h with h | h
    · obtain rfl := visit_of_record? (Option.mem_toList.1 h)
      cases Option.mem_toList.1 h
      obtain ⟨⟨c, hm⟩, -⟩ := callsNamed_callTarget voc r receiver method args.length site.span
        callee hc
      obtain ⟨symbol, hs, hn⟩ := exists_of_mem_named hm
      exact ⟨symbol, (keeps_run voc r _).symbols hs, hn⟩
    · exact ih h

theorem mem_of_get?_writeCalls {calls : Table NodeId CallTarget}
    {written : List (Expr × CallTarget)} {i : NodeId} {target : CallTarget}
    (h : (writeCalls calls written).get? i = some target) :
    calls.get? i = some target ∨ ∃ e, (e, target) ∈ written ∧ e.id = i := by
  induction written generalizing calls with
  | nil => exact .inl h
  | cons entry rest ih =>
    rcases ih h with h | ⟨e, he, hi⟩
    · rw [Table.get?_insert] at h
      split at h
      · cases h
        exact .inr ⟨entry.1, List.mem_cons_self, by simp_all⟩
      · exact .inl h
    · exact .inr ⟨e, List.mem_cons_of_mem _ he, hi⟩

end Resolver

/-! ## A whole unit -/

section Unit

variable {u : CompilationUnit} {order : ClassOrder} {signatures : Signatures}

theorem declaresValue_of_mem_stepsOf {s : Step} (h : s ∈ ClassDecl.stepsOf u.classes) :
    s.DeclaresValue := by
  rintro kind v rfl
  obtain ⟨c, -, m, -, hm⟩ := ClassDecl.declare_mem_stepsOf h
  obtain ⟨body, -, ⟨rfl, -⟩ | ⟨origin, rfl, -⟩⟩ := MethodDecl.declare_mem_steps hm
  · rfl
  · rfl

theorem grounded_announced (order : ClassOrder) (u : CompilationUnit) (signatures : Signatures) :
    (u.announced order signatures).Grounded :=
  List.foldlRecOn u.allClasses _ Resolver.grounded_empty fun _ hr c _ => hr.declareClass c

/-- The tables of a unit are coherent, however its nodes are numbered. -/
theorem coherent_resolve (order : ClassOrder) (u : CompilationUnit) (signatures : Signatures) :
    (resolve order u signatures).model.Coherent := by
  rw [resolve_model]
  have hannounced := grounded_announced order u signatures
  exact (hannounced.run fun s hs => declaresValue_of_mem_stepsOf hs).model

/-! ## Distinct numbers -/

/-- The entries are about what stands at their nodes: declarations and symbols belong to each other
one to one, what an identifier refers to has its name, and so has the method that a call calls. -/
structure Model.Exact (m : Model) (u : CompilationUnit) : Prop where
  declarations : ∀ {i id}, m.declaration? i = some id ↔ ∃ s, m.symbol? id = some s ∧ s.decl = i
  identifiers : ∀ {site name id}, .ident site name ∈ u.expressions →
    m.reference? site.id = some id → ∃ s, m.symbol? id = some s ∧ s.name = name
  calls : ∀ {site receiver method args target callee},
    .call site receiver method args ∈ u.expressions → m.callTarget? site.id = some target →
    target.callee = some callee → ∃ s, m.symbol? callee = some s ∧ s.name = method

theorem visit_of_reference? {i : NodeId} {id : SymbolId}
    (h : (resolve order u signatures).model.reference? i = some id) :
    ∃ e, .visit e ∈ ClassDecl.stepsOf u.classes ∧ e.id = i := by
  rw [resolve_model] at h
  by_contra hnone
  have hi : i ∉ (ClassDecl.stepsOf u.classes).filterMap Step.visited? := by
    intro hmem
    obtain ⟨s, hs, hv⟩ := List.mem_filterMap.1 hmem
    cases s with
    | visit e => exact hnone ⟨e, hs, Option.some.inj hv⟩
    | _ => cases hv
  have hempty := (u.announced_announced order signatures).references
  rw [Resolver.reference?_run_of_not_mem _ _ hi, Model.reference?, hempty] at h
  cases h

/-- What an identifier refers to has its name. -/
theorem name_of_reference? (distinct : u.nodeIds.Nodup) {site : Site} {name : String}
    {id : SymbolId} (he : .ident site name ∈ u.expressions)
    (h : (resolve order u signatures).model.reference? site.id = some id) :
    ∃ s, (resolve order u signatures).model.symbol? id = some s ∧ s.name = name := by
  -- The node was visited, so it is one of the uses by the rules of scope.
  obtain ⟨e, hvisit, hid⟩ := visit_of_reference? h
  cases CompilationUnit.eq_of_mem_expressions distinct
    (CompilationUnit.mem_expressions_of_visit hvisit) he hid
  obtain ⟨use, hu, rfl⟩ := @Env.exists_use_of_visit [] _ _ _ hvisit
  obtain ⟨huse, hnames⟩ := Env.visit_of_mem_usesAlong hu
  cases CompilationUnit.eq_of_mem_expressions distinct
    (CompilationUnit.mem_expressions_of_visit huse) he rfl
  have hrel : Option.Rel (resolve order u signatures).model.Introduces use.target
      ((resolve order u signatures).model.reference? use.site.id) :=
    rel_introduces_of_mem_uses distinct (u.usesAlong_steps ▸ hu)
  rw [h] at hrel
  cases htarget : use.target with
  | none =>
    rw [htarget] at hrel
    cases hrel
  | some v =>
    rw [htarget] at hrel
    cases hrel with
    | some hv =>
      obtain ⟨kind, type, hs⟩ := hv.symbol
      exact ⟨_, hs, hnames v htarget⟩

/-- What a call calls has the name that the call has. -/
theorem name_of_callee (distinct : u.nodeIds.Nodup) {site : Site} {receiver : Option Expr}
    {method : String} {args : List Expr} {target : CallTarget} {callee : SymbolId}
    (he : .call site receiver method args ∈ u.expressions)
    (ht : (resolve order u signatures).model.callTarget? site.id = some target)
    (hc : target.callee = some callee) :
    ∃ s, (resolve order u signatures).model.symbol? callee = some s ∧ s.name = method := by
  rw [resolve_model] at ht ⊢
  rw [Model.callTarget?, Resolver.calls_run, (u.announced_announced order signatures).calls] at ht
  rcases Resolver.mem_of_get?_writeCalls ht with ht | ⟨e, hmem, hid⟩
  · cases ht
  · have hvisit : .visit e ∈ ClassDecl.stepsOf u.classes := by
      have hfst := List.mem_map_of_mem (f := Prod.fst) hmem
      rw [Resolver.map_fst_recorded] at hfst
      obtain ⟨s, hs, hse⟩ := List.mem_filterMap.1 (List.mem_of_mem_filter hfst)
      cases s with
      | visit e' =>
        cases hse
        exact hs
      | _ => cases hse
    cases CompilationUnit.eq_of_mem_expressions distinct
      (CompilationUnit.mem_expressions_of_visit hvisit) he hid
    exact Resolver.name_of_mem_recorded hmem hc

/-- With distinct numbers the tables of a unit are about what stands at the nodes. -/
theorem exact_resolve (distinct : u.nodeIds.Nodup) :
    (resolve order u signatures).model.Exact u where
  declarations := by
    intro i id
    constructor
    · exact (coherent_resolve order u signatures).declarations
    · rintro ⟨s, hs, rfl⟩
      exact faithful_resolve distinct id s hs
  identifiers := name_of_reference? distinct
  calls := name_of_callee distinct

end Unit

end HandleLint
