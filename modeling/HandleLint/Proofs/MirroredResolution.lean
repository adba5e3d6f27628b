import HandleLint.Proofs.ClassLookups
import HandleLint.Proofs.RelabelledWatches
import Mathlib.Logic.Function.Basic

/-!
# Resolving a unit whose nodes have other numbers

The way through a unit whose nodes have got other numbers, different ones for different nodes, goes
side by side with the way through the unit itself: after every step both know the same, each under
its own numbers (`Resolver.Mirrors`). Only the class of a name is found by going through a table, in
an order that other numbers may change; so no two classes may have the same name.

* `Table.Renamed`: the same table under other keys;
* `Resolver.Mirrors.step`, `Resolver.Mirrors.run`: the ways go side by side;
* `Resolver.Mirrors.sameClasses`: the class of a name;
* `mirrors_resolve`: what is known in the end.
-/

namespace HandleLint

open HandleLint.Resolver (Step)

/-! ## Tables -/

namespace Table

/-- The same table under other keys. -/
structure Renamed {κ α : Type} [Ord κ] [BEq κ] (f : κ → κ) (t t' : Table κ α) : Prop where
  get? : ∀ k, t'.get? (f k) = t.get? k
  keys : ∀ {k v}, t'.get? k = some v → ∃ i, f i = k

theorem renamed_empty {κ α : Type} [Ord κ] [BEq κ] (f : κ → κ) :
    Renamed f ({} : Table κ α) {} :=
  ⟨fun _ => rfl, nofun⟩

theorem Renamed.insert {κ α : Type} [BEq κ] [LawfulBEq κ] [Ord κ] [Std.TransOrd κ]
    [Std.LawfulEqOrd κ] {f : κ → κ} {t t' : Table κ α} (h : Renamed f t t')
    (hf : Function.Injective f) (k : κ) (v : α) :
    Renamed f (t.insert k v) (t'.insert (f k) v) where
  get? := by
    intro j
    have hkey : (f j == f k) = (j == k) := by
      rw [Bool.eq_iff_iff, beq_iff_eq, beq_iff_eq, hf.eq_iff]
    rw [get?_insert, get?_insert, hkey, h.get?]
  keys := by
    intro j w hj
    rw [get?_insert] at hj
    split at hj
    · rename_i hjk
      exact ⟨k, (eq_of_beq hjk).symm⟩
    · exact h.keys hj

end Table

/-! ## Symbols and scopes -/

section Scopes

variable (f : NodeId → NodeId)

def SymbolTable.renumber (t : SymbolTable) : SymbolTable :=
  ⟨t.symbols.map (Symbol.renumber f)⟩

theorem SymbolTable.next_renumber (t : SymbolTable) : (t.renumber f).next = t.next :=
  Array.size_map

theorem SymbolTable.get?_renumber (t : SymbolTable) (id : SymbolId) :
    (t.renumber f).get? id = (t.get? id).map (Symbol.renumber f) :=
  Array.getElem?_map

theorem SymbolTable.insert_renumber (t : SymbolTable) (name : String) (kind : SymbolKind)
    (type : Option String) (site : Site) :
    (t.renumber f).insert name (kind.renumber f) type (site.renumber f) =
      (t.insert name kind type site).renumber f := by
  rw [insert, next_renumber, insert, renumber, renumber, Array.map_push]
  rfl

def ScopeKind.renumber : ScopeKind → ScopeKind
  | .classBody c => .classBody (f c)
  | kind => kind

def Scope.renumber (s : Scope) : Scope :=
  { s with kind := s.kind.renumber f }

namespace ScopeTree

def renumber (t : ScopeTree) : ScopeTree :=
  t.mapScopes (Scope.renumber f) (fun _ => rfl) (fun _ => rfl)

theorem chain_renumber (t : ScopeTree) :
    (t.renumber f).chain = t.chain.map (Scope.renumber f) :=
  outwards_map (f := Scope.renumber f) (fun _ => rfl) (fun _ => rfl) t.scopes t.current

theorem enter_renumber (t : ScopeTree) (kind : ScopeKind) :
    (t.renumber f).enter (kind.renumber f) = (t.enter kind).renumber f := by
  have hnext : (t.renumber f).next = t.next := List.length_map _
  refine ScopeTree.ext ?_ (congrArg some hnext)
  show Scope.mk (t.renumber f).next t.current (kind.renumber f) {} :: _ = _
  rw [hnext]
  rfl

theorem leave_renumber (t : ScopeTree) : (t.renumber f).leave = t.leave.renumber f := by
  refine ScopeTree.ext rfl ?_
  show (t.renumber f).outer = t.outer
  unfold outer
  rw [chain_renumber]
  cases t.chain <;> rfl

theorem lookup?_renumber (t : ScopeTree) (name : String) :
    (t.renumber f).lookup? name = t.lookup? name := by
  rw [lookup?, binding?, chain_renumber, List.findSome?_map, lookup?, binding?]
  rfl

theorem enclosingClasses_renumber (t : ScopeTree) :
    (t.renumber f).enclosingClasses = t.enclosingClasses.map f := by
  rw [enclosingClasses_eq, enclosingClasses_eq, chain_renumber, List.filterMap_map,
    List.map_filterMap]
  refine List.filterMap_congr fun s _ => ?_
  show (s.kind.renumber f).class? = s.kind.class?.map f
  cases s.kind <;> rfl

theorem bindIn_renumber (t : ScopeTree) (id : ScopeId) (name : String) (b : Binding) :
    (t.renumber f).bindIn id name b = (t.bindIn id name b).renumber f := by
  refine ScopeTree.ext ?_ rfl
  show (t.scopes.map _).map _ = (t.scopes.map _).map _
  rw [List.map_map, List.map_map]
  refine List.map_congr_left fun s _ => ?_
  show (if s.id = id then _ else _) = Scope.renumber f (if s.id = id then _ else _)
  split <;> rfl

theorem declared_renumber (t : ScopeTree) (name : String) (b : Binding) :
    (t.renumber f).declared name b = (t.declared name b).renumber f := by
  unfold declared define
  rw [chain_renumber]
  cases t.chain with
  | nil => rfl
  | cons s outer =>
    simp only [List.map_cons]
    rw [show (s.renumber f).bindings = s.bindings from rfl]
    cases s.bindings.get? name with
    | some bound => rfl
    | none => exact bindIn_renumber f t s.id name b

theorem declaredAll_renumber (t : ScopeTree) (vs : List VarDecl) (ids : List SymbolId) :
    (t.renumber f).declaredAll ((vs.map (VarDecl.relabel { node := f })).zip ids) =
      (t.declaredAll (vs.zip ids)).renumber f := by
  unfold declaredAll
  induction vs generalizing t ids with
  | nil => rfl
  | cons v rest ih =>
    cases ids with
    | nil => rfl
    | cons id ids =>
      simp only [List.map_cons, List.zip_cons_cons, List.foldl_cons]
      rw [← ih, ← declared_renumber]
      rfl

end ScopeTree

end Scopes

/-! ## Side by side -/

namespace Resolver

variable {f : NodeId → NodeId} {r r' : Resolver} {voc : Vocabulary}

/-- Both resolvers know the same, the second under other numbers for the nodes. -/
structure Mirrors (f : NodeId → NodeId) (r r' : Resolver) : Prop where
  symbols : r'.symbols = r.symbols.renumber f
  references : r.references.Renamed f r'.references
  declarations : r.declarations.Renamed f r'.declarations
  calls : r.calls.Renamed f r'.calls
  methods : r'.methods = r.methods.mapValues (MethodDecl.relabel { node := f })
  members : r.members.Renamed f r'.members
  scopes : r'.scopes = r.scopes.renumber f

/-- The class of a name is the same, under its other number. -/
def SameClasses (f : NodeId → NodeId) (r r' : Resolver) : Prop :=
  ∀ voc name, classNamed? voc r' name = (classNamed? voc r name).map f

namespace Mirrors

theorem empty (f : NodeId → NodeId) : Mirrors f {} {} where
  symbols := congrArg SymbolTable.mk Array.map_empty.symm
  references := Table.renamed_empty f
  declarations := Table.renamed_empty f
  calls := Table.renamed_empty f
  methods := rfl
  members := Table.renamed_empty f
  scopes := rfl

theorem model (h : Mirrors f r r') : r.toModel.Relabels { node := f } r'.toModel where
  symbols := by
    intro id s hs
    rw [Model.symbol?, h.symbols, SymbolTable.get?_renumber, ← Model.symbol?, hs]
    rfl
  references := h.references.get?
  declarations := h.declarations.get?
  calls := h.calls.get?
  methods := h.methods

/-! ### What is looked up -/

theorem next (h : Mirrors f r r') : r'.symbols.next = r.symbols.next := by
  rw [h.symbols, SymbolTable.next_renumber]

theorem symbol? (h : Mirrors f r r') (id : SymbolId) :
    r'.symbol? id = (r.symbol? id).map (Symbol.renumber f) := by
  rw [Model.symbol?, h.symbols, SymbolTable.get?_renumber]
  rfl

theorem typeOf? (h : Mirrors f r r') (id : SymbolId) : r'.typeOf? id = r.typeOf? id := by
  rw [Model.typeOf?, h.symbol?, Model.typeOf?]
  cases r.symbol? id <;> rfl

theorem classMembers (h : Mirrors f r r') (c : NodeId) :
    r'.classMembers (f c) = r.classMembers c := by
  rw [Resolver.classMembers, h.members.get?, Resolver.classMembers]

theorem lookup? (h : Mirrors f r r') (name : String) :
    r'.scopes.lookup? name = r.scopes.lookup? name := by
  rw [h.scopes, ScopeTree.lookup?_renumber]

theorem enclosingClasses (h : Mirrors f r r') :
    r'.scopes.enclosingClasses = r.scopes.enclosingClasses.map f := by
  rw [h.scopes, ScopeTree.enclosingClasses_renumber]

/-- A method is found by its class as well, so different classes must keep different numbers. -/
theorem likens (h : Mirrors f r r') (hf : Function.Injective f) (hc : SameClasses f r r') :
    Likens f Eq r r' where
  types := by
    rintro id _ rfl
    exact h.typeOf? id
  around := h.enclosingClasses
  classNamed? := hc
  members := h.classMembers
  shared := fun _ => rfl
  names := by
    intro c id _ name
    rw [h.symbol?, Option.any_map]
    rfl
  kinds := by
    intro c id _ arity
    have hkind : ∀ s : Symbol, (s.renumber f).kind = .method (f c) arity ↔
        s.kind = .method c arity := by
      intro s
      show s.kind.renumber f = _ ↔ _
      cases s.kind <;> simp [SymbolKind.renumber, hf.eq_iff]
    rw [h.symbol?, Option.any_map]
    simp only [hkind]

theorem callTarget (h : Mirrors f r r') (hf : Function.Injective f) (hc : SameClasses f r r')
    (voc : Vocabulary) (receiver : Option Expr) (method : String) (arity : Nat) (span : Span) :
    (Resolver.callTarget voc r' (receiver.map (Expr.relabel { node := f })) method arity span).1 =
      (Resolver.callTarget voc r receiver method arity span).1 := by
  have halike : ∀ e, AlikeOn { node := f } Eq r r' e := fun e =>
    alikeOn_of_eq (fun x _ => h.references.get? x.id) (fun x _ => h.calls.get? x.id)
      fun _ _ _ _ => rfl
  exact Likens.callTarget (ρ := { node := f }) (h.likens hf hc) voc (fun e _ => halike e) method
    arity span

/-! ### What is written -/

theorem reported (h : Mirrors f r r') (problems problems' : Array Problem)
    (notes notes' : Array Note) :
    Mirrors f { r with problems, notes } { r' with problems := problems', notes := notes' } :=
  ⟨h.symbols, h.references, h.declarations, h.calls, h.methods, h.members, h.scopes⟩

theorem withScopes (h : Mirrors f r r') (t : ScopeTree) (problems problems' : Array Problem) :
    Mirrors f { r with scopes := t, problems }
      { r' with scopes := t.renumber f, problems := problems' } :=
  ⟨h.symbols, h.references, h.declarations, h.calls, h.methods, h.members, rfl⟩

theorem refer (h : Mirrors f r r') (hf : Function.Injective f) (i : NodeId) (id : SymbolId) :
    Mirrors f (r.refer i id) (r'.refer (f i) id) :=
  ⟨h.symbols, h.references.insert hf i id, h.declarations, h.calls, h.methods, h.members,
    h.scopes⟩

theorem addSymbol (h : Mirrors f r r') (hf : Function.Injective f) (name : String)
    (kind : SymbolKind) (type : Option String) (site : Site) :
    Mirrors f (r.addSymbol name kind type site)
      (r'.addSymbol name (kind.renumber f) type (site.renumber f)) where
  symbols := by
    show r'.symbols.insert _ _ _ _ = _
    rw [h.symbols, SymbolTable.insert_renumber]
    rfl
  references := h.references
  declarations := by
    show Table.Renamed f _ (r'.declarations.insert _ r'.symbols.next)
    rw [h.next]
    exact h.declarations.insert hf site.id r.symbols.next
  calls := h.calls
  methods := h.methods
  members := h.members
  scopes := h.scopes

theorem withMembers (h : Mirrors f r r') (hf : Function.Injective f) (c : NodeId)
    {members members' : ClassMembers} (hsame : members' = members) :
    Mirrors f { r with members := r.members.insert c members }
      { r' with members := r'.members.insert (f c) members' } := by
  rw [hsame]
  exact ⟨h.symbols, h.references, h.declarations, h.calls, h.methods, h.members.insert hf c members,
    h.scopes⟩

/-! ### Steps -/

theorem visit (h : Mirrors f r r') (hf : Function.Injective f) (hc : SameClasses f r r')
    (e : Expr) :
    Mirrors f (Resolver.visit voc r e) (Resolver.visit voc r' (e.relabel { node := f })) := by
  cases e with
  | ident s name =>
    simp only [Expr.relabel, Resolver.visit, h.lookup?]
    cases r.scopes.lookup? name with
    | some id => exact h.refer hf s.id id
    | none =>
      simp only
      split
      · exact h.reported _ _ _ _
      · exact h
  | field s object name =>
    simp only [Expr.relabel, Resolver.visit, (h.likens hf hc).ownField?, Expr.isThis_relabel]
    split
    · exact h.refer hf s.id _
    · exact h
  | call s receiver method args =>
    rw [Expr.relabel_call]
    simp only [Resolver.visit, List.length_map]
    have htarget := h.callTarget hf hc voc receiver method args.length s.span
    obtain ⟨problems, notes, hleft⟩ := exists_callTarget voc r receiver method args.length s.span
    obtain ⟨problems', notes', hright⟩ :=
      exists_callTarget voc r' (receiver.map (Expr.relabel { node := f })) method args.length s.span
    rw [hleft, show (s.renumber f).span = s.span from rfl, hright, htarget]
    exact ⟨h.symbols, h.references, h.declarations, h.calls.insert hf s.id _, h.methods, h.members,
      h.scopes⟩
  | _ => exact h

theorem enter (h : Mirrors f r r') (kind : ScopeKind) :
    Mirrors f (r.enter kind) (r'.enter (kind.renumber f)) := by
  have hscopes : r'.scopes.enter (kind.renumber f) = (r.scopes.enter kind).renumber f := by
    rw [h.scopes, ScopeTree.enter_renumber]
  rw [Resolver.enter, Resolver.enter, hscopes]
  exact h.withScopes _ _ _

theorem leave (h : Mirrors f r r') : Mirrors f r.leave r'.leave := by
  have hscopes : r'.scopes.leave = r.scopes.leave.renumber f := by
    rw [h.scopes, ScopeTree.leave_renumber]
  rw [Resolver.leave, Resolver.leave, hscopes]
  exact h.withScopes _ _ _

theorem step (h : Mirrors f r r') (hf : Function.Injective f) (hc : SameClasses f r r')
    (s : Step) :
    Mirrors f (Resolver.step voc r s) (Resolver.step voc r' (s.relabel { node := f })) := by
  cases s with
  | openClass c =>
    let c' := c.relabel { node := f }
    obtain ⟨problems, hleft⟩ := exists_openClass voc r c
    obtain ⟨problems', hright⟩ := exists_openClass voc r' c'
    have hscopes : (r'.scopes.enter (.classBody c'.id)).declaredAll
        (c'.fields.zip (r'.classMembers c'.id).fields) =
        ((r.scopes.enter (.classBody c.id)).declaredAll
          (c.fields.zip (r.classMembers c.id).fields)).renumber f := by
      rw [c.id_relabel, c.fields_relabel, h.classMembers, h.scopes,
        ← ScopeTree.declaredAll_renumber, ← ScopeTree.enter_renumber]
      rfl
    rw [Step.relabel, hleft, hright, hscopes]
    exact h.withScopes _ _ _
  | openMethod m =>
    have hdecl : r'.declaration? (m.relabel { node := f }).id = r.declaration? m.id :=
      h.declarations.get? m.id
    simp only [Step.relabel, Resolver.step, hdecl]
    exact h.enter (.methodBody _)
  | openBlock => exact h.enter .block
  | leave => exact h.leave
  | visit e => exact h.visit hf hc e
  | declare kind v =>
    let v' := v.relabel { node := f }
    obtain ⟨problems, hleft⟩ := exists_declare voc r kind v
    obtain ⟨problems', hright⟩ := exists_declare voc r' (kind.renumber f) v'
    have hscopes : r'.scopes.declared v'.name ⟨r'.symbols.next, v'.span⟩ =
        (r.scopes.declared v.name ⟨r.symbols.next, v.span⟩).renumber f := by
      rw [h.next, h.scopes, ← ScopeTree.declared_renumber]
      rfl
    rw [Step.relabel, hleft, hright, hscopes]
    exact (h.addSymbol hf v.name kind (voc.types.qualify v.type) v.site).withScopes _ _ _

end Mirrors

theorem classNamed?_step (voc' : Vocabulary) (s : Step) (name : String) :
    classNamed? voc' (step voc r s) name = classNamed? voc' r name := by
  rw [classNamed?, step_members, classNamed?]

/-- Both ways go side by side. -/
theorem Mirrors.run (h : Mirrors f r r') (hf : Function.Injective f)
    (hc : SameClasses f r r') (steps : List Step) :
    Mirrors f (run voc r steps) (run voc r' (steps.map (Step.relabel { node := f }))) := by
  induction steps generalizing r r' with
  | nil => exact h
  | cons s rest ih =>
    rw [List.map_cons, run_cons, run_cons]
    refine ih (h.step hf hc s) fun voc' name => ?_
    rw [classNamed?_step, classNamed?_step, hc]

/-! ## Before bodies -/

namespace Mirrors

/-- Members that are declared one after the other. -/
theorem foldl {α : Type} {g g' : Resolver → α → Resolver} {renumber : α → α}
    (hg : ∀ r r' a, Mirrors f r r' → Mirrors f (g r a) (g' r' (renumber a)))
    (h : Mirrors f r r') (as : List α) :
    Mirrors f (as.foldl g r) ((as.map renumber).foldl g' r') := by
  induction as generalizing r r' with
  | nil => exact h
  | cons a rest ih => exact ih (hg r r' a h)

theorem declareMethod (h : Mirrors f r r') (hf : Function.Injective f) (owner : NodeId)
    (m : MethodDecl) :
    Mirrors f (declareMethod voc owner r m)
      (declareMethod voc (f owner) r' (m.relabel { node := f })) := by
  have hadded := h.addSymbol hf m.name (.method owner m.params.length) (returnType? voc m) m.site
  have harity : (m.relabel { node := f }).params.length = m.params.length := List.length_map _
  simp only [Resolver.declareMethod, harity]
  refine ⟨hadded.symbols, hadded.references, hadded.declarations, hadded.calls, ?_, hadded.members,
    hadded.scopes⟩
  show r'.methods.insert r'.symbols.next (m.relabel { node := f }) = _
  rw [h.methods, h.next, Table.insert_mapValues]
  rfl

theorem declareClass (h : Mirrors f r r') (hf : Function.Injective f) (c : ClassDecl) :
    Mirrors f (declareClass voc r c) (declareClass voc r' (c.relabel { node := f })) := by
  obtain ⟨site, name, fields, methods, nested⟩ := c
  have hfield : ∀ r r' v, Mirrors f r r' → Mirrors f (declareField voc site.id r v)
      (declareField voc (f site.id) r' (v.relabel { node := f })) := fun _ _ v hr =>
    hr.addSymbol hf v.name (.field site.id) (voc.types.qualify v.type) v.site
  have hmethod : ∀ r r' m, Mirrors f r r' → Mirrors f (Resolver.declareMethod voc site.id r m)
      (Resolver.declareMethod voc (f site.id) r' (m.relabel { node := f })) := fun _ _ m hr =>
    hr.declareMethod hf site.id m
  have hstart := h.addSymbol hf name .type (voc.types.lookup? name) site
  have hfields := foldl hfield hstart fields
  have hmethods := foldl hmethod hfields methods
  refine hmethods.withMembers hf site.id ?_
  -- The members have the same numbers, since as many symbols came before them.
  rw [ClassMembers.mk.injEq]
  exact ⟨rfl, congrArg₂ consecutive hstart.next (List.length_map _),
    congrArg₂ consecutive hfields.next (List.length_map _)⟩

end Mirrors

/-! ## Classes by their names -/

theorem Mirrors.sameClasses (h : Mirrors f r r') (hnames : r.NamesApart) :
    SameClasses f r r' := by
  have hback : ∀ {k m}, r'.members.get? k = some m → ∃ c, f c = k ∧ r.members.get? c = some m := by
    intro k m hk
    obtain ⟨c, rfl⟩ := h.members.keys hk
    exact ⟨c, rfl, h.members.get? c ▸ hk⟩
  have hnames' : r'.NamesApart := by
    intro a b m m' ha hb hname
    obtain ⟨c, rfl, hc⟩ := hback ha
    obtain ⟨d, rfl, hd⟩ := hback hb
    rw [hnames c d m m' hc hd hname]
  -- The two tables may list the classes in different orders, but only one class has the name.
  intro voc name
  ext k
  rw [classNamed?_eq_some_iff hnames', Option.map_eq_some_iff]
  constructor
  · rintro ⟨m, hm, hname⟩
    obtain ⟨c, rfl, hc⟩ := hback hm
    exact ⟨c, (classNamed?_eq_some_iff hnames).2 ⟨m, hc, hname⟩, rfl⟩
  · rintro ⟨c, hc, rfl⟩
    obtain ⟨m, hm, hname⟩ := (classNamed?_eq_some_iff hnames).1 hc
    exact ⟨m, (h.members.get? c).trans hm, hname⟩

end Resolver

/-! ## The whole way -/

namespace CompilationUnit

variable {f : NodeId → NodeId} {u : CompilationUnit} {order : ClassOrder} {signatures : Signatures}

theorem mirrors_announced (hf : Function.Injective f) (order : ClassOrder) (u : CompilationUnit)
    (signatures : Signatures) :
    (u.announced order signatures).Mirrors f
      ((u.relabel { node := f }).announced order signatures) := by
  rw [announced, announced, vocabulary_relabel, allClasses_relabel]
  exact Resolver.Mirrors.foldl (fun _ _ c hr => hr.declareClass hf c) (.empty f) u.allClasses

end CompilationUnit

/-- Both units are resolved to the same, each under its own numbers. -/
theorem mirrors_resolve {f : NodeId → NodeId} (hf : Function.Injective f) (order : ClassOrder)
    {u : CompilationUnit} {signatures : Signatures} (names : u.ClassNamesDiffer signatures) :
    (resolve order u signatures).model.Relabels { node := f }
      (resolve order (u.relabel { node := f }) signatures).model := by
  have hannounced := u.mirrors_announced hf order signatures
  have hclasses := hannounced.sameClasses (CompilationUnit.namesApart_announced names)
  rw [resolve_model, resolve_model, CompilationUnit.vocabulary_relabel,
    show (u.relabel { node := f }).classes = ClassDecl.relabelAll { node := f } u.classes from rfl,
    ClassDecl.stepsOf_relabel]
  exact (hannounced.run hf hclasses _).model

end HandleLint
