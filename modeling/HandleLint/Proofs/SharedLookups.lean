import HandleLint.Proofs.RelabelledTrees
import Mathlib.Data.List.Find

/-!
# What two resolvers find alike

Members, the types of expressions and the targets of calls are looked up among the members of
classes, in the classes around, and in what is known of the nodes of an expression. Two resolvers
that agree on these, up to the numbers of nodes and of symbols, find the same.

* `Resolver.CallsNamed`: what a call can call, in one resolver;
* `Resolver.Likens`: both know the same classes with the same members;
* `Resolver.AlikeOn`: both know the same of the nodes of an expression;
* `Resolver.Likens.ownField?`, `Resolver.Likens.staticType?`, `Resolver.Likens.callTarget`: what
  they find.
-/

namespace HandleLint

namespace Resolver

variable {r r' : Resolver}

/-! ## What is found is a member -/

theorem mem_of_ownField? {name : String} {id : SymbolId} (h : r.ownField? name = some id) :
    ∃ c, id ∈ (r.classMembers c).fields := by
  obtain ⟨c, -, hid⟩ := Option.bind_eq_some_iff.1 h
  exact ⟨c, List.mem_of_mem_filter (List.mem_of_head? hid)⟩

theorem mem_of_findMethod? {c : NodeId} {name : String} {arity : Nat} {id : SymbolId}
    (h : r.findMethod? c name arity = some id) : id ∈ r.named name (r.classMembers c).methods := by
  simp only [findMethod?] at h
  split at h
  · cases h
    exact List.mem_of_find?_eq_some ‹_›
  · exact List.mem_of_head? h

/-- The target is a method of the unit that has the name, and what a call of it returns. -/
def CallsNamed (r : Resolver) (method : String) (target : CallTarget) : Prop :=
  ∀ callee, target.callee = some callee →
    (∃ c, callee ∈ r.named method (r.classMembers c).methods) ∧ target.returns = r.typeOf? callee

theorem callsNamed_ownTarget (r : Resolver) (method : String) (arity : Nat) (span : Span) :
    r.CallsNamed method (r.ownTarget method arity span).1 := by
  intro callee h
  unfold ownTarget at h ⊢
  cases hl : r.localMethod? method arity with
  | none =>
    rw [hl] at h
    cases h
  | some found =>
    obtain ⟨c, -, hc⟩ := List.exists_of_findSome?_eq_some hl
    obtain ⟨id, hid, rfl⟩ := Option.map_eq_some_iff.1 hc
    rw [hl] at h
    cases h
    exact ⟨⟨c, mem_of_findMethod? hid⟩, rfl⟩

theorem callsNamed_memberTarget (voc : Vocabulary) (r : Resolver) (owner method : String)
    (arity : Nat) : r.CallsNamed method (memberTarget voc r owner method arity).1 := by
  intro callee h
  unfold memberTarget at h ⊢
  cases hc : classNamed? voc r owner with
  | some c =>
    simp only [hc] at h ⊢
    rw [h]
    exact ⟨⟨c, mem_of_findMethod? h⟩, rfl⟩
  | none =>
    rw [hc] at h
    cases hs : voc.signatures.returns? owner method <;> simp [hs] at h

theorem callsNamed_callTarget (voc : Vocabulary) (r : Resolver) (receiver : Option Expr)
    (method : String) (arity : Nat) (span : Span) :
    r.CallsNamed method (callTarget voc r receiver method arity span).1 := by
  unfold callTarget
  split
  · exact callsNamed_ownTarget r method arity span
  · split
    · exact callsNamed_ownTarget r method arity span
    · split
      · exact nofun
      · exact callsNamed_memberTarget voc r _ method arity

/-! ## Classes and members -/

/-- Both resolvers know the same classes, under other numbers for their nodes, with the same
members, and the classes around are the same. Symbols that correspond have the same type. -/
structure Likens (node : NodeId → NodeId) (tied : SymbolId → SymbolId → Prop)
    (r r' : Resolver) : Prop where
  types : ∀ {id id'}, tied id id' → r'.typeOf? id' = r.typeOf? id
  around : r'.scopes.enclosingClasses = r.scopes.enclosingClasses.map node
  classNamed? : ∀ voc name, classNamed? voc r' name = (classNamed? voc r name).map node
  members : ∀ c, r'.classMembers (node c) = r.classMembers c
  shared : ∀ {c id}, id ∈ (r.classMembers c).fields ++ (r.classMembers c).methods → tied id id
  names : ∀ {c id}, id ∈ (r.classMembers c).fields ++ (r.classMembers c).methods → ∀ name,
    (r'.symbol? id).any (·.name = name) = (r.symbol? id).any (·.name = name)
  kinds : ∀ {c id}, id ∈ (r.classMembers c).methods → ∀ arity,
    (r'.symbol? id).any (·.kind = .method (node c) arity) =
      (r.symbol? id).any (·.kind = .method c arity)

namespace Likens

variable {node : NodeId → NodeId} {tied : SymbolId → SymbolId → Prop}

theorem ownField? (h : Likens node tied r r') (name : String) :
    r'.ownField? name = r.ownField? name := by
  unfold Resolver.ownField?
  rw [h.around, List.head?_map]
  cases r.scopes.enclosingClasses.head? with
  | none => rfl
  | some c =>
    have hnamed : r'.named name (r.classMembers c).fields =
        r.named name (r.classMembers c).fields :=
      List.filter_congr fun id hid => h.names (List.mem_append_left _ hid) name
    simp only [Option.map_some, Option.bind_eq_bind, Option.bind_some, h.members, hnamed]

/-- A method is found by its class as well as by its name. -/
theorem findMethod? (h : Likens node tied r r') (c : NodeId) (name : String) (arity : Nat) :
    r'.findMethod? (node c) name arity = r.findMethod? c name arity := by
  have hnamed : r'.named name (r.classMembers c).methods =
      r.named name (r.classMembers c).methods :=
    List.filter_congr fun id hid => h.names (List.mem_append_right _ hid) name
  have hfind : (r.named name (r.classMembers c).methods).find?
        (fun id => (r'.symbol? id).any (·.kind = .method (node c) arity)) =
      (r.named name (r.classMembers c).methods).find?
        (fun id => (r.symbol? id).any (·.kind = .method c arity)) :=
    List.find?_congr fun id hid => h.kinds (List.mem_of_mem_filter hid) arity
  simp only [Resolver.findMethod?, h.members, hnamed, hfind]

theorem typeOf?_method (h : Likens node tied r r') {c : NodeId} {name : String} {arity : Nat}
    {id : SymbolId} (hid : r.findMethod? c name arity = some id) :
    r'.typeOf? id = r.typeOf? id := by
  have hmem := List.mem_of_mem_filter (mem_of_findMethod? hid)
  exact h.types (h.shared (List.mem_append_right _ hmem))

theorem ownTarget (h : Likens node tied r r') (method : String) (arity : Nat) (span : Span) :
    (r'.ownTarget method arity span).1 = (r.ownTarget method arity span).1 := by
  have hlocal : r'.localMethod? method arity =
      (r.localMethod? method arity).map fun found => (node found.1, found.2) := by
    unfold localMethod?
    rw [h.around, List.findSome?_map, List.map_findSome?]
    congr 1
    funext c
    show (r'.findMethod? (node c) method arity).map _ =
      ((r.findMethod? c method arity).map _).map _
    rw [h.findMethod?, Option.map_map]
    rfl
  unfold Resolver.ownTarget
  rw [hlocal]
  cases hfound : r.localMethod? method arity with
  | none => rfl
  | some found =>
    obtain ⟨c, -, hc⟩ := List.exists_of_findSome?_eq_some hfound
    obtain ⟨id, hid, rfl⟩ := Option.map_eq_some_iff.1 hc
    simp only [Option.map_some, h.members, h.typeOf?_method hid]

theorem memberTarget (h : Likens node tied r r') (voc : Vocabulary) (owner method : String)
    (arity : Nat) :
    (Resolver.memberTarget voc r' owner method arity).1 =
      (Resolver.memberTarget voc r owner method arity).1 := by
  unfold Resolver.memberTarget
  rw [h.classNamed?]
  cases Resolver.classNamed? voc r owner with
  | none =>
    simp only [Option.map_none]
    cases voc.signatures.returns? owner method <;> rfl
  | some c =>
    simp only [Option.map_some, h.findMethod?]
    cases hm : r.findMethod? c method arity with
    | none => rfl
    | some id => simp only [Option.bind_some, h.typeOf?_method hm]

end Likens

/-! ## Expressions -/

/-- Both resolvers know the same of the nodes of an expression, the second one under other labels.
An identifier that refers to nothing keeps its name, which may be that of a type. -/
structure AlikeOn (ρ : Relabelling) (tied : SymbolId → SymbolId → Prop) (r r' : Resolver)
    (e : Expr) : Prop where
  references : ∀ {x}, e.Inside x →
    Option.Rel tied (r.reference? x.id) (r'.reference? (ρ.node x.id))
  calls : ∀ {x}, e.Inside x → r'.callTarget? (ρ.node x.id) = r.callTarget? x.id
  names : ∀ {site name}, e.Inside (.ident site name) → r.reference? site.id = none →
    ρ.ident site.id name = name

variable {ρ : Relabelling} {tied : SymbolId → SymbolId → Prop} {e : Expr}

theorem AlikeOn.part (h : AlikeOn ρ tied r r' e) {part : Expr} (hp : part ∈ e.parts) :
    AlikeOn ρ tied r r' part where
  references := fun hx => h.references (.head hp hx)
  calls := fun hx => h.calls (.head hp hx)
  names := fun hx => h.names (.head hp hx)

/-- Where symbols have the same numbers. -/
theorem alikeOn_of_eq
    (references : ∀ x, e.Inside x → r'.reference? (ρ.node x.id) = r.reference? x.id)
    (calls : ∀ x, e.Inside x → r'.callTarget? (ρ.node x.id) = r.callTarget? x.id)
    (names : ∀ site name, e.Inside (.ident site name) → r.reference? site.id = none →
      ρ.ident site.id name = name) : AlikeOn ρ Eq r r' e where
  references := by
    intro x hx
    rw [references x hx]
    cases r.reference? x.id with
    | none => exact .none
    | some id => exact .some rfl
  calls := fun {x} => calls x
  names := fun {site name} => names site name

theorem Likens.staticType? (h : Likens ρ.node tied r r') (voc : Vocabulary)
    (he : AlikeOn ρ tied r r' e) :
    Resolver.staticType? voc r' (e.relabel ρ) = Resolver.staticType? voc r e := by
  induction e using Expr.induction_parts with
  | step e ih =>
  cases e with
  | ident s name =>
    have href : Option.Rel tied (r.reference? s.id) (r'.reference? (ρ.node s.id)) :=
      he.references .refl
    have hname := he.names .refl
    simp only [Expr.relabel, Resolver.staticType?, Site.renumber]
    generalize r.reference? s.id = found, r'.reference? (ρ.node s.id) = found' at href hname
    cases href with
    | none => rw [hname rfl]
    | some hid => exact h.types hid
  | field s object name =>
    have href : Option.Rel tied (r.reference? s.id) (r'.reference? (ρ.node s.id)) :=
      he.references .refl
    simp only [Expr.relabel, Resolver.staticType?, Site.renumber]
    generalize r.reference? s.id = found, r'.reference? (ρ.node s.id) = found' at href
    cases href with
    | none => rfl
    | some hid => exact h.types hid
  | this s =>
    simp only [Expr.relabel, Resolver.staticType?, h.around, List.head?_map]
    cases r.scopes.enclosingClasses.head? with
    | none => rfl
    | some c => exact congrArg ClassMembers.name (h.members c)
  | call s receiver method args =>
    have hcall : r'.callTarget? (ρ.node s.id) = r.callTarget? s.id := he.calls .refl
    simp only [Expr.relabel_call, Resolver.staticType?, Site.renumber, hcall]
  | conditional s condition whenTrue whenFalse =>
    have hpart : whenTrue ∈ (Expr.conditional s condition whenTrue whenFalse).parts := by
      simp [Expr.parts]
    exact ih whenTrue hpart (he.part hpart)
  | assign s target value =>
    have hpart : target ∈ (Expr.assign s target value).parts := List.mem_cons_self
    exact ih target hpart (he.part hpart)
  | _ => rfl

theorem Likens.callTarget (h : Likens ρ.node tied r r') (voc : Vocabulary)
    {receiver : Option Expr} (hr : ∀ e ∈ receiver, AlikeOn ρ tied r r' e) (method : String)
    (arity : Nat) (span : Span) :
    (Resolver.callTarget voc r' (receiver.map (Expr.relabel ρ)) method arity span).1 =
      (Resolver.callTarget voc r receiver method arity span).1 := by
  unfold Resolver.callTarget
  cases receiver with
  | none => exact h.ownTarget method arity span
  | some e =>
    simp only [Option.map_some, Expr.isThis_relabel, h.staticType? voc (hr e rfl)]
    split
    · exact h.ownTarget method arity span
    · cases Resolver.staticType? voc r e with
      | none => rfl
      | some owner => exact h.memberTarget voc owner method arity

end Resolver

end HandleLint
