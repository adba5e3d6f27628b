import HandleLint.Proofs.NodeIds
import Mathlib.Data.List.Forall2

/-!
# The symbols of classes and members

Before any body is gone through, every class, field and method has its symbol. A part of that pass
only adds to the tables, and only under the numbers of the nodes it declares (`Announces`); so with
distinct numbers what one class adds is still there at the end.

* `Model.Introduces`: the symbol of the declaration of a variable or a field;
* `Resolver.announces_declareClasses`: what the pass leaves alone;
* `Resolver.knowsFields_declareClasses`: the fields known of a class are its own, in their order.
-/

namespace HandleLint

/-- The symbol of a declaration, which carries the name and the place of the declaration. -/
structure Model.Introduces (m : Model) (v : VarDecl) (id : SymbolId) : Prop where
  declaration : m.declaration? v.id = some id
  symbol : ∃ kind type, m.symbol? id = some { id, name := v.name, kind, type, site := v.site }

namespace Resolver

/-- From `r` to `r'`, the nodes with the numbers `ids` are declared, and nothing is taken back. -/
structure Announces (ids : List NodeId) (r r' : Resolver) : Prop where
  scopes : r'.scopes = r.scopes
  references : r'.references = r.references
  symbols : ∀ {id symbol}, r.symbol? id = some symbol → r'.symbol? id = some symbol
  others : ∀ {i}, i ∉ ids → r'.declaration? i = r.declaration? i
  declared : ∀ {i}, i ∈ ids ∨ (r.declaration? i).isSome → (r'.declaration? i).isSome

namespace Announces

variable {ids ids' : List NodeId} {r r' r'' : Resolver}

theorem refl (r : Resolver) : Announces [] r r where
  scopes := rfl
  references := rfl
  symbols := fun h => h
  others := fun _ => rfl
  declared := fun h => h.resolve_left List.not_mem_nil

theorem trans (h : Announces ids r r') (h' : Announces ids' r' r'') :
    Announces (ids ++ ids') r r'' where
  scopes := h'.scopes.trans h.scopes
  references := h'.references.trans h.references
  symbols := fun hs => h'.symbols (h.symbols hs)
  others := by
    intro i hi
    rw [List.mem_append, not_or] at hi
    rw [h'.others hi.2, h.others hi.1]
  declared := by
    intro i hi
    rw [List.mem_append] at hi
    rcases hi with (hi | hi) | hi
    · exact h'.declared (.inr (h.declared (.inl hi)))
    · exact h'.declared (.inl hi)
    · exact h'.declared (.inr (h.declared (.inr hi)))

/-- Announcements one after the other. -/
theorem foldl {α : Type} {f : Resolver → α → Resolver} {key : α → List NodeId}
    (h : ∀ r a, Announces (key a) r (f r a)) (r : Resolver) (as : List α) :
    Announces (as.flatMap key) r (as.foldl f r) := by
  induction as generalizing r with
  | nil => exact refl r
  | cons a rest ih => exact (h r a).trans (ih (f r a))

/-- A declaration keeps its symbol while others get theirs. -/
theorem introduces (h : Announces ids r r') {v : VarDecl} {id : SymbolId} (hv : v.id ∉ ids)
    (hi : r.Introduces v id) : r'.Introduces v id := by
  obtain ⟨kind, type, hs⟩ := hi.symbol
  exact ⟨(h.others hv).trans hi.declaration, kind, type, h.symbols hs⟩

end Announces

variable (voc : Vocabulary)

theorem announces_addSymbol (r : Resolver) (name : String) (kind : SymbolKind)
    (type : Option String) (site : Site) :
    Announces [site.id] r (r.addSymbol name kind type site) where
  scopes := rfl
  references := rfl
  symbols := by
    intro id symbol h
    obtain ⟨hlt, hs⟩ := Array.getElem?_eq_some_iff.1 h
    exact (Array.getElem?_push_lt hlt).trans (congrArg some hs)
  others := by
    intro i hi
    simp_all [addSymbol, Model.declaration?]
  declared := by
    intro i hi
    by_cases h : i = site.id
    · simp [addSymbol, Model.declaration?, h]
    · simp_all [addSymbol, Model.declaration?]

theorem introduces_addSymbol (r : Resolver) (v : VarDecl) (kind : SymbolKind)
    (type : Option String) :
    (r.addSymbol v.name kind type v.site).Introduces v r.symbols.next where
  declaration := by simp [addSymbol, Model.declaration?, VarDecl.id]
  symbol := ⟨kind, type, by simp [addSymbol, Model.symbol?, SymbolTable.get?, SymbolTable.insert,
    SymbolTable.next]⟩

theorem announces_declareField (owner : NodeId) (r : Resolver) (v : VarDecl) :
    Announces [v.id] r (declareField voc owner r v) :=
  announces_addSymbol r v.name (.field owner) (voc.types.qualify v.type) v.site

theorem announces_declareMethod (owner : NodeId) (r : Resolver) (m : MethodDecl) :
    Announces [m.id] r (declareMethod voc owner r m) :=
  have h := announces_addSymbol r m.name (.method owner m.params.length) (returnType? voc m) m.site
  ⟨h.scopes, h.references, h.symbols, h.others, h.declared⟩

theorem announces_declareFields (owner : NodeId) (r : Resolver) (vs : List VarDecl) :
    Announces (vs.map VarDecl.id) r (vs.foldl (declareField voc owner) r) := by
  rw [List.map_eq_flatMap]
  exact .foldl (announces_declareField voc owner) r vs

theorem announces_declareMethods (owner : NodeId) (r : Resolver) (ms : List MethodDecl) :
    Announces (ms.map MethodDecl.id) r (ms.foldl (declareMethod voc owner) r) := by
  rw [List.map_eq_flatMap]
  exact .foldl (announces_declareMethod voc owner) r ms

/-- Fields that are declared one after the other have consecutive symbols. -/
theorem introduces_declareFields (owner : NodeId) (r : Resolver) {vs : List VarDecl}
    (h : (vs.map VarDecl.id).Nodup) :
    List.Forall₂ (vs.foldl (declareField voc owner) r).Introduces vs
      (consecutive r.symbols.next vs.length) := by
  induction vs generalizing r with
  | nil => exact .nil
  | cons v rest ih =>
    obtain ⟨hv, hrest⟩ := List.nodup_cons.1 h
    have hnext : (declareField voc owner r v).symbols.next = r.symbols.next + 1 :=
      Array.size_push _
    have hfirst := introduces_addSymbol r v (.field owner) (voc.types.qualify v.type)
    refine .cons ((announces_declareFields voc owner _ rest).introduces hv hfirst) ?_
    exact hnext ▸ ih (declareField voc owner r v) hrest

theorem announces_declareClass (r : Resolver) (c : ClassDecl) :
    Announces c.memberIds r (declareClass voc r c) :=
  have hclass := announces_addSymbol r c.name .type (voc.types.lookup? c.name) c.site
  have h := (hclass.trans (announces_declareFields voc c.id _ c.fields)).trans
    (announces_declareMethods voc c.id _ c.methods)
  ⟨h.scopes, h.references, h.symbols, h.others, h.declared⟩

theorem introduces_all_mono {r r' : Resolver} {vs : List VarDecl} {ids : List SymbolId}
    (h : List.Forall₂ r.Introduces vs ids)
    (hkeep : ∀ v ∈ vs, ∀ id, r.Introduces v id → r'.Introduces v id) :
    List.Forall₂ r'.Introduces vs ids :=
  ((List.forall₂_and_left _ _).2 ⟨hkeep, h⟩).imp fun _ id hv => hv.1 id hv.2

/-- The members of a class are known: its fields, in their order, with their symbols. -/
def KnowsFields (r : Resolver) (c : ClassDecl) : Prop :=
  List.Forall₂ r.Introduces c.fields (r.classMembers c.id).fields

theorem KnowsFields.mono {r r' : Resolver} {c : ClassDecl} (h : r.KnowsFields c)
    (hmembers : r'.classMembers c.id = r.classMembers c.id)
    (hkeep : ∀ v ∈ c.fields, ∀ id, r.Introduces v id → r'.Introduces v id) : r'.KnowsFields c := by
  rw [KnowsFields, hmembers]
  exact introduces_all_mono h hkeep

theorem knowsFields_declareClass (r : Resolver) {c : ClassDecl} (h : c.memberIds.Nodup) :
    (declareClass voc r c).KnowsFields c := by
  obtain ⟨hfields, hmethods, hdisjoint⟩ := List.nodup_append.1 (List.nodup_cons.1 h).2
  let start := r.addSymbol c.name .type (voc.types.lookup? c.name) c.site
  let filled := c.fields.foldl (declareField voc c.id) start
  have hann := announces_declareMethods voc c.id filled c.methods
  have hknown := introduces_declareFields voc c.id start hfields
  have hmembers : ((declareClass voc r c).classMembers c.id).fields =
      consecutive start.symbols.next c.fields.length := by
    simp [declareClass, classMembers, start]
  rw [KnowsFields, hmembers]
  refine introduces_all_mono hknown fun v hv id hi => ?_
  have hkept := hann.introduces (fun hm => hdisjoint _ (List.mem_map_of_mem hv) _ hm rfl) hi
  exact ⟨hkept.declaration, hkept.symbol⟩

theorem foldl_declareMember_members {α : Type} {f : Resolver → α → Resolver}
    (h : ∀ r a, (f r a).members = r.members) (r : Resolver) (as : List α) :
    (as.foldl f r).members = r.members := by
  induction as generalizing r with
  | nil => rfl
  | cons a rest ih => rw [List.foldl_cons, ih, h]

/-- A class is entered under its number, with the qualified name its simple name stands for. -/
theorem members_declareClass (r : Resolver) (c : ClassDecl) :
    ∃ fields methods, (declareClass voc r c).members =
      r.members.insert c.id { name := voc.types.lookup? c.name, fields, methods } := by
  have hmethods := foldl_declareMember_members (f := declareMethod voc c.id) fun _ _ => rfl
  have hfields := foldl_declareMember_members (f := declareField voc c.id) fun _ _ => rfl
  simp only [declareClass, hmethods, hfields]
  exact ⟨_, _, rfl⟩

theorem classMembers_declareClass_of_ne (r : Resolver) {c : ClassDecl} {i : NodeId} (h : i ≠ c.id) :
    (declareClass voc r c).classMembers i = r.classMembers i := by
  obtain ⟨fields, methods, hmembers⟩ := members_declareClass voc r c
  simp [classMembers, hmembers, Table.get?_insert, h]

theorem announces_declareClasses (r : Resolver) (cs : List ClassDecl) :
    Announces (cs.flatMap ClassDecl.memberIds) r (cs.foldl (declareClass voc) r) :=
  .foldl (announces_declareClass voc) r cs

theorem classMembers_declareClasses_of_ne (r : Resolver) {cs : List ClassDecl} {i : NodeId}
    (h : ∀ c ∈ cs, i ≠ c.id) :
    (cs.foldl (declareClass voc) r).classMembers i = r.classMembers i := by
  induction cs generalizing r with
  | nil => rfl
  | cons c rest ih =>
    obtain ⟨hc, hrest⟩ := List.forall_mem_cons.1 h
    rw [List.foldl_cons, ih _ hrest, classMembers_declareClass_of_ne voc r hc]

/-- Every class that was declared is known, if no number was given twice. -/
theorem knowsFields_declareClasses (r : Resolver) {cs : List ClassDecl}
    (h : (cs.flatMap ClassDecl.memberIds).Nodup) :
    ∀ c ∈ cs, (cs.foldl (declareClass voc) r).KnowsFields c := by
  induction cs generalizing r with
  | nil => simp
  | cons c rest ih =>
    obtain ⟨hc, hrest, hdisjoint⟩ := List.nodup_append.1 h
    intro d hd
    rcases List.mem_cons.1 hd with rfl | hd
    · have hann := announces_declareClasses voc (declareClass voc r d) rest
      refine (knowsFields_declareClass voc r hc).mono ?_ fun v hv id hi => ?_
      · have hne : ∀ e ∈ rest, d.id ≠ e.id := fun e he =>
          hdisjoint d.id d.mem_memberIds_self e.id
            (List.mem_flatMap.2 ⟨e, he, e.mem_memberIds_self⟩)
        exact classMembers_declareClasses_of_ne voc _ hne
      · refine hann.introduces (fun hm => ?_) hi
        exact hdisjoint _ (ClassDecl.mem_memberIds_of_field hv) _ hm rfl
    · exact ih (declareClass voc r c) hrest d hd

end Resolver

end HandleLint
