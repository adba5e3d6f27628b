import HandleLint.Proofs.MirroredResolution

/-!
# The methods of a class

A call names a method and brings a number of arguments. What it means in a class can be read off the
declaration of the class (`ClassDecl.overload?`), and what it means to the resolver goes through the
tables of members and symbols. Where the resolver knows a class, both come to the same.

* `Resolver.Knows`: the symbols of a class and of its methods are in the tables;
* `Resolver.Informed`: so are those of all classes, and nothing else is taken for a class;
* `Resolver.Knows.findMethod?_eq`, `Resolver.Informed.classNamed?_eq`: methods and classes by name;
* `CompilationUnit.informed_run`: a unit that was gone through is known.
-/

namespace HandleLint

/-! ## Declarations -/

namespace ClassDecl

/-- The methods of a name, in the order of their declarations. -/
def methodsNamed (c : ClassDecl) (name : String) : List MethodDecl :=
  c.methods.filter (·.name = name)

/-- The method that a call means: the first with that many parameters, else the first of all that
have the name. -/
def overload? (c : ClassDecl) (name : String) (arity : Nat) : Option MethodDecl :=
  ((c.methodsNamed name).find? (·.params.length = arity)).or (c.methodsNamed name).head?

theorem overload?_eq_none_iff {c : ClassDecl} {name : String} (arity : Nat) :
    c.overload? name arity = none ↔ c.methods.any (·.name = name) = false := by
  rw [overload?, Option.or_eq_none_iff, List.head?_eq_none_iff, List.any_eq_false]
  constructor
  · exact fun h f hf hname => List.filter_eq_nil_iff.1 h.2 f hf hname
  · intro h
    have hnone : c.methodsNamed name = [] := List.filter_eq_nil_iff.2 h
    exact ⟨by rw [hnone]; rfl, hnone⟩

end ClassDecl

namespace Model

/-- The symbol of a method of a class. -/
def IsMethod (m : Model) (owner : NodeId) (f : MethodDecl) (id : SymbolId) : Prop :=
  ∃ type, m.symbol? id =
    some { id, name := f.name, kind := .method owner f.params.length, type, site := f.site }

/-- The qualified name of a class: the type of its symbol. -/
def className? (m : Model) (c : ClassDecl) : Option String :=
  (m.declaration? c.id).bind m.typeOf?

end Model

namespace Resolver

variable {voc : Vocabulary} {r r' : Resolver} {c : ClassDecl}

/-- The class and its methods have their symbols, and its members are listed with its name. -/
structure Knows (voc : Vocabulary) (r : Resolver) (c : ClassDecl) : Prop where
  symbol : ∃ id, r.symbol? id = some
    { id, name := c.name, kind := .type, type := voc.types.lookup? c.name, site := c.site }
  name : (r.classMembers c.id).name = voc.types.lookup? c.name
  methods : List.Forall₂ (r.IsMethod c.id) c.methods (r.classMembers c.id).methods

theorem Knows.mono (h : r.Knows voc c)
    (hsymbols : ∀ {id s}, r.symbol? id = some s → r'.symbol? id = some s)
    (hmembers : r'.classMembers c.id = r.classMembers c.id) : r'.Knows voc c where
  symbol := h.symbol.imp fun _ hs => hsymbols hs
  name := by rw [hmembers, h.name]
  methods := by
    rw [hmembers]
    exact h.methods.imp fun _ _ => fun ⟨type, hs⟩ => ⟨type, hsymbols hs⟩

/-- Methods that are declared one after the other have consecutive symbols. -/
theorem isMethod_declareMethods (voc : Vocabulary) (owner : NodeId) (r : Resolver)
    (fs : List MethodDecl) :
    List.Forall₂ ((fs.foldl (declareMethod voc owner) r).IsMethod owner) fs
      (consecutive r.symbols.next fs.length) := by
  induction fs generalizing r with
  | nil => exact .nil
  | cons f rest ih =>
    have hnext : (declareMethod voc owner r f).symbols.next = r.symbols.next + 1 :=
      Array.size_push _
    have hfirst : (declareMethod voc owner r f).symbol? r.symbols.next = some _ :=
      symbol?_addSymbol_next r f.name (.method owner f.params.length) (returnType? voc f) f.site
    have hkept := (announces_declareMethods voc owner (declareMethod voc owner r f) rest).symbols
      hfirst
    exact .cons ⟨_, hkept⟩ (hnext ▸ ih (declareMethod voc owner r f))

theorem knows_declareClass (voc : Vocabulary) (r : Resolver) (c : ClassDecl) :
    (declareClass voc r c).Knows voc c := by
  let start := r.addSymbol c.name .type (voc.types.lookup? c.name) c.site
  let filled := c.fields.foldl (declareField voc c.id) start
  have hfields := announces_declareFields voc c.id start c.fields
  have hmethods := announces_declareMethods voc c.id filled c.methods
  have hmembers : (declareClass voc r c).classMembers c.id =
      { name := voc.types.lookup? c.name
        fields := consecutive start.symbols.next c.fields.length
        methods := consecutive filled.symbols.next c.methods.length } := by
    simp [declareClass, classMembers, start, filled]
  constructor
  case symbol =>
    have hstart := symbol?_addSymbol_next r c.name .type (voc.types.lookup? c.name) c.site
    exact ⟨r.symbols.next, hmethods.symbols (hfields.symbols hstart)⟩
  case name => rw [hmembers]
  case methods =>
    rw [hmembers]
    exact isMethod_declareMethods voc c.id filled c.methods

theorem knows_declareClasses (voc : Vocabulary) (r : Resolver) {cs : List ClassDecl}
    (h : (cs.map ClassDecl.id).Nodup) :
    ∀ c ∈ cs, (cs.foldl (declareClass voc) r).Knows voc c := by
  induction cs generalizing r with
  | nil => exact nofun
  | cons c rest ih =>
    obtain ⟨hc, hrest⟩ := List.nodup_cons.1 h
    refine List.forall_mem_cons.2 ⟨?_, ih (declareClass voc r c) hrest⟩
    have hne : ∀ d ∈ rest, c.id ≠ d.id := fun d hd heq => hc (heq ▸ List.mem_map_of_mem hd)
    exact (knows_declareClass voc r c).mono (announces_declareClasses voc _ rest).symbols
      (classMembers_declareClasses_of_ne voc _ hne)

/-! ## Methods by name -/

theorem rel_head? {α β : Type} {R : α → β → Prop} {as : List α} {bs : List β}
    (h : List.Forall₂ R as bs) : Option.Rel R as.head? bs.head? := by
  cases h with
  | nil => exact .none
  | cons hab _ => exact .some hab

namespace Knows

theorem rel_methodsNamed (h : r.Knows voc c) (name : String) :
    List.Forall₂ (r.IsMethod c.id) (c.methodsNamed name)
      (r.named name (r.classMembers c.id).methods) := by
  refine List.rel_filter ?_ h.methods
  rintro f id ⟨type, hs⟩
  simp [hs]

theorem rel_findMethod? (h : r.Knows voc c) (name : String) (arity : Nat) :
    Option.Rel (r.IsMethod c.id) (c.overload? name arity) (r.findMethod? c.id name arity) := by
  have hnamed := h.rel_methodsNamed name
  have hexact : Option.Rel (r.IsMethod c.id)
      ((c.methodsNamed name).find? (·.params.length = arity))
      ((r.named name (r.classMembers c.id).methods).find? fun id =>
        (r.symbol? id).any (·.kind = .method c.id arity)) := by
    rw [← List.head?_filter, ← List.head?_filter]
    refine rel_head? (List.rel_filter ?_ hnamed)
    rintro f id ⟨type, hs⟩
    simp [hs]
  rw [ClassDecl.overload?, findMethod?]
  generalize (c.methodsNamed name).find? (·.params.length = arity) = x,
    (r.named name (r.classMembers c.id).methods).find? (fun id =>
        (r.symbol? id).any (·.kind = .method c.id arity)) = y at hexact
  cases hexact with
  | none => exact rel_head? hnamed
  | some hf => exact .some hf

/-- The resolver finds the symbol of the method that the declaration of the class gives. -/
theorem findMethod?_eq (h : r.Knows voc c) (hr : r.Faithful) (name : String) (arity : Nat) :
    r.findMethod? c.id name arity = (c.overload? name arity).bind fun f => r.declaration? f.id := by
  have hfound := h.rel_findMethod? name arity
  generalize c.overload? name arity = x, r.findMethod? c.id name arity = y at hfound
  cases hfound with
  | none => rfl
  | some hf =>
    obtain ⟨type, hs⟩ := hf
    exact (hr _ _ hs).symm

theorem findMethod?_eq_none_iff (h : r.Knows voc c) {name : String} {arity : Nat} :
    r.findMethod? c.id name arity = none ↔ c.methods.any (·.name = name) = false := by
  rw [← ClassDecl.overload?_eq_none_iff arity]
  have hfound := h.rel_findMethod? name arity
  generalize c.overload? name arity = x, r.findMethod? c.id name arity = y at hfound
  cases hfound <;> simp

theorem className?_eq (h : r.Knows voc c) (hr : r.Faithful) :
    r.className? c = (r.classMembers c.id).name := by
  obtain ⟨id, hs⟩ := h.symbol
  have hdecl : r.declaration? c.id = some id := hr id _ hs
  rw [h.name, Model.className?, hdecl, Option.bind_some, Model.typeOf?, hs]
  rfl

end Knows

/-- The resolver knows classes and takes nothing else for a class. -/
structure Informed (voc : Vocabulary) (cs : List ClassDecl) (r : Resolver) : Prop where
  faithful : r.Faithful
  known : ∀ c ∈ cs, r.Knows voc c
  listed : ∀ {i m}, r.members.get? i = some m → ∃ c ∈ cs, c.id = i
  apart : r.NamesApart

/-- The resolver finds the class whose symbol has the name as its type. -/
theorem Informed.classNamed?_eq {cs : List ClassDecl} (h : r.Informed voc cs) (name : String) :
    classNamed? voc r name = (cs.find? (r.className? · = some name)).map ClassDecl.id := by
  cases hfind : cs.find? (r.className? · = some name) with
  | none =>
    rw [Option.map_none, Option.eq_none_iff_forall_ne_some]
    intro i hi
    obtain ⟨m, hm, hname⟩ := (classNamed?_eq_some_iff h.apart).1 hi
    obtain ⟨c, hc, rfl⟩ := h.listed hm
    have hclass : r.className? c = some name := by
      rw [(h.known c hc).className?_eq h.faithful, classMembers, hm]
      exact hname
    simpa [hclass] using List.find?_eq_none.1 hfind c hc
  | some c =>
    have hname : r.className? c = some name := by simpa using List.find?_some hfind
    rw [(h.known c (List.mem_of_find?_eq_some hfind)).className?_eq h.faithful] at hname
    refine (classNamed?_eq_some_iff h.apart).2 ?_
    cases hm : r.members.get? c.id with
    | none =>
      rw [classMembers, hm] at hname
      cases hname
    | some m =>
      rw [classMembers, hm] at hname
      exact ⟨m, rfl, hname⟩

end Resolver

/-- A unit that was gone through is known, with all its classes and their methods. -/
theorem CompilationUnit.informed_run (order : ClassOrder) {u : CompilationUnit}
    {signatures : Signatures} (distinct : u.nodeIds.Nodup) (names : u.ClassNamesDiffer signatures) :
    (Resolver.run (u.vocabulary order signatures) (u.announced order signatures)
      (ClassDecl.stepsOf u.classes)).Informed (u.vocabulary order signatures) u.allClasses := by
  have hframe := Resolver.frame_run (u.vocabulary order signatures) (u.announced order signatures)
    (ClassDecl.stepsOf u.classes)
  have hids : (u.allClasses.map ClassDecl.id).Nodup := by
    have hsub : (u.allClasses.map ClassDecl.id).Sublist u.nodeIds := by
      rw [List.map_eq_flatMap]
      exact .flatMap_right u.allClasses fun c _ => List.singleton_sublist.2 List.mem_cons_self
    exact distinct.sublist hsub
  have hknown := Resolver.knows_declareClasses (u.vocabulary order signatures) {} hids
  constructor
  case faithful =>
    exact (Resolver.ready_declareClasses _ distinct).faithful_run (faithful_announced distinct)
  case known =>
    intro c hc
    refine (hknown c hc).mono (Resolver.keeps_run _ _ _).symbols ?_
    rw [Resolver.classMembers, hframe.members]
    rfl
  case listed =>
    intro i m hm
    rw [hframe.members] at hm
    rcases Resolver.class_of_members hm with hnone | ⟨c, hc, hid, -⟩
    · cases hnone
    · exact ⟨c, hc, hid⟩
  case apart =>
    intro a b m m' ha hb
    rw [hframe.members] at ha hb
    exact CompilationUnit.namesApart_announced names a b m m' ha hb

end HandleLint
