import HandleLint.Proofs.ResolvedTables

/-!
# Resolving a unit in which a variable has another name

Where a variable gets a name that is used nowhere, and the identifiers that refer to it get that
name too, the way through the unit goes side by side with the way through the unit before: after
every step both know the same, except for the name of one symbol. Scopes do differ. The old name may
be declared again where it could not be before, and what stood outside may be seen through; but
whoever looked up the old name and found another symbol finds that symbol still, and whoever found
the variable finds it under its new name (`Scope.Renames`).

Which identifiers refer to the variable is read off the tables that resolution ends with, so that
each step must be compared with the end (`Resolver.Foreseen`).

* `Model.rename`: the new names;
* `Scope.Renames`, `lookup_renamed`, `lookup_kept`: names in scopes;
* `Resolver.Renames.step`, `Resolver.Renames.run`: the ways go side by side;
* `Resolver.Renames.declareClass`: they do so from the start.
-/

namespace HandleLint

open HandleLint.Resolver (Step)

/-! ## Other names -/

/-- Another name for the variable that a node declares, and for the identifiers that refer to it. -/
def Model.rename (m : Model) (d : NodeId) (name : String) : Relabelling where
  ident i old := if (m.reference? i).any (m.declaration? d = some ·) then name else old
  var i old := if i = d then name else old

/-- The symbol under another name, if it is that of the given declaration. -/
def Symbol.rename (d : NodeId) (name : String) (s : Symbol) : Symbol :=
  if s.decl = d then { s with name } else s

namespace Symbol

theorem rename_eq (d : NodeId) (name : String) (s : Symbol) :
    s.rename d name = { s with name := if s.decl = d then name else s.name } := by
  unfold rename
  split <;> rfl

theorem kind_rename (d : NodeId) (name : String) (s : Symbol) :
    (s.rename d name).kind = s.kind := by
  rw [rename_eq]

theorem type_rename (d : NodeId) (name : String) (s : Symbol) :
    (s.rename d name).type = s.type := by
  rw [rename_eq]

theorem span_rename (d : NodeId) (name : String) (s : Symbol) :
    (s.rename d name).span = s.span := by
  rw [rename_eq]
  rfl

end Symbol

namespace Model

variable {m : Model} {d i : NodeId} {name old : String} {id : SymbolId}

theorem ident_rename (hd : m.declaration? d = some id) (hi : m.reference? i = some id) :
    (m.rename d name).ident i old = name := by
  simp [rename, hd, hi]

theorem ident_rename_of_ne (h : ∀ id, m.reference? i = some id → m.declaration? d ≠ some id) :
    (m.rename d name).ident i old = old := by
  show (if _ then _ else _) = old
  rw [if_neg]
  intro hany
  obtain ⟨id, hi, hd⟩ := (Option.any_eq_true _ _).1 hany
  exact h id hi (of_decide_eq_true hd)

end Model

/-! ## Scopes -/

namespace Scope

/-- The symbol that a name is bound to. -/
def symbol? (s : Scope) (name : String) : Option SymbolId :=
  (s.bindings.get? name).map (·.symbol)

theorem symbol?_insertIfNew (s : Scope) (name x : String) (id : SymbolId) (span : Span) :
    symbol? { s with bindings := s.bindings.insertIfNew name ⟨id, span⟩ } x =
      if x = name then some ((s.symbol? name).getD id) else s.symbol? x := by
  unfold symbol?
  rw [Table.get?_insertIfNew]
  by_cases hx : x = name
  · rw [if_pos hx, if_pos (beq_iff_eq.2 hx)]
    cases s.bindings.get? name <;> rfl
  · rw [if_neg hx, if_neg (by simpa using hx)]

/-- The scopes bind the same names to the same symbols, except for one symbol, which has another
name in the second scope. Nothing else has that name there. -/
structure Renames (target : Option SymbolId) (name : String) (s s' : Scope) : Prop where
  kind : s'.kind.class? = s.kind.class?
  kept : ∀ x, x ≠ name → s'.symbol? x = s.symbol? x ∨ ∃ id, s.symbol? x = some id ∧ target = some id
  fresh : ∀ id, s'.symbol? name = some id → target = some id
  moved : ∀ x id, s.symbol? x = some id → target = some id → s'.symbol? name = some id

namespace Renames

variable {target : Option SymbolId} {name : String} {id : SymbolId} {s s' : Scope}

/-- The symbol is bound to its old name in the first scope, and to its new name in the second. -/
theorem insert_target (h : Renames target name s s') (ht : target = some id) (x : String)
    (span : Span) :
    Renames target name { s with bindings := s.bindings.insertIfNew x ⟨id, span⟩ }
      { s' with bindings := s'.bindings.insertIfNew name ⟨id, span⟩ } where
  kind := h.kind
  kept := by
    intro y hy
    rw [symbol?_insertIfNew, symbol?_insertIfNew, if_neg hy]
    by_cases hx : y = x
    · subst hx
      rw [if_pos rfl]
      cases hs : s.symbol? y with
      | none => exact .inr ⟨id, rfl, ht⟩
      | some other => exact hs ▸ h.kept y hy
    · rw [if_neg hx]
      exact h.kept y hy
  fresh := by
    intro other ho
    rw [symbol?_insertIfNew, if_pos rfl] at ho
    cases hs : s'.symbol? name with
    | none =>
      rw [hs] at ho
      exact ht.trans ho
    | some bound =>
      rw [hs] at ho
      exact (h.fresh bound hs).trans ho
  moved := by
    intro y other _ ho
    rw [symbol?_insertIfNew, if_pos rfl]
    cases hs : s'.symbol? name with
    | none => exact ht.symm.trans ho
    | some bound => exact (h.fresh bound hs).symm.trans ho

/-- Another symbol is bound to the same name in both scopes. -/
theorem insert_other (h : Renames target name s s') (ht : target ≠ some id) {x : String}
    (hx : x ≠ name) (span : Span) :
    Renames target name { s with bindings := s.bindings.insertIfNew x ⟨id, span⟩ }
      { s' with bindings := s'.bindings.insertIfNew x ⟨id, span⟩ } where
  kind := h.kind
  kept := by
    intro y hy
    rw [symbol?_insertIfNew, symbol?_insertIfNew]
    by_cases he : y = x
    · subst he
      rw [if_pos rfl, if_pos rfl]
      rcases h.kept y hy with hk | ⟨other, ho, hto⟩
      · exact .inl (congrArg (fun bound => some (Option.getD bound id)) hk)
      · exact .inr ⟨other, by rw [ho]; rfl, hto⟩
    · rw [if_neg he, if_neg he]
      exact h.kept y hy
  fresh := by
    intro other ho
    rw [symbol?_insertIfNew, if_neg hx.symm] at ho
    exact h.fresh other ho
  moved := by
    intro y other hy ho
    rw [symbol?_insertIfNew] at hy
    rw [symbol?_insertIfNew, if_neg hx.symm]
    by_cases he : y = x
    · rw [if_pos he] at hy
      cases hs : s.symbol? x with
      | none =>
        rw [hs] at hy
        exact absurd (ho.trans hy.symm) ht
      | some bound =>
        rw [hs] at hy
        exact h.moved x other (hs.trans hy) ho
    · rw [if_neg he] at hy
      exact h.moved y other hy ho

end Renames

end Scope

section Chains

variable {target : Option SymbolId} {name x : String} {id : SymbolId} {chain chain' : List Scope}

theorem ScopeTree.lookup?_eq (t : ScopeTree) (x : String) :
    t.lookup? x = t.chain.findSome? (·.symbol? x) :=
  List.map_findSome?

/-- What was found under its old name is found under its new one. -/
theorem lookup_renamed (h : List.Forall₂ (Scope.Renames target name) chain chain')
    (hx : chain.findSome? (·.symbol? x) = some id) (ht : target = some id) :
    chain'.findSome? (·.symbol? name) = some id := by
  induction h with
  | nil => cases hx
  | @cons s s' outer outer' hs _ ih =>
    rw [List.findSome?_cons] at hx ⊢
    cases hb : s'.symbol? name with
    | some bound => exact (hs.fresh bound hb).symm.trans ht
    | none =>
      cases hold : s.symbol? x with
      | some bound =>
        rw [hold] at hx
        cases hx
        cases hb.symm.trans (hs.moved x id hold ht)
      | none =>
        rw [hold] at hx
        exact ih hx

/-- Whatever else was found under a name is still found under that name. -/
theorem lookup_kept (h : List.Forall₂ (Scope.Renames target name) chain chain') (hx : x ≠ name)
    (hother : ∀ id, chain.findSome? (·.symbol? x) = some id → target ≠ some id) :
    chain'.findSome? (·.symbol? x) = chain.findSome? (·.symbol? x) := by
  induction h with
  | nil => rfl
  | @cons s s' outer outer' hs _ ih =>
    rw [List.findSome?_cons, List.findSome?_cons]
    rw [List.findSome?_cons] at hother
    rcases hs.kept x hx with hk | ⟨id, hid, ht⟩
    · rw [hk]
      cases hold : s.symbol? x with
      | some bound => rfl
      | none =>
        rw [hold] at hother
        exact ih hother
    · rw [hid] at hother
      exact absurd ht (hother id rfl)

end Chains

/-! ## Side by side -/

namespace Resolver

variable {m : Model} {d : NodeId} {name : String} {r r' : Resolver} {voc : Vocabulary} {s : Step}

/-- Both resolvers know the same, except for the name of one symbol. -/
structure Renames (m : Model) (d : NodeId) (name : String) (r r' : Resolver) : Prop where
  symbols : r'.symbols.symbols = r.symbols.symbols.map (Symbol.rename d name)
  references : r'.references = r.references
  declarations : r'.declarations = r.declarations
  calls : r'.calls = r.calls
  methods : r'.methods = r.methods.mapValues (MethodDecl.relabel (m.rename d name))
  members : r'.members = r.members
  scopes : List.Forall₂ (Scope.Renames (m.declaration? d) name) r.scopes.chain r'.scopes.chain

/-- What the resolver knows and what the step meets fits what is known in the end. The name is met
nowhere, and only one declaration makes the symbol that is to be renamed. -/
structure Foreseen (m : Model) (d : NodeId) (name : String) (r : Resolver) (s : Step) : Prop where
  symbols : ∀ {id symbol}, r.symbol? id = some symbol → m.declaration? symbol.decl = some id
  members : ∀ {c id}, id ∈ (r.classMembers c).fields ++ (r.classMembers c).methods →
    m.declaration? d ≠ some id
  fields : ∀ {c}, s = .openClass c → ∀ v ∈ c.fields, v.id ≠ d ∧ v.name ≠ name
  ident : ∀ {site x}, s = .visit (.ident site x) →
    x ≠ name ∧ m.reference? site.id = r.scopes.lookup? x
  parts : ∀ {e}, s = .visit e → ∀ p ∈ e.parts, ∀ x, p.Inside x →
    m.reference? x.id = r.reference? x.id
  declare : ∀ {kind v}, s = .declare kind v →
    v.name ≠ name ∧ (m.declaration? d = some r.symbols.next ↔ v.id = d)

namespace Renames

/-! ### What is looked up -/

theorem next (h : Renames m d name r r') : r'.symbols.next = r.symbols.next := by
  rw [SymbolTable.next, h.symbols, Array.size_map, SymbolTable.next]

theorem symbol? (h : Renames m d name r r') (id : SymbolId) :
    r'.symbol? id = (r.symbol? id).map (Symbol.rename d name) := by
  rw [Model.symbol?, SymbolTable.get?, h.symbols, Array.getElem?_map]
  rfl

theorem classMembers (h : Renames m d name r r') (c : NodeId) :
    r'.classMembers c = r.classMembers c := by
  rw [Resolver.classMembers, Resolver.classMembers, h.members]

/-- An identifier finds under its new name what it found before. -/
theorem lookup? (h : Renames m d name r r') {site : Site} {x : String} (hx : x ≠ name)
    (hend : m.reference? site.id = r.scopes.lookup? x) :
    r'.scopes.lookup? ((m.rename d name).ident site.id x) = r.scopes.lookup? x := by
  rw [ScopeTree.lookup?_eq] at hend ⊢
  rw [ScopeTree.lookup?_eq]
  by_cases hhit : ∃ id, m.reference? site.id = some id ∧ m.declaration? d = some id
  · obtain ⟨id, href, hd⟩ := hhit
    rw [Model.ident_rename hd href, lookup_renamed h.scopes (hend.symm.trans href) hd, ← hend, href]
  · have hother : ∀ id, m.reference? site.id = some id → m.declaration? d ≠ some id :=
      fun id href hd => hhit ⟨id, href, hd⟩
    rw [Model.ident_rename_of_ne hother]
    exact lookup_kept h.scopes hx fun id hid => hother id (hend.trans hid)

/-- Members keep their names, since none of them is the symbol that gets another one. -/
theorem likens (h : Renames m d name r r') (hs : Foreseen m d name r s) :
    Likens (fun i => i) Eq r r' where
  types := by
    rintro id _ rfl
    rw [Model.typeOf?, h.symbol?, Model.typeOf?]
    cases r.symbol? id with
    | none => rfl
    | some symbol => exact symbol.type_rename d name
  around := by
    rw [List.map_id']
    exact ScopeTree.enclosingClasses_congr (h.scopes.imp fun _ _ hs => hs.kind)
  classNamed? := by
    intro voc owner
    rw [Option.map_id_fun', classNamed?, h.members]
    rfl
  members := h.classMembers
  shared := fun _ => rfl
  names := by
    intro c id hid x
    rw [h.symbol?]
    cases hsymbol : r.symbol? id with
    | none => rfl
    | some symbol =>
      have hne : symbol.decl ≠ d := by
        rintro rfl
        exact hs.members hid (hs.symbols hsymbol)
      rw [Option.map_some, Symbol.rename, if_neg hne]
  kinds := by
    intro c id _ arity
    rw [h.symbol?, Option.any_map]
    congr 1
    funext symbol
    exact congrArg (fun kind => decide (kind = _)) (symbol.kind_rename d name)

theorem callTarget (h : Renames m d name r r') {site : Site} {receiver : Option Expr}
    {method : String} {args : List Expr}
    (hs : Foreseen m d name r (.visit (.call site receiver method args))) (span : Span) :
    (Resolver.callTarget voc r' (receiver.map (Expr.relabel (m.rename d name))) method args.length
        span).1 =
      (Resolver.callTarget voc r receiver method args.length span).1 := by
  refine Likens.callTarget (ρ := m.rename d name) (h.likens hs) voc (fun e he => ?_) method
    args.length span
  have hpart : e ∈ (Expr.call site receiver method args).parts :=
    List.mem_append_left _ (Option.mem_toList.2 he)
  refine alikeOn_of_eq (fun x _ => ?_) (fun x _ => ?_) fun x old hx hnone => ?_
  · exact congrArg (Table.get? · x.id) h.references
  · exact congrArg (Table.get? · x.id) h.calls
  · -- The identifier was visited before the call, and it refers to nothing.
    refine Model.ident_rename_of_ne fun id hid => ?_
    have hend : m.reference? x.id = r.reference? x.id := hs.parts rfl e hpart _ hx
    cases hnone.symm.trans (hend.symm.trans hid)

/-! ### What is written -/

theorem reported (h : Renames m d name r r') (problems problems' : Array Problem)
    (notes notes' : Array Note) :
    Renames m d name { r with problems, notes }
      { r' with problems := problems', notes := notes' } :=
  ⟨h.symbols, h.references, h.declarations, h.calls, h.methods, h.members, h.scopes⟩

theorem refer (h : Renames m d name r r') (i : NodeId) (id : SymbolId) :
    Renames m d name (r.refer i id) (r'.refer i id) := by
  have hreferences : r'.references.insert i id = r.references.insert i id := by
    rw [h.references]
  exact ⟨h.symbols, hreferences, h.declarations, h.calls, h.methods, h.members,
    h.scopes⟩

theorem recorded (h : Renames m d name r r') (i : NodeId) (target : CallTarget) :
    Renames m d name { r with calls := r.calls.insert i target }
      { r' with calls := r'.calls.insert i target } := by
  have hcalls : r'.calls.insert i target = r.calls.insert i target := by
    rw [h.calls]
  exact ⟨h.symbols, h.references, h.declarations, hcalls, h.methods, h.members,
    h.scopes⟩

theorem addSymbol (h : Renames m d name r r') (x : String) (kind : SymbolKind)
    (type : Option String) (site : Site) :
    Renames m d name (r.addSymbol x kind type site)
      (r'.addSymbol ((m.rename d name).var site.id x) kind type site) where
  symbols := by
    have hsymbol : Symbol.rename d name { id := r.symbols.next, name := x, kind, type, site } =
        { id := r.symbols.next, name := (m.rename d name).var site.id x, kind, type, site } :=
      Symbol.rename_eq d name _
    show r'.symbols.symbols.push _ = (r.symbols.symbols.push _).map _
    rw [Array.map_push, hsymbol, h.symbols, h.next]
  references := h.references
  declarations := by
    show r'.declarations.insert site.id r'.symbols.next = r.declarations.insert site.id _
    rw [h.declarations, h.next]
  calls := h.calls
  methods := h.methods
  members := h.members
  scopes := h.scopes

theorem withScopes (h : Renames m d name r r') {t t' : ScopeTree}
    (hscopes : List.Forall₂ (Scope.Renames (m.declaration? d) name) t.chain t'.chain)
    (problems problems' : Array Problem) :
    Renames m d name { r with scopes := t, problems }
      { r' with scopes := t', problems := problems' } :=
  ⟨h.symbols, h.references, h.declarations, h.calls, h.methods, h.members, hscopes⟩

/-- A symbol is bound to its name, which is the new one in the second resolver. -/
theorem declared (h : Renames m d name r r') {v : VarDecl} {id : SymbolId} (hv : v.name ≠ name)
    (hid : m.declaration? d = some id ↔ v.id = d) (problems problems' : Array Problem) :
    Renames m d name { r with scopes := r.scopes.declared v.name ⟨id, v.span⟩, problems }
      { r' with
        scopes := r'.scopes.declared ((m.rename d name).var v.id v.name) ⟨id, v.span⟩
        problems := problems' } := by
  refine h.withScopes ?_ _ _
  rw [ScopeTree.chain_declared, ScopeTree.chain_declared]
  have hscopes := h.scopes
  generalize r.scopes.chain = chain, r'.scopes.chain = chain' at hscopes
  cases hscopes with
  | nil => exact .nil
  | cons hs houter =>
    refine .cons ?_ houter
    by_cases hd : v.id = d
    · rw [show (m.rename d name).var v.id v.name = name from if_pos hd]
      exact hs.insert_target (hid.2 hd) v.name v.span
    · rw [show (m.rename d name).var v.id v.name = v.name from if_neg hd]
      exact hs.insert_other (fun ht => hd (hid.1 ht)) hv v.span

/-- Fields keep their names. -/
theorem declaredAll (h : Renames m d name r r') {entries : List (VarDecl × SymbolId)}
    (hentries : ∀ entry ∈ entries, (entry.1.id ≠ d ∧ entry.1.name ≠ name) ∧
      m.declaration? d ≠ some entry.2) (problems problems' : Array Problem) :
    Renames m d name { r with scopes := r.scopes.declaredAll entries, problems }
      { r' with
        scopes := r'.scopes.declaredAll
          (entries.map (Prod.map (VarDecl.relabel (m.rename d name)) fun id => id))
        problems := problems' } := by
  induction entries generalizing r r' with
  | nil => exact h.withScopes h.scopes _ _
  | cons entry rest ih =>
    obtain ⟨⟨⟨hid, hname⟩, hsymbol⟩, hrest⟩ := List.forall_mem_cons.1 hentries
    have hbound := h.declared hname (iff_of_false hsymbol hid) r.problems r'.problems
    exact ih hbound hrest

theorem withMembers (h : Renames m d name r r') (c : NodeId) {members members' : ClassMembers}
    (hsame : members' = members) :
    Renames m d name { r with members := r.members.insert c members }
      { r' with members := r'.members.insert c members' } := by
  have hmembers : r'.members.insert c members' = r.members.insert c members := by
    rw [hsame, h.members]
  exact ⟨h.symbols, h.references, h.declarations, h.calls, h.methods, hmembers,
    h.scopes⟩

/-! ### Steps -/

theorem visit (h : Renames m d name r r') {e : Expr} (hs : Foreseen m d name r (.visit e)) :
    Renames m d name (Resolver.visit voc r e)
      (Resolver.visit voc r' (e.relabel (m.rename d name))) := by
  cases e with
  | ident site x =>
    obtain ⟨hx, hend⟩ := hs.ident rfl
    have hsite : site.renumber (m.rename d name).node = site := rfl
    simp only [Expr.relabel, Resolver.visit, hsite, h.lookup? hx hend]
    cases r.scopes.lookup? x with
    | some id => exact h.refer site.id id
    | none =>
      simp only
      -- The reports may differ, but they are not what is compared.
      split <;> split <;> exact h.reported _ _ _ _
  | field site object x =>
    simp only [Expr.relabel, Resolver.visit, (h.likens hs).ownField?, Expr.isThis_relabel]
    split
    · exact h.refer site.id _
    · exact h
  | call site receiver method args =>
    obtain ⟨problems, notes, hleft⟩ :=
      exists_callTarget voc r receiver method args.length site.span
    obtain ⟨problems', notes', hright⟩ := exists_callTarget voc r'
      (receiver.map (Expr.relabel (m.rename d name))) method args.length site.span
    have hsite : site.renumber (m.rename d name).node = site := rfl
    simp only [Expr.relabel_call, Resolver.visit, List.length_map, hsite, hleft, hright,
      h.callTarget hs]
    exact (h.reported problems problems' notes notes').recorded site.id _
  | _ => exact h

theorem enter (h : Renames m d name r r') (kind : ScopeKind) :
    Renames m d name (r.enter kind) (r'.enter kind) := by
  refine h.withScopes ?_ _ _
  rw [ScopeTree.chain_enter, ScopeTree.chain_enter]
  refine .cons ⟨rfl, fun _ _ => .inl rfl, fun _ hid => ?_, fun _ _ hid => ?_⟩ h.scopes
  · cases hid
  · cases hid

theorem leave (h : Renames m d name r r') : Renames m d name r.leave r'.leave := by
  refine h.withScopes ?_ _ _
  rw [ScopeTree.chain_leave, ScopeTree.chain_leave]
  exact forall₂_tail h.scopes

theorem step (h : Renames m d name r r') (hs : Foreseen m d name r s) :
    Renames m d name (Resolver.step voc r s)
      (Resolver.step voc r' (s.relabel (m.rename d name))) := by
  cases s with
  | openClass c =>
    obtain ⟨problems, hleft⟩ := exists_openClass voc r c
    obtain ⟨problems', hright⟩ := exists_openClass voc r' (c.relabel (m.rename d name))
    have hid : (c.relabel (m.rename d name)).id = c.id := c.id_relabel _
    rw [Step.relabel, hleft, hright, hid, c.fields_relabel, h.classMembers, List.zip_map_left]
    refine (h.enter (.classBody c.id)).declaredAll (fun entry hm => ?_) _ _
    obtain ⟨hv, hsymbol⟩ := List.of_mem_zip hm
    exact ⟨hs.fields rfl entry.1 hv, hs.members (List.mem_append_left _ hsymbol)⟩
  | openMethod method =>
    have hdecl : r'.declaration? (method.relabel (m.rename d name)).id =
        r.declaration? method.id := congrArg (Table.get? · method.id) h.declarations
    simp only [Step.relabel, Resolver.step, hdecl]
    exact h.enter (.methodBody _)
  | openBlock => exact h.enter .block
  | leave => exact h.leave
  | visit e => exact h.visit hs
  | declare kind v =>
    obtain ⟨hv, hid⟩ := hs.declare rfl
    have hkind : kind.renumber (m.rename d name).node = kind :=
      kind.renumber_self fun _ => rfl
    obtain ⟨problems, hleft⟩ := exists_declare voc r kind v
    obtain ⟨problems', hright⟩ := exists_declare voc r' kind (v.relabel (m.rename d name))
    rw [Step.relabel, hkind, hleft, hright, h.next]
    exact (h.addSymbol v.name kind (voc.types.qualify v.type) v.site).declared hv hid _ _

/-- Both ways go side by side. -/
theorem run (h : Renames m d name r r') {steps : List Step}
    (hs : ∀ before s after, steps = before ++ s :: after →
      Foreseen m d name (Resolver.run voc r before) s) :
    Renames m d name (Resolver.run voc r steps)
      (Resolver.run voc r' (steps.map (Step.relabel (m.rename d name)))) := by
  induction steps generalizing r r' with
  | nil => exact h
  | cons s rest ih =>
    rw [List.map_cons, run_cons, run_cons]
    refine ih (h.step (hs [] s rest rfl)) fun before t after hrest => ?_
    exact hs (s :: before) t after (congrArg (s :: ·) hrest)

end Renames

/-! ## Before bodies -/

namespace Renames

theorem empty (m : Model) (d : NodeId) (name : String) : Renames m d name {} {} where
  symbols := Array.map_empty.symm
  references := rfl
  declarations := rfl
  calls := rfl
  methods := rfl
  members := rfl
  scopes := .nil

/-- Members that are declared one after the other. -/
theorem foldl {α : Type} {g g' : Resolver → α → Resolver} {relabel : α → α} {as : List α}
    (hg : ∀ a ∈ as, ∀ r r', Renames m d name r r' → Renames m d name (g r a) (g' r' (relabel a)))
    (h : Renames m d name r r') :
    Renames m d name (as.foldl g r) ((as.map relabel).foldl g' r') := by
  rw [List.foldl_map]
  exact List.foldl_rel h hg

theorem declareMethod (h : Renames m d name r r') (owner : NodeId) {method : MethodDecl}
    (hid : method.id ≠ d) :
    Renames m d name (declareMethod voc owner r method)
      (declareMethod voc owner r' (method.relabel (m.rename d name))) := by
  have hadded := h.addSymbol method.name (.method owner method.params.length)
    (returnType? voc method) method.site
  rw [show (m.rename d name).var method.site.id method.name = method.name from if_neg hid]
    at hadded
  have harity : (method.relabel (m.rename d name)).params.length = method.params.length :=
    List.length_map _
  simp only [Resolver.declareMethod, harity]
  refine ⟨hadded.symbols, hadded.references, hadded.declarations, hadded.calls, ?_,
    hadded.members, hadded.scopes⟩
  show r'.methods.insert r'.symbols.next (method.relabel _) = _
  rw [h.methods, h.next, Table.insert_mapValues]
  rfl

theorem declareClass (h : Renames m d name r r') {c : ClassDecl} (hids : d ∉ c.memberIds) :
    Renames m d name (declareClass voc r c)
      (declareClass voc r' (c.relabel (m.rename d name))) := by
  have hself : c.id ≠ d := fun he => hids (he ▸ c.mem_memberIds_self)
  have hmethodIds : ∀ method ∈ c.methods, method.id ≠ d := fun method hm he =>
    hids (he ▸ ClassDecl.mem_memberIds_of_method hm)
  obtain ⟨site, x, fields, methods, nested⟩ := c
  have hfield : ∀ v ∈ fields, ∀ r r', Renames m d name r r' →
      Renames m d name (declareField voc site.id r v)
        (declareField voc site.id r' (v.relabel (m.rename d name))) := fun v _ _ _ hr =>
    hr.addSymbol v.name (.field site.id) (voc.types.qualify v.type) v.site
  have hmethod : ∀ method ∈ methods, ∀ r r', Renames m d name r r' →
      Renames m d name (Resolver.declareMethod voc site.id r method)
        (Resolver.declareMethod voc site.id r' (method.relabel (m.rename d name))) :=
    fun method hm _ _ hr => hr.declareMethod site.id (hmethodIds method hm)
  have hstart := h.addSymbol x .type (voc.types.lookup? x) site
  rw [show (m.rename d name).var site.id x = x from if_neg hself] at hstart
  have hfields := hstart.foldl hfield
  have hmethods := hfields.foldl hmethod
  refine hmethods.withMembers site.id ?_
  -- The members have the same numbers, since as many symbols came before them.
  rw [ClassMembers.mk.injEq]
  exact ⟨rfl, congrArg₂ consecutive hstart.next (List.length_map _),
    congrArg₂ consecutive hfields.next (List.length_map _)⟩

end Renames

end Resolver

end HandleLint
