import HandleLint.Proofs.SharedLookups
import HandleLint.Proofs.StepFrames

/-!
# Two runs that number symbols differently

Two resolvers may agree on everything but the numbers of some symbols: up to a point they gave out
the same numbers, then each gave out some for itself, and from there on they gave out numbers side
by side (`Renumbering`). Taking the same steps keeps them so, provided that no step looks at a node
that one of them knows more about than the other.

* `Renumbering.Ties`: the numbers that correspond;
* `Resolver.Simulates`: resolvers that agree up to a renumbering, except on given nodes;
* `Resolver.Simulates.callTarget`, `Resolver.Simulates.lookup?`: what they look up;
* `Resolver.Simulates.step`, `Resolver.Simulates.run`: taking the same steps;
* `Resolver.Simulates.fork`: taking different steps.
-/

namespace HandleLint

open HandleLint.Resolver (Step)

/-! ## Numbers -/

/-- How many symbols two runs have under the same numbers, and how many further ones each of them
has for itself. -/
structure Renumbering where
  shared : Nat
  left : Nat
  right : Nat

namespace Renumbering

variable {ρ : Renumbering} {a b c d : Nat}

/-- The numbers under which the two runs have the same symbol. -/
def Ties (ρ : Renumbering) (id id' : Nat) : Prop :=
  id < ρ.shared ∧ id' = id ∨ ∃ j, id = ρ.shared + ρ.left + j ∧ id' = ρ.shared + ρ.right + j

theorem ties_self (h : a < ρ.shared) : ρ.Ties a a :=
  .inl ⟨h, rfl⟩

theorem ties_same_iff {n : Nat} : Ties ⟨n, 0, 0⟩ a b ↔ a = b := by
  constructor
  · rintro (⟨-, rfl⟩ | ⟨j, rfl, rfl⟩) <;> rfl
  · rintro rfl
    rcases Nat.lt_or_ge a n with h | h
    · exact .inl ⟨h, rfl⟩
    · exact .inr ⟨a - n, (Nat.add_sub_cancel' h).symm, (Nat.add_sub_cancel' h).symm⟩

theorem Ties.left_unique (h : ρ.Ties a c) (h' : ρ.Ties b c) : a = b := by
  rcases h with ⟨ha, rfl⟩ | ⟨i, rfl, rfl⟩
  · rcases h' with ⟨hb, rfl⟩ | ⟨j, rfl, hj⟩ <;> omega
  · rcases h' with ⟨hb, rfl⟩ | ⟨j, rfl, hj⟩ <;> omega

theorem Ties.right_unique (h : ρ.Ties a c) (h' : ρ.Ties a d) : c = d := by
  rcases h with ⟨ha, rfl⟩ | ⟨i, rfl, rfl⟩
  · rcases h' with ⟨hb, rfl⟩ | ⟨j, hj, rfl⟩ <;> omega
  · rcases h' with ⟨hb, rfl⟩ | ⟨j, hj, rfl⟩ <;> omega

theorem Ties.eq_iff (h : ρ.Ties a c) (h' : ρ.Ties b d) : a = b ↔ c = d := by
  constructor
  · rintro rfl
    exact h.right_unique h'
  · rintro rfl
    exact h.left_unique h'

end Renumbering

/-- A symbol without its number. -/
def Symbol.anonymous (s : Symbol) : Symbol :=
  { s with id := 0 }

/-- Scopes of the same kind that bind the same names, to symbols that correspond. -/
structure Scope.Alike (tied : SymbolId → SymbolId → Prop) (s s' : Scope) : Prop where
  kind : s'.kind.class? = s.kind.class?
  bindings : ∀ name, Option.Rel tied ((s.bindings.get? name).map (·.symbol))
    ((s'.bindings.get? name).map (·.symbol))

section Chains

variable {tied tied' : SymbolId → SymbolId → Prop} {s s' : Scope} {chain chain' : List Scope}

theorem Scope.Alike.mono (h : s.Alike tied s') (hsub : ∀ a b, tied a b → tied' a b) :
    s.Alike tied' s' :=
  ⟨h.kind, fun name => rel_mono (h.bindings name) hsub⟩

theorem Scope.Alike.insertIfNew (h : s.Alike tied s') {id id' : SymbolId} (hid : tied id id')
    (name : String) (span : Span) :
    Scope.Alike tied { s with bindings := s.bindings.insertIfNew name ⟨id, span⟩ }
      { s' with bindings := s'.bindings.insertIfNew name ⟨id', span⟩ } := by
  refine ⟨h.kind, fun other => ?_⟩
  simp only [Table.get?_insertIfNew]
  by_cases hn : other = name
  · subst hn
    have hb := h.bindings other
    simp only [beq_self_eq_true, if_true, Option.map_some]
    generalize s.bindings.get? other = b at hb ⊢
    generalize s'.bindings.get? other = b' at hb ⊢
    cases b with
    | none =>
      cases b' with
      | none => exact .some hid
      | some => cases hb
    | some =>
      cases b' with
      | none => cases hb
      | some =>
        cases hb with
        | some hb => exact .some hb
  · simpa [hn] using h.bindings other

theorem ScopeTree.enclosingClasses_congr {t t' : ScopeTree}
    (h : List.Forall₂ (fun s s' => s'.kind.class? = s.kind.class?) t.chain t'.chain) :
    t'.enclosingClasses = t.enclosingClasses := by
  rw [enclosingClasses_eq, enclosingClasses_eq]
  exact (filterMap_eq_of_forall₂ (h.imp fun _ _ hs => hs.symm)).symm

theorem forall₂_bindInnermost (h : List.Forall₂ (Scope.Alike tied) chain chain')
    {id id' : SymbolId} (hid : tied id id') (name : String) (span : Span) :
    List.Forall₂ (Scope.Alike tied) (ScopeTree.bindInnermost name ⟨id, span⟩ chain)
      (ScopeTree.bindInnermost name ⟨id', span⟩ chain') := by
  cases h with
  | nil => exact .nil
  | cons hs houter => exact .cons (hs.insertIfNew hid name span) houter

end Chains

/-- None of the nodes of an expression is excepted. -/
def Expr.Avoids (e : Expr) (except : List NodeId) : Prop :=
  ∀ x, e.Inside x → x.id ∉ except

namespace Resolver

/-- Numbers that correspond, of symbols that there are. -/
def Tied (ρ : Renumbering) (r : Resolver) (id id' : SymbolId) : Prop :=
  ρ.Ties id id' ∧ id < r.symbols.next

/-- The resolvers agree up to a renumbering, except on the given nodes. -/
structure Simulates (except : List NodeId) (ρ : Renumbering) (r r' : Resolver) : Prop where
  next : ∃ j, r.symbols.next = ρ.shared + ρ.left + j ∧ r'.symbols.next = ρ.shared + ρ.right + j
  symbols : ∀ {id id'}, ρ.Ties id id' →
    (r'.symbol? id').map Symbol.anonymous = (r.symbol? id).map Symbol.anonymous
  members : r'.members = r.members
  shared : ∀ c, ∀ id ∈ (r.classMembers c).fields ++ (r.classMembers c).methods, id < ρ.shared
  scopes : List.Forall₂ (Scope.Alike (Tied ρ r)) r.scopes.chain r'.scopes.chain
  references : ∀ i ∉ except, Option.Rel (Tied ρ r) (r.reference? i) (r'.reference? i)
  declarations : ∀ i ∉ except, Option.Rel (Tied ρ r) (r.declaration? i) (r'.declaration? i)
  calls : ∀ i ∉ except, r'.callTarget? i = r.callTarget? i
  callees : ∀ i ∉ except, ∀ target, r.callTarget? i = some target →
    ∀ callee, target.callee = some callee → callee < ρ.shared

namespace Simulates

variable {except : List NodeId} {ρ : Renumbering} {r r' : Resolver}

/-! ## What is looked up -/

theorem shared_le (h : Simulates except ρ r r') : ρ.shared ≤ r.symbols.next := by
  obtain ⟨j, hj, -⟩ := h.next
  rw [hj, Nat.add_assoc]
  exact Nat.le_add_right _ _

theorem tied_self (h : Simulates except ρ r r') {id : SymbolId} (hid : id < ρ.shared) :
    Tied ρ r id id :=
  ⟨ρ.ties_self hid, Nat.lt_of_lt_of_le hid h.shared_le⟩

theorem lookup? (h : Simulates except ρ r r') (name : String) :
    Option.Rel (Tied ρ r) (r.scopes.lookup? name) (r'.scopes.lookup? name) := by
  unfold ScopeTree.lookup? ScopeTree.binding?
  rw [List.map_findSome?, List.map_findSome?]
  exact rel_findSome? (h.scopes.imp fun _ _ hs => hs.bindings name)

theorem enclosingClasses (h : Simulates except ρ r r') :
    r'.scopes.enclosingClasses = r.scopes.enclosingClasses :=
  ScopeTree.enclosingClasses_congr (h.scopes.imp fun _ _ hs => hs.kind)

theorem classMembers (h : Simulates except ρ r r') (c : NodeId) :
    r'.classMembers c = r.classMembers c := by
  rw [Resolver.classMembers, Resolver.classMembers, h.members]

theorem typeOf? (h : Simulates except ρ r r') {id id' : SymbolId} (hid : ρ.Ties id id') :
    r'.typeOf? id' = r.typeOf? id := by
  have hs := congrArg (Option.bind · Symbol.type) (h.symbols hid)
  simp only [Option.bind_map] at hs
  exact hs

theorem any_symbol? (h : Simulates except ρ r r') {id : SymbolId} (hid : id < ρ.shared)
    {p : Symbol → Bool} (hp : ∀ s : Symbol, p s.anonymous = p s) :
    (r'.symbol? id).any p = (r.symbol? id).any p := by
  have hs := congrArg (Option.any p) (h.symbols (ρ.ties_self hid))
  simp only [Option.any_map, hp] at hs
  exact hs

/-- Both know the same classes, under the same numbers. -/
theorem likens (h : Simulates except ρ r r') : Likens (fun i => i) (Tied ρ r) r r' where
  types := fun hid => h.typeOf? hid.1
  around := by rw [h.enclosingClasses, List.map_id']
  classNamed? := by
    intro voc name
    rw [Option.map_id_fun', Resolver.classNamed?, h.members]
    rfl
  members := h.classMembers
  shared := fun hid => h.tied_self (h.shared _ _ hid)
  names := fun hid _ => h.any_symbol? (h.shared _ _ hid) fun _ => rfl
  kinds := fun hid _ => h.any_symbol? (h.shared _ _ (List.mem_append_right _ hid)) fun _ => rfl

theorem alikeOn (h : Simulates except ρ r r') {e : Expr} (he : e.Avoids except) :
    AlikeOn {} (Tied ρ r) r r' e where
  references := fun {x} hx => h.references x.id (he x hx)
  calls := fun {x} hx => h.calls x.id (he x hx)
  names := fun _ _ => rfl

theorem ownField?_lt (h : Simulates except ρ r r') {name : String} {id : SymbolId}
    (hid : r.ownField? name = some id) : id < ρ.shared := by
  obtain ⟨c, hmem⟩ := mem_of_ownField? hid
  exact h.shared c id (List.mem_append_left _ hmem)

/-- Both find the same target of a call, and its method is under a number that they share. -/
theorem callTarget (h : Simulates except ρ r r') (voc : Vocabulary) {receiver : Option Expr}
    (hr : ∀ e ∈ receiver, e.Avoids except) (method : String) (arity : Nat) (span : Span) :
    (Resolver.callTarget voc r' receiver method arity span).1 =
        (Resolver.callTarget voc r receiver method arity span).1 ∧
      ∀ callee, (Resolver.callTarget voc r receiver method arity span).1.callee = some callee →
        callee < ρ.shared := by
  constructor
  · have hsame := Likens.callTarget (ρ := {}) h.likens voc (fun e he => h.alikeOn (hr e he)) method
      arity span
    rwa [Option.map_eq_self Expr.relabel_self] at hsame
  · intro callee hc
    obtain ⟨⟨c, hmem⟩, -⟩ := callsNamed_callTarget voc r receiver method arity span callee hc
    exact h.shared c callee (List.mem_append_right _ (List.mem_of_mem_filter hmem))

/-! ## What is written -/

theorem reported (h : Simulates except ρ r r') (problems problems' : Array Problem)
    (notes notes' : Array Note) :
    Simulates except ρ { r with problems, notes }
      { r' with problems := problems', notes := notes' } :=
  ⟨h.next, h.symbols, h.members, h.shared, h.scopes, h.references, h.declarations,
    h.calls, h.callees⟩

theorem refer (h : Simulates except ρ r r') {id id' : SymbolId} (hid : Tied ρ r id id')
    (i : NodeId) : Simulates except ρ (r.refer i id) (r'.refer i id') := by
  refine ⟨h.next, h.symbols, h.members, h.shared, h.scopes, fun j hj => ?_,
    h.declarations, h.calls, h.callees⟩
  simp only [Model.reference?, Resolver.refer, Table.get?_insert]
  split
  · exact .some hid
  · exact h.references j hj

theorem recorded (h : Simulates except ρ r r') {target : CallTarget}
    (hcallee : ∀ callee, target.callee = some callee → callee < ρ.shared) (i : NodeId) :
    Simulates except ρ { r with calls := r.calls.insert i target }
      { r' with calls := r'.calls.insert i target } := by
  refine ⟨h.next, h.symbols, h.members, h.shared, h.scopes, h.references,
    h.declarations, fun j hj => ?_, fun j hj other => ?_⟩
  · simp only [Model.callTarget?, Table.get?_insert]
    split
    · rfl
    · exact h.calls j hj
  · simp only [Model.callTarget?, Table.get?_insert]
    split
    · rintro ⟨⟩
      exact hcallee
    · exact h.callees j hj other

theorem withScopes (h : Simulates except ρ r r') {t t' : ScopeTree}
    (hscopes : List.Forall₂ (Scope.Alike (Tied ρ r)) t.chain t'.chain)
    (problems problems' : Array Problem) :
    Simulates except ρ { r with scopes := t, problems }
      { r' with scopes := t', problems := problems' } :=
  ⟨h.next, h.symbols, h.members, h.shared, hscopes, h.references, h.declarations, h.calls,
    h.callees⟩

theorem tied_next (h : Simulates except ρ r r') :
    ρ.Ties r.symbols.next r'.symbols.next := by
  obtain ⟨j, hj, hj'⟩ := h.next
  exact .inr ⟨j, hj, hj'⟩

theorem addSymbol (h : Simulates except ρ r r') (name : String) (kind : SymbolKind)
    (type : Option String) (site : Site) :
    Simulates except ρ (r.addSymbol name kind type site) (r'.addSymbol name kind type site) := by
  have hnext : (r.addSymbol name kind type site).symbols.next = r.symbols.next + 1 :=
    SymbolTable.next_insert _ _ _ _ _
  have hkeep : ∀ a b, Tied ρ r a b → Tied ρ (r.addSymbol name kind type site) a b := by
    intro a b hab
    refine ⟨hab.1, ?_⟩
    rw [hnext]
    exact Nat.lt_succ_of_lt hab.2
  constructor
  case next =>
    obtain ⟨j, hj, hj'⟩ := h.next
    refine ⟨j + 1, ?_, ?_⟩
    · rw [hnext, hj, Nat.add_assoc]
    · rw [Resolver.addSymbol, SymbolTable.next_insert, hj', Nat.add_assoc]
  case symbols =>
    intro id id' hid
    simp only [Model.symbol?, Resolver.addSymbol, SymbolTable.get?_insert]
    by_cases hn : id = r.symbols.next
    · rw [if_pos hn, if_pos ((hid.eq_iff h.tied_next).1 hn)]
      rfl
    · rw [if_neg hn, if_neg (hn ∘ (hid.eq_iff h.tied_next).2)]
      exact h.symbols hid
  case members => exact h.members
  case shared => exact h.shared
  case scopes => exact h.scopes.imp fun _ _ hs => hs.mono hkeep
  case references => exact fun i hi => rel_mono (h.references i hi) hkeep
  case declarations =>
    intro i hi
    simp only [Model.declaration?, Resolver.addSymbol, Table.get?_insert]
    split
    · refine .some ⟨h.tied_next, ?_⟩
      rw [SymbolTable.next_insert]
      exact Nat.lt_succ_self _
    · exact rel_mono (h.declarations i hi) hkeep
  case calls => exact h.calls
  case callees => exact h.callees

/-! ## Steps -/

theorem visit (h : Simulates except ρ r r') (voc : Vocabulary) {e : Expr} (he : e.Avoids except) :
    Simulates except ρ (Resolver.visit voc r e) (Resolver.visit voc r' e) := by
  cases e with
  | ident s name =>
    have hl := h.lookup? name
    simp only [Resolver.visit]
    generalize r.scopes.lookup? name = found, r'.scopes.lookup? name = found' at hl
    cases hl with
    | none =>
      simp only
      split
      · exact h.reported _ _ _ _
      · exact h
    | some hid => exact h.refer hid s.id
  | field s object name =>
    simp only [Resolver.visit, h.likens.ownField?]
    split
    · rename_i id hid
      have hown : r.ownField? name = some id := by
        split at hid
        · exact hid
        · cases hid
      exact h.refer (h.tied_self (h.ownField?_lt hown)) s.id
    · exact h
  | call s receiver method args =>
    have hreceiver : ∀ e ∈ receiver, e.Avoids except := by
      intro e hm x hx
      exact he x (.head (List.mem_append_left _ (Option.mem_toList.2 hm)) hx)
    obtain ⟨heq, hlt⟩ := h.callTarget voc hreceiver method args.length s.span
    obtain ⟨problems, notes, ht⟩ := exists_callTarget voc r receiver method args.length s.span
    obtain ⟨problems', notes', ht'⟩ := exists_callTarget voc r' receiver method args.length s.span
    simp only [Resolver.visit, ht, ht', heq]
    exact (h.reported problems problems' notes notes').recorded hlt s.id
  | _ => exact h

theorem enter (h : Simulates except ρ r r') {kind kind' : ScopeKind}
    (hk : kind'.class? = kind.class?) : Simulates except ρ (r.enter kind) (r'.enter kind') := by
  refine h.withScopes ?_ _ _
  rw [ScopeTree.chain_enter, ScopeTree.chain_enter]
  exact .cons ⟨hk, fun _ => .none⟩ h.scopes

theorem leave (h : Simulates except ρ r r') : Simulates except ρ r.leave r'.leave := by
  refine h.withScopes ?_ _ _
  rw [ScopeTree.chain_leave, ScopeTree.chain_leave]
  exact forall₂_tail h.scopes

theorem declared (h : Simulates except ρ r r') {id id' : SymbolId} (hid : Tied ρ r id id')
    (name : String) (span : Span) (problems problems' : Array Problem) :
    Simulates except ρ { r with scopes := r.scopes.declared name ⟨id, span⟩, problems }
      { r' with scopes := r'.scopes.declared name ⟨id', span⟩, problems := problems' } := by
  refine h.withScopes ?_ _ _
  rw [ScopeTree.chain_declared, ScopeTree.chain_declared]
  exact forall₂_bindInnermost h.scopes hid name span

theorem declaredAll (h : Simulates except ρ r r') {entries : List (VarDecl × SymbolId)}
    (hids : ∀ entry ∈ entries, entry.2 < ρ.shared) (problems problems' : Array Problem) :
    Simulates except ρ { r with scopes := r.scopes.declaredAll entries, problems }
      { r' with scopes := r'.scopes.declaredAll entries, problems := problems' } := by
  induction entries generalizing r r' with
  | nil => exact h.withScopes h.scopes _ _
  | cons entry rest ih =>
    obtain ⟨hentry, hrest⟩ := List.forall_mem_cons.1 hids
    have hbound := h.declared (h.tied_self hentry) entry.1.name entry.1.span r.problems r'.problems
    exact ih hbound hrest

/-- Taking the same step keeps resolvers in agreement. -/
theorem step (h : Simulates except ρ r r') (voc : Vocabulary) {s : Step}
    (hs : ∀ e, s = .visit e → e.Avoids except) :
    Simulates except ρ (Resolver.step voc r s) (Resolver.step voc r' s) := by
  cases s with
  | openClass c =>
    obtain ⟨problems, hr⟩ := exists_openClass voc r c
    obtain ⟨problems', hr'⟩ := exists_openClass voc r' c
    rw [hr, hr', h.classMembers]
    refine (@enter _ _ _ _ h (.classBody c.id) _ rfl).declaredAll (fun entry hm => ?_) _ _
    exact h.shared c.id _ (List.mem_append_left _ (List.of_mem_zip hm).2)
  | openMethod m => exact h.enter rfl
  | openBlock => exact h.enter rfl
  | leave => exact h.leave
  | visit e => exact h.visit voc (hs e rfl)
  | declare kind v =>
    obtain ⟨problems, hr⟩ := exists_declare voc r kind v
    obtain ⟨problems', hr'⟩ := exists_declare voc r' kind v
    have hadded := h.addSymbol v.name kind (voc.types.qualify v.type) v.site
    rw [hr, hr']
    refine hadded.declared ⟨h.tied_next, ?_⟩ v.name v.span _ _
    rw [Resolver.addSymbol, SymbolTable.next_insert]
    exact Nat.lt_succ_self _

theorem run (h : Simulates except ρ r r') (voc : Vocabulary) {steps : List Step}
    (hs : ∀ e, .visit e ∈ steps → e.Avoids except) :
    Simulates except ρ (Resolver.run voc r steps) (Resolver.run voc r' steps) := by
  induction steps generalizing r r' with
  | nil => exact h
  | cons s rest ih =>
    refine ih (h.step voc fun e he => hs e ?_) fun e he => hs e (List.mem_cons_of_mem s he)
    rw [he]
    exact List.mem_cons_self

end Simulates

/-- Resolvers that agree under the same numbers go different ways, each of which ends in the scopes
where it began. From there on each has symbols for itself, and what the ways wrote about is
excepted. -/
theorem Simulates.fork {n : Nat} {ids ids' : List NodeId} {r r' t t' : Resolver}
    (h : Simulates [] ⟨n, 0, 0⟩ r r') (hframe : Frame ids r t) (hframe' : Frame ids' r' t')
    (hscopes : t.scopes.chain = r.scopes.chain)
    (hscopes' : t'.scopes.chain = r'.scopes.chain) :
    Simulates (ids ++ ids') ⟨r.symbols.next, t.symbols.next - r.symbols.next,
      t'.symbols.next - r.symbols.next⟩ t t' := by
  have hsame : r'.symbols.next = r.symbols.next := by
    obtain ⟨j, hj, hj'⟩ := h.next
    rw [hj, hj']
  have hle : r.symbols.next ≤ t.symbols.next := hframe.next_le
  have hle' : r.symbols.next ≤ t'.symbols.next := hsame ▸ hframe'.next_le
  have hkeep : ∀ a b, Tied ⟨n, 0, 0⟩ r a b →
      Tied ⟨r.symbols.next, t.symbols.next - r.symbols.next, t'.symbols.next - r.symbols.next⟩ t
        a b := by
    rintro a b ⟨hab, ha⟩
    cases Renumbering.ties_same_iff.1 hab
    exact ⟨.inl ⟨ha, rfl⟩, Nat.lt_of_lt_of_le ha hle⟩
  have hmembers : t.classMembers = r.classMembers := by
    funext c
    rw [Resolver.classMembers, hframe.members, Resolver.classMembers]
  have hout : ∀ i, i ∉ ids ++ ids' → i ∉ ids ∧ i ∉ ids' := fun i hi =>
    not_or.1 (List.mem_append.not.1 hi)
  constructor
  case next =>
    exact ⟨0, (Nat.add_sub_cancel' hle).symm, (Nat.add_sub_cancel' hle').symm⟩
  case symbols =>
    rintro id id' (⟨hid, rfl⟩ | ⟨j, rfl, rfl⟩)
    · rw [hframe.symbols _ hid, hframe'.symbols _ (hsame.symm ▸ hid)]
      exact h.symbols (Renumbering.ties_same_iff.2 rfl)
    · -- Numbers that neither of them has given out yet.
      simp only [Nat.add_sub_cancel' hle, Nat.add_sub_cancel' hle']
      rw [Model.symbol?, Model.symbol?, SymbolTable.get?_eq_none (Nat.le_add_right _ j),
        SymbolTable.get?_eq_none (Nat.le_add_right _ j)]
  case members => rw [hframe.members, hframe'.members, h.members]
  case shared =>
    intro c id hid
    rw [hmembers] at hid
    exact Nat.lt_of_lt_of_le (h.shared c id hid) h.shared_le
  case scopes =>
    rw [hscopes, hscopes']
    exact h.scopes.imp fun _ _ hs => hs.mono hkeep
  case references =>
    intro i hi
    rw [hframe.references i (hout i hi).1, hframe'.references i (hout i hi).2]
    exact rel_mono (h.references i List.not_mem_nil) hkeep
  case declarations =>
    intro i hi
    rw [hframe.declarations i (hout i hi).1, hframe'.declarations i (hout i hi).2]
    exact rel_mono (h.declarations i List.not_mem_nil) hkeep
  case calls =>
    intro i hi
    rw [hframe.calls i (hout i hi).1, hframe'.calls i (hout i hi).2]
    exact h.calls i List.not_mem_nil
  case callees =>
    intro i hi target ht callee hc
    rw [hframe.calls i (hout i hi).1] at ht
    exact Nat.lt_of_lt_of_le (h.callees i List.not_mem_nil target ht callee hc) h.shared_le

end Resolver

end HandleLint
