import HandleLint.Proofs.EventNodes
import HandleLint.Proofs.SymbolOrigins

/-!
# What steps leave as it is

Steps write about the nodes that they name and about no others, and only add symbols (`Frame`).
Going through a method also leaves the scopes around as they were: its steps are balanced.

* `Resolver.frame_run`: the frame of any steps;
* `Resolver.Balanced`: steps that leave each scope that they open;
* `MethodDecl.scopes_run`: the scopes after a method.
-/

namespace HandleLint

open HandleLint.Resolver (Step)
open HandleLint.Action (inScope evaluateAll)

namespace Resolver

variable {voc : Vocabulary} {r r' r'' : Resolver}

/-- From `r` to `r'`, symbols are added, and tables change at most at the given nodes. -/
structure Frame (ids : List NodeId) (r r' : Resolver) : Prop where
  members : r'.members = r.members
  methods : r'.methods = r.methods
  next_le : r.symbols.next ≤ r'.symbols.next
  symbols : ∀ id < r.symbols.next, r'.symbol? id = r.symbol? id
  references : ∀ i ∉ ids, r'.reference? i = r.reference? i
  declarations : ∀ i ∉ ids, r'.declaration? i = r.declaration? i
  calls : ∀ i ∉ ids, r'.callTarget? i = r.callTarget? i

namespace Frame

variable {ids ids' : List NodeId}

theorem refl (r : Resolver) : Frame [] r r where
  members := rfl
  methods := rfl
  next_le := Nat.le_refl _
  symbols := fun _ _ => rfl
  references := fun _ _ => rfl
  declarations := fun _ _ => rfl
  calls := fun _ _ => rfl

theorem trans (h : Frame ids r r') (h' : Frame ids' r' r'') : Frame (ids ++ ids') r r'' where
  members := h'.members.trans h.members
  methods := h'.methods.trans h.methods
  next_le := Nat.le_trans h.next_le h'.next_le
  symbols := by
    intro id hid
    rw [h'.symbols id (Nat.lt_of_lt_of_le hid h.next_le), h.symbols id hid]
  references := by
    intro i hi
    rw [List.mem_append, not_or] at hi
    rw [h'.references i hi.2, h.references i hi.1]
  declarations := by
    intro i hi
    rw [List.mem_append, not_or] at hi
    rw [h'.declarations i hi.2, h.declarations i hi.1]
  calls := by
    intro i hi
    rw [List.mem_append, not_or] at hi
    rw [h'.calls i hi.2, h.calls i hi.1]

theorem mono (h : Frame ids r r') (hsub : ids ⊆ ids') : Frame ids' r r' where
  members := h.members
  methods := h.methods
  next_le := h.next_le
  symbols := h.symbols
  references := fun i hi => h.references i fun hm => hi (hsub hm)
  declarations := fun i hi => h.declarations i fun hm => hi (hsub hm)
  calls := fun i hi => h.calls i fun hm => hi (hsub hm)

end Frame

/-- Visiting a call writes the target that is found for it. -/
theorem callTarget?_visit_call (voc : Vocabulary) (r : Resolver) (site : Site)
    (receiver : Option Expr) (method : String) (args : List Expr) :
    (visit voc r (.call site receiver method args)).callTarget? site.id =
      some (callTarget voc r receiver method args.length site.span).1 := by
  simp [visit, Model.callTarget?]

theorem callTarget?_step_of_ne (voc : Vocabulary) (r : Resolver) {s : Step} {i : NodeId}
    (hi : s.visited? ≠ some i) : (step voc r s).callTarget? i = r.callTarget? i := by
  rw [Model.callTarget?, calls_step]
  cases s with
  | visit e =>
    cases e with
    | call site receiver method args =>
      have hne : i ≠ site.id := fun he => hi (congrArg some he.symm)
      simp [record?, writeCalls, Expr.id, Expr.site, hne, Model.callTarget?]
    | _ => rfl
  | _ => rfl

theorem callTarget?_run_of_not_mem (voc : Vocabulary) (r : Resolver) {steps : List Step}
    {i : NodeId} (hi : i ∉ steps.filterMap Step.visited?) :
    (run voc r steps).callTarget? i = r.callTarget? i := by
  induction steps generalizing r with
  | nil => rfl
  | cons s rest ih =>
    simp only [List.mem_filterMap, List.mem_cons, not_exists, not_and] at hi ih
    rw [run_cons, ih _ fun s' hs' => hi s' (.inr hs'),
      callTarget?_step_of_ne voc r (hi s (.inl rfl))]

theorem symbols_step (voc : Vocabulary) (r : Resolver) (s : Step) :
    r.symbols.next ≤ (step voc r s).symbols.next ∧
      ∀ id < r.symbols.next, (step voc r s).symbol? id = r.symbol? id := by
  obtain ⟨e, _, _, _, _, -, h, -⟩ | ⟨kind, v, _, _, -, h⟩ | ⟨-, _, _, h⟩ := step_cases voc r s
  · rw [h]
    exact ⟨Nat.le_refl _, fun _ _ => rfl⟩
  · rw [h]
    constructor
    · rw [addSymbol, SymbolTable.next_insert]
      exact Nat.le_succ _
    · intro id hid
      rw [Model.symbol?, addSymbol, SymbolTable.get?_insert, if_neg (Nat.ne_of_lt hid)]
      rfl
  · rw [h]
    exact ⟨Nat.le_refl _, fun _ _ => rfl⟩

theorem frame_step (voc : Vocabulary) (r : Resolver) (s : Step) : Frame s.ids r (step voc r s) where
  members := step_members voc r s
  methods := by
    obtain ⟨e, _, _, _, _, -, h, -⟩ | ⟨kind, v, _, _, -, h⟩ | ⟨-, _, _, h⟩ := step_cases voc r s
    · rw [h]
    · rw [h]
      rfl
    · rw [h]
  next_le := (symbols_step voc r s).1
  symbols := (symbols_step voc r s).2
  references := by
    intro i hi
    refine reference?_step_of_ne voc r fun hs => hi (s.visited?_sublist.subset ?_)
    exact Option.mem_toList.2 hs
  declarations := by
    intro i hi
    refine declaration?_step_of_ne voc r fun hs => hi (s.declared?_sublist.subset ?_)
    exact Option.mem_toList.2 hs
  calls := by
    intro i hi
    refine callTarget?_step_of_ne voc r fun hs => hi (s.visited?_sublist.subset ?_)
    exact Option.mem_toList.2 hs

/-- Steps change the tables at the nodes that they write about. -/
theorem frame_run (voc : Vocabulary) (r : Resolver) (steps : List Step) :
    Frame (steps.flatMap Step.ids) r (run voc r steps) := by
  induction steps generalizing r with
  | nil => exact Frame.refl r
  | cons s rest ih => exact (frame_step voc r s).trans (ih (step voc r s))

/-! ## Balanced steps -/

/-- Steps that leave each block that they open, and no other scope. -/
inductive Balanced : List Step → Prop
  | nil : Balanced []
  | visit (e : Expr) : Balanced [.visit e]
  | declare (kind : SymbolKind) (v : VarDecl) : Balanced [.declare kind v]
  | scope {inner : List Step} : Balanced inner → Balanced (.openBlock :: (inner ++ [.leave]))
  | append {first rest : List Step} : Balanced first → Balanced rest → Balanced (first ++ rest)

theorem Balanced.flatMap {α : Type} {f : α → List Step} {as : List α}
    (h : ∀ a ∈ as, Balanced (f a)) : Balanced (as.flatMap f) := by
  induction as with
  | nil => exact .nil
  | cons a rest ih =>
    obtain ⟨ha, hrest⟩ := List.forall_mem_cons.1 h
    exact .append ha (ih hrest)

/-- Leaving a scope, when those around it are what they were when it was opened. -/
theorem scopes_leave {kind : ScopeKind}
    (htail : r'.scopes.chain.tail = (r.enter kind).scopes.chain.tail) :
    r'.leave.scopes.chain = r.scopes.chain := by
  rw [leave, ScopeTree.chain_leave, htail, enter, ScopeTree.chain_enter, List.tail_cons]

/-- Balanced steps change no scope but the innermost. -/
theorem Balanced.scopes_run {steps : List Step} (h : Balanced steps) :
    (run voc r steps).scopes.chain.tail = r.scopes.chain.tail := by
  induction h generalizing r with
  | nil => rfl
  | visit e =>
    obtain ⟨_, _, _, _, hs, -⟩ := exists_visit voc r e
    rw [run_cons, run_nil, step, hs]
  | declare kind v =>
    obtain ⟨_, hs⟩ := exists_declare voc r kind v
    rw [run_cons, run_nil, hs]
    exact ScopeTree.tail_chain_declared _ _ _
  | scope _ ih =>
    rw [run_cons, run_append, run_cons, run_nil]
    exact congrArg List.tail (scopes_leave ih)
  | append _ _ ih ih' =>
    rw [run_append]
    exact ih'.trans ih

end Resolver

open HandleLint.Resolver (Balanced)

theorem Expr.balanced (e : Expr) : Balanced e.steps := by
  rw [steps, List.map_eq_flatMap]
  exact .flatMap fun x _ => .visit x

theorem Expr.balanced_all (es : List Expr) : Balanced (es.flatMap Expr.steps) :=
  .flatMap fun e _ => e.balanced

namespace Action

theorem balanced_declare (origin : VarOrigin) (v : VarDecl) :
    Balanced (Action.declare origin v).steps :=
  .append (Expr.balanced_all _) (.declare _ _)

theorem balanced_inScope {actions : List Action} (h : Balanced (actions.flatMap steps)) :
    Balanced ((inScope actions).flatMap steps) := by
  have hscope := Balanced.scope h
  simpa [inScope, steps] using hscope

theorem balanced_evaluateAll (values : List Expr) :
    Balanced ((evaluateAll values).flatMap steps) := by
  rw [evaluateAll, List.flatMap_map]
  exact Expr.balanced_all values

theorem balanced_actionsOf {body : List Stmt}
    (h : ∀ s ∈ body, Balanced (s.actions.flatMap steps)) :
    Balanced ((actionsOf body).flatMap steps) := by
  rw [actionsOf_eq_flatMap, List.flatMap_assoc]
  exact .flatMap h

theorem balanced_actionsOfCatches {catches : List CatchClause}
    (h : ∀ s ∈ catches.flatMap CatchClause.body, Balanced (s.actions.flatMap steps)) :
    Balanced ((actionsOfCatches catches).flatMap steps) := by
  induction catches with
  | nil =>
    rw [actionsOfCatches]
    exact .nil
  | cons c rest ih =>
    obtain ⟨param, body⟩ := c
    obtain ⟨hbody, hrest⟩ := List.forall_mem_append.1 h
    have hcatch : Balanced ((Action.declare .catchParam param :: actionsOf body).flatMap steps) :=
      .append (balanced_declare _ _) (balanced_actionsOf hbody)
    rw [actionsOfCatches, List.flatMap_append]
    exact .append (balanced_inScope hcatch) (ih hrest)

end Action

namespace Stmt

open HandleLint.Action

/-- The steps of a statement are balanced, if those of the statements inside it are. -/
theorem balanced_level (s : Stmt) (h : ∀ t ∈ s.inner, Balanced (t.actions.flatMap Action.steps)) :
    Balanced (s.actions.flatMap Action.steps) := by
  cases s with
  | exprStmt site value => simpa [actions, Action.steps] using value.balanced
  | localVar site var => simpa [actions] using balanced_declare .localVar var
  | returnStmt site value =>
    rw [actions]
    exact balanced_evaluateAll _
  | block site body =>
    rw [actions]
    exact balanced_inScope (balanced_actionsOf h)
  | ifStmt site condition thenBranch elseBranch =>
    obtain ⟨hthen, helse⟩ := List.forall_mem_append.1 h
    have hhead := condition.balanced.append (balanced_inScope (balanced_actionsOf hthen))
    cases elseBranch with
    | none =>
      rw [actions]
      exact hhead
    | some elseBranch =>
      rw [actions, List.flatMap_append]
      exact hhead.append (balanced_inScope (balanced_actionsOf helse))
  | whileStmt site condition body =>
    rw [actions]
    exact condition.balanced.append (balanced_inScope (balanced_actionsOf h))
  | forStmt site init condition update body =>
    obtain ⟨hinit, hbody⟩ := List.forall_mem_append.1 h
    have hhead := ((balanced_actionsOf hinit).append (balanced_evaluateAll condition.toList)).append
      (balanced_evaluateAll update)
    have hloop := hhead.append (balanced_inScope (balanced_actionsOf hbody))
    simp only [← List.flatMap_append] at hloop
    rw [actions]
    exact balanced_inScope hloop
  | forEachStmt site var iterated body =>
    have hloop := (balanced_declare .loopVar var).append (balanced_inScope (balanced_actionsOf h))
    rw [← List.flatMap_cons] at hloop
    rw [actions]
    exact iterated.balanced.append (balanced_inScope hloop)
  | tryStmt site rs body catches finallyBlock =>
    obtain ⟨hrest, hfinally⟩ := List.forall_mem_append.1 h
    obtain ⟨hbody, hcatches⟩ := List.forall_mem_append.1 hrest
    have hrs : Balanced ((rs.map (Action.declare .tryResource)).flatMap Action.steps) := by
      rw [List.flatMap_map]
      exact .flatMap fun v _ => balanced_declare .tryResource v
    have hinside := hrs.append (balanced_inScope (balanced_actionsOf hbody))
    rw [← List.flatMap_append] at hinside
    have hhead := (balanced_inScope hinside).append (balanced_actionsOfCatches hcatches)
    cases finallyBlock with
    | none =>
      rw [actions, List.flatMap_append]
      exact hhead
    | some finallyBlock =>
      rw [actions, List.flatMap_append, List.flatMap_append]
      exact hhead.append (balanced_inScope (balanced_actionsOf hfinally))
  | throwStmt site value => simpa [actions, Action.steps] using value.balanced
  | breakStmt site =>
    rw [actions]
    exact .nil
  | continueStmt site =>
    rw [actions]
    exact .nil

theorem balanced (s : Stmt) : Balanced (s.actions.flatMap Action.steps) := by
  induction s using induction_inner with
  | step s ih => exact balanced_level s ih

end Stmt

/-- After a method the scopes around it are what they were. -/
theorem MethodDecl.scopes_run (m : MethodDecl) (voc : Vocabulary) (r : Resolver) :
    (Resolver.run voc r m.steps).scopes.chain = r.scopes.chain := by
  unfold steps
  cases m.body with
  | none => rfl
  | some body =>
    have hparams : Balanced (m.params.map (.declare .parameter)) := by
      rw [List.map_eq_flatMap]
      exact .flatMap fun v _ => .declare .parameter v
    have hinside := hparams.append (Action.balanced_actionsOf fun s (_ : s ∈ body) => s.balanced)
    have htail := @Balanced.scopes_run voc (Resolver.step voc r (.openMethod m)) _ hinside
    simp only [List.cons_append, Resolver.run_cons, Resolver.run_append, Resolver.run_nil]
      at htail ⊢
    exact Resolver.scopes_leave htail

end HandleLint
