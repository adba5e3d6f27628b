import HandleLint.Proofs.ScopeStack
import HandleLint.Resolution.Resolver

/-!
# Resolving names, step by step

Going through the bodies of a unit is a recursion over classes, methods and statements. Here it is
flattened into one list of steps, each of which touches the tables once, so that what holds of every
step holds of the whole.

* `Resolver.Step`, `Resolver.step`: the steps and what they do;
* `Action.steps`, `MethodDecl.steps`, `ClassDecl.steps`: the steps of a piece of the tree;
* `Resolver.step_cases`: what a step can do;
* `Resolver.resolveClasses_eq_run`: resolving classes whose methods are declared is taking their
  steps.
-/

namespace HandleLint

namespace Resolver

inductive Step
  /-- A scope for a class, with its fields bound. -/
  | openClass (c : ClassDecl)
  | openMethod (m : MethodDecl)
  | openBlock
  | leave
  | visit (e : Expr)
  | declare (kind : SymbolKind) (v : VarDecl)

def step (voc : Vocabulary) (r : Resolver) : Step → Resolver
  | .openClass c => (r.enter (.classBody c.id)).bindFields c
  | .openMethod m => r.enter (.methodBody ((r.declaration? m.id).getD 0))
  | .openBlock => r.enter .block
  | .leave => r.leave
  | .visit e => r.visit voc e
  | .declare kind v => r.addBinding v kind (voc.types.qualify v.type)

/-- Takes steps one after the other. -/
def run (voc : Vocabulary) (r : Resolver) (steps : List Step) : Resolver :=
  steps.foldl (step voc) r

end Resolver

open HandleLint.Resolver (Step)

/-! ## The steps of a tree -/

/-- The steps for an expression: its parts, then itself. -/
def Expr.steps (e : Expr) : List Step :=
  e.postorder.map .visit

def Action.steps : Action → List Step
  | .enter => [.openBlock]
  | .leave => [.leave]
  | .evaluate e => e.steps
  | .declare origin v => v.init.toList.flatMap Expr.steps ++ [.declare (.var origin) v]

def MethodDecl.steps (m : MethodDecl) : List Step :=
  match m.body with
  | some body =>
    .openMethod m :: m.params.map (.declare .parameter) ++ (actionsOf body).flatMap Action.steps ++
      [.leave]
  | none => []

namespace ClassDecl

mutual

def steps : ClassDecl → List Step
  | c@⟨_, _, fields, methods, nested⟩ =>
    .openClass c :: (fields.flatMap (·.init.toList)).flatMap Expr.steps ++
      methods.flatMap MethodDecl.steps ++ stepsOf nested ++ [.leave]

def stepsOf : List ClassDecl → List Step
  | [] => []
  | c :: cs => steps c ++ stepsOf cs

end

/-- The steps of a class between opening it and going into its member classes. -/
def ownSteps (c : ClassDecl) : List Step :=
  (c.fields.flatMap (·.init.toList)).flatMap Expr.steps ++ c.methods.flatMap MethodDecl.steps

theorem steps_eq (c : ClassDecl) :
    c.steps = .openClass c :: c.ownSteps ++ stepsOf c.nested ++ [.leave] := by
  obtain ⟨site, name, fields, methods, nested⟩ := c
  rw [steps]
  simp [ownSteps]

mutual

theorem mem_steps {s : Step} : (c : ClassDecl) → s ∈ c.steps →
    s = .leave ∨ ∃ d ∈ c.withNested, s = .openClass d ∨ s ∈ d.ownSteps
  | ⟨site, name, fields, methods, nested⟩, h => by
    rw [withNested]
    simp only [steps_eq, List.cons_append, List.mem_cons, List.mem_append, List.not_mem_nil,
      or_false] at h
    rcases h with h | (h | h) | h
    · exact .inr ⟨_, List.mem_cons_self, .inl h⟩
    · exact .inr ⟨_, List.mem_cons_self, .inr h⟩
    · exact (mem_stepsOf nested h).imp_right fun ⟨d, hd, hs⟩ =>
        ⟨d, List.mem_cons_of_mem _ hd, hs⟩
    · exact .inl h

/-- The steps of classes are those that open and leave them, and their own ones. -/
theorem mem_stepsOf {s : Step} : (cs : List ClassDecl) → s ∈ stepsOf cs →
    s = .leave ∨ ∃ d ∈ withNestedAll cs, s = .openClass d ∨ s ∈ d.ownSteps
  | [], h => by
    rw [stepsOf] at h
    cases h
  | c :: cs, h => by
    rw [stepsOf, List.mem_append] at h
    simp only [withNestedAll, List.mem_append, or_and_right, exists_or]
    rcases h with h | h
    · exact (mem_steps c h).imp_right .inl
    · exact (mem_stepsOf cs h).imp_right .inr

end

mutual

theorem ownSteps_subset_steps {d : ClassDecl} : (c : ClassDecl) → d ∈ c.withNested →
    d.ownSteps ⊆ c.steps
  | ⟨site, name, fields, methods, nested⟩, hd => by
    rw [withNested] at hd
    intro s hs
    simp only [steps_eq, List.mem_append, List.mem_cons]
    rcases List.mem_cons.1 hd with rfl | hd
    · exact .inl (.inl (.inr hs))
    · exact .inl (.inr (ownSteps_subset_stepsOf nested hd hs))

/-- Every class takes its own steps. -/
theorem ownSteps_subset_stepsOf {d : ClassDecl} : (cs : List ClassDecl) → d ∈ withNestedAll cs →
    d.ownSteps ⊆ stepsOf cs
  | [], hd => by
    rw [withNestedAll] at hd
    cases hd
  | c :: cs, hd => by
    rw [withNestedAll] at hd
    rw [stepsOf]
    rcases List.mem_append.1 hd with hd | hd
    · exact fun s hs => List.mem_append_left _ (ownSteps_subset_steps c hd hs)
    · exact fun s hs => List.mem_append_right _ (ownSteps_subset_stepsOf cs hd hs)

end

end ClassDecl

/-- Every method of a unit takes its steps. -/
theorem CompilationUnit.steps_subset_of_method {u : CompilationUnit} {m : MethodDecl}
    (hm : m ∈ u.allMethods) : m.steps ⊆ ClassDecl.stepsOf u.classes := by
  obtain ⟨c, hc, hm⟩ := List.mem_flatMap.1 hm
  intro s hs
  refine ClassDecl.ownSteps_subset_stepsOf u.classes hc (List.mem_append_right _ ?_)
  exact List.mem_flatMap.2 ⟨m, hm, hs⟩

/-! ## Steps that declare variables -/

theorem Expr.declare_not_mem_steps (e : Expr) (kind : SymbolKind) (v : VarDecl) :
    .declare kind v ∉ e.steps := by
  simp [steps]

theorem Action.declare_mem_steps {a : Action} {kind : SymbolKind} {v : VarDecl} :
    .declare kind v ∈ a.steps ↔ ∃ origin, kind = .var origin ∧ a = .declare origin v := by
  cases a with
  | declare origin w =>
    simp only [steps, List.mem_append, List.mem_flatMap, Expr.declare_not_mem_steps, and_false,
      exists_false, false_or, List.mem_singleton, Step.declare.injEq, Action.declare.injEq]
    constructor
    · rintro ⟨rfl, rfl⟩
      exact ⟨origin, rfl, rfl, rfl⟩
    · rintro ⟨origin', rfl, rfl, rfl⟩
      exact ⟨rfl, rfl⟩
  | evaluate e => simp [steps, Expr.declare_not_mem_steps]
  | enter => simp [steps]
  | leave => simp [steps]

/-- A method declares its parameters and the variables of its body. -/
theorem MethodDecl.declare_mem_steps {m : MethodDecl} {kind : SymbolKind} {v : VarDecl}
    (h : .declare kind v ∈ m.steps) :
    ∃ body, m.body = some body ∧ (kind = .parameter ∧ v ∈ m.params ∨
      ∃ origin, kind = .var origin ∧ .declare origin v ∈ actionsOf body) := by
  unfold steps at h
  cases hb : m.body with
  | none =>
    rw [hb] at h
    cases h
  | some body =>
    simp only [hb, List.cons_append, List.mem_cons, List.mem_append, List.mem_map, List.mem_flatMap,
      Action.declare_mem_steps, List.not_mem_nil, or_false, reduceCtorEq, false_or] at h
    refine ⟨body, rfl, ?_⟩
    rcases h with ⟨w, hw, he⟩ | ⟨a, ha, origin, rfl, rfl⟩
    · cases he
      exact .inl ⟨rfl, hw⟩
    · exact .inr ⟨origin, rfl, ha⟩

theorem ClassDecl.declare_mem_ownSteps {c : ClassDecl} {kind : SymbolKind} {v : VarDecl}
    (h : .declare kind v ∈ c.ownSteps) : ∃ m ∈ c.methods, .declare kind v ∈ m.steps := by
  simpa [ownSteps, Expr.declare_not_mem_steps] using h

/-- Whatever classes declare while they are gone through, a method of theirs declares. -/
theorem ClassDecl.declare_mem_stepsOf {cs : List ClassDecl} {kind : SymbolKind} {v : VarDecl}
    (h : .declare kind v ∈ stepsOf cs) :
    ∃ c ∈ withNestedAll cs, ∃ m ∈ c.methods, .declare kind v ∈ m.steps := by
  rcases mem_stepsOf cs h with h | ⟨c, hc, h | h⟩
  · cases h
  · cases h
  · exact ⟨c, hc, declare_mem_ownSteps h⟩

/-! ## Steps that open classes -/

theorem ClassDecl.openClass_not_mem_ownSteps (c d : ClassDecl) : .openClass c ∉ d.ownSteps := by
  have hexpr : ∀ e : Expr, .openClass c ∉ e.steps := by
    simp [Expr.steps]
  have haction : ∀ a : Action, .openClass c ∉ a.steps := by
    intro a
    cases a <;> simp [Action.steps, hexpr]
  have hmethod : ∀ m : MethodDecl, .openClass c ∉ m.steps := by
    intro m
    unfold MethodDecl.steps
    cases m.body <;> simp [haction]
  simp [ownSteps, hexpr, hmethod]

/-- Only classes of a unit are opened. -/
theorem ClassDecl.mem_withNestedAll_of_openClass {c : ClassDecl} {cs : List ClassDecl}
    (h : .openClass c ∈ stepsOf cs) : c ∈ withNestedAll cs := by
  rcases mem_stepsOf cs h with h | ⟨d, hd, h | h⟩
  · cases h
  · cases h
    exact hd
  · exact absurd h (openClass_not_mem_ownSteps c d)

namespace Resolver

variable (voc : Vocabulary)

@[simp] theorem run_nil (r : Resolver) : run voc r [] = r := rfl

@[simp] theorem run_cons (r : Resolver) (s : Step) (rest : List Step) :
    run voc r (s :: rest) = run voc (step voc r s) rest := rfl

@[simp] theorem run_append (r : Resolver) (first rest : List Step) :
    run voc r (first ++ rest) = run voc (run voc r first) rest :=
  List.foldl_append

theorem run_flatMap {α : Type} (f : α → List Step) (r : Resolver) (as : List α) :
    run voc r (as.flatMap f) = as.foldl (fun r a => run voc r (f a)) r :=
  List.foldl_flatMap

theorem evaluate_eq_run (r : Resolver) (e : Expr) : evaluate voc r e = run voc r e.steps := by
  rw [run, Expr.steps, List.foldl_map]
  rfl

theorem foldl_evaluate_eq_run (r : Resolver) (es : List Expr) :
    es.foldl (evaluate voc) r = run voc r (es.flatMap Expr.steps) := by
  rw [run_flatMap]
  congr 1
  funext r e
  exact evaluate_eq_run voc r e

theorem perform_eq_run (r : Resolver) (a : Action) : perform voc r a = run voc r a.steps := by
  cases a with
  | enter => rfl
  | leave => rfl
  | evaluate e => exact evaluate_eq_run voc r e
  | declare origin v =>
    rw [perform, foldl_evaluate_eq_run, Action.steps, run_append]
    rfl

theorem foldl_perform_eq_run (r : Resolver) (actions : List Action) :
    actions.foldl (perform voc) r = run voc r (actions.flatMap Action.steps) := by
  rw [run_flatMap]
  congr 1
  funext r a
  exact perform_eq_run voc r a

/-! ## What a step changes -/

theorem exists_callTarget (r : Resolver) (receiver : Option Expr) (method : String) (arity : Nat)
    (span : Span) :
    ∃ problems notes,
      (callTarget voc r receiver method arity span).2 = { r with problems, notes } := by
  have hown : ∃ problems notes, (r.ownTarget method arity span).2 = { r with problems, notes } := by
    unfold ownTarget
    split <;> exact ⟨_, _, rfl⟩
  unfold callTarget
  split
  · exact hown
  · split
    · exact hown
    · split
      · exact ⟨_, _, rfl⟩
      · unfold memberTarget
        repeat' split
        all_goals exact ⟨_, _, rfl⟩

/-- Visiting an expression fills tables for that expression, and leaves symbols and scopes alone. -/
theorem exists_visit (r : Resolver) (e : Expr) :
    ∃ references calls problems notes,
      visit voc r e = { r with references, calls, problems, notes } ∧
      ∀ i ≠ e.id, references.get? i = r.reference? i := by
  have hrefer : ∀ symbol, ∃ references calls problems notes,
      r.refer e.id symbol = { r with references, calls, problems, notes } ∧
      ∀ i ≠ e.id, references.get? i = r.reference? i := by
    intro symbol
    refine ⟨r.references.insert e.id symbol, _, _, _, rfl, fun i hi => ?_⟩
    simp [Model.reference?, hi]
  cases e with
  | ident s name =>
    simp only [visit]
    split
    · exact hrefer _
    · split <;> exact ⟨_, _, _, _, rfl, fun _ _ => rfl⟩
  | field s object name =>
    simp only [visit]
    generalize (if object.isThis then r.ownField? name else none) = own
    cases own with
    | some symbol => exact hrefer symbol
    | none => exact ⟨_, _, _, _, rfl, fun _ _ => rfl⟩
  | call s receiver method args =>
    obtain ⟨problems, notes, ht⟩ := exists_callTarget voc r receiver method args.length s.span
    simp only [visit, ht]
    exact ⟨_, _, _, _, rfl, fun _ _ => rfl⟩
  | _ => exact ⟨_, _, _, _, rfl, fun _ _ => rfl⟩

theorem exists_bind (r : Resolver) (name : String) (symbol : SymbolId) (span : Span) :
    ∃ problems, r.bind name symbol span =
      { r with scopes := r.scopes.declared name ⟨symbol, span⟩, problems } := by
  unfold bind ScopeTree.declared
  cases r.scopes.define name symbol span <;> exact ⟨_, rfl⟩

theorem exists_bindFields (r : Resolver) (c : ClassDecl) :
    ∃ problems, r.bindFields c =
      { r with
        scopes := r.scopes.declaredAll (c.fields.zip (r.classMembers c.id).fields), problems } := by
  unfold bindFields
  generalize c.fields.zip (r.classMembers c.id).fields = entries
  induction entries generalizing r with
  | nil => exact ⟨_, rfl⟩
  | cons entry rest ih =>
    obtain ⟨v, symbol⟩ := entry
    obtain ⟨problems, hb⟩ := exists_bind r v.name symbol v.span
    simp only [List.foldl_cons, hb]
    exact ih _

theorem exists_openClass (r : Resolver) (c : ClassDecl) :
    ∃ problems, step voc r (.openClass c) =
      { r with
        scopes := (r.scopes.enter (.classBody c.id)).declaredAll
          (c.fields.zip (r.classMembers c.id).fields)
        problems } :=
  exists_bindFields (r.enter (.classBody c.id)) c

theorem exists_declare (r : Resolver) (kind : SymbolKind) (v : VarDecl) :
    ∃ problems, step voc r (.declare kind v) =
      { r.addSymbol v.name kind (voc.types.qualify v.type) v.site with
        scopes := r.scopes.declared v.name ⟨r.symbols.next, v.span⟩, problems } :=
  exists_bind (r.addSymbol v.name kind (voc.types.qualify v.type) v.site) v.name r.symbols.next
    v.span

/-- The expression that a step resolves. -/
def Step.visited? : Step → Option NodeId
  | .visit e => some e.id
  | _ => none

/-- The declaration that a step brings into force. -/
def Step.declared? : Step → Option NodeId
  | .declare _ v => some v.id
  | _ => none

/-- What a step can do: resolve an expression, give a variable its symbol, or change the scopes. -/
theorem step_cases (r : Resolver) (s : Step) :
    (∃ e references calls problems notes, s = .visit e ∧
      step voc r s = { r with references, calls, problems, notes } ∧
      ∀ i ≠ e.id, references.get? i = r.reference? i) ∨
    (∃ kind v scopes problems, s = .declare kind v ∧
      step voc r s =
        { r.addSymbol v.name kind (voc.types.qualify v.type) v.site with scopes, problems }) ∨
    s.declared? = none ∧ ∃ scopes problems, step voc r s = { r with scopes, problems } := by
  cases s with
  | openClass c =>
    obtain ⟨problems, h⟩ := exists_openClass voc r c
    exact .inr (.inr ⟨rfl, _, _, h⟩)
  | visit e =>
    obtain ⟨references, calls, problems, notes, h⟩ := exists_visit voc r e
    exact .inl ⟨e, references, calls, problems, notes, rfl, h⟩
  | declare kind v =>
    obtain ⟨problems, h⟩ := exists_declare voc r kind v
    exact .inr (.inl ⟨kind, v, _, _, rfl, h⟩)
  | _ => exact .inr (.inr ⟨rfl, _, _, rfl⟩)

theorem step_members (r : Resolver) (s : Step) : (step voc r s).members = r.members := by
  obtain ⟨e, _, _, _, _, -, h, -⟩ | ⟨kind, v, _, _, -, h⟩ | ⟨-, _, _, h⟩ := step_cases voc r s
  · rw [h]
  · rw [h]
    rfl
  · rw [h]

theorem reference?_step_of_ne (r : Resolver) {s : Step} {i : NodeId} (hi : s.visited? ≠ some i) :
    (step voc r s).reference? i = r.reference? i := by
  obtain ⟨e, _, _, _, _, rfl, h, href⟩ | ⟨kind, v, _, _, -, h⟩ | ⟨-, _, _, h⟩ := step_cases voc r s
  · rw [h]
    exact href i fun he => hi (congrArg some he.symm)
  · rw [h]
    rfl
  · rw [h]
    rfl

theorem declaration?_step_of_ne (r : Resolver) {s : Step} {i : NodeId}
    (hi : s.declared? ≠ some i) : (step voc r s).declaration? i = r.declaration? i := by
  obtain ⟨e, _, _, _, _, -, h, -⟩ | ⟨kind, v, _, _, rfl, h⟩ | ⟨-, _, _, h⟩ := step_cases voc r s
  · rw [h]
    rfl
  · have hne : i ≠ v.site.id := fun he => hi (congrArg some he.symm)
    rw [h]
    simp [Model.declaration?, addSymbol, hne]
  · rw [h]
    rfl

/-- A declaration that has a symbol keeps having one. -/
theorem isSome_declaration?_step {r : Resolver} {i : NodeId} (h : (r.declaration? i).isSome)
    (s : Step) : ((step voc r s).declaration? i).isSome := by
  by_cases hi : s.declared? = some i
  · obtain ⟨e, _, _, _, _, rfl, -⟩ | ⟨kind, v, _, _, rfl, hs⟩ | ⟨hs, -⟩ := step_cases voc r s
    · cases hi
    · cases hi
      rw [hs]
      simp [Model.declaration?, addSymbol, VarDecl.id]
    · cases hs.symm.trans hi
  · rw [declaration?_step_of_ne voc r hi]
    exact h

/-! ## What a run changes -/

theorem reference?_run_of_not_mem (r : Resolver) {steps : List Step} {i : NodeId}
    (hi : i ∉ steps.filterMap Step.visited?) :
    (run voc r steps).reference? i = r.reference? i := by
  induction steps generalizing r with
  | nil => rfl
  | cons s rest ih =>
    simp only [List.mem_filterMap, List.mem_cons, not_exists, not_and] at hi ih
    rw [run_cons, ih _ fun s' hs' => hi s' (.inr hs'),
      reference?_step_of_ne voc r (hi s (.inl rfl))]

theorem isSome_declaration?_run {r : Resolver} {i : NodeId} (h : (r.declaration? i).isSome)
    (steps : List Step) : ((run voc r steps).declaration? i).isSome := by
  induction steps generalizing r with
  | nil => exact h
  | cons s rest ih => exact ih (isSome_declaration?_step voc h s)

/-! ## Classes -/

theorem resolveMethod_eq_run {r : Resolver} {m : MethodDecl} (h : (r.declaration? m.id).isSome) :
    resolveMethod voc r m = run voc r m.steps := by
  obtain ⟨symbol, hs⟩ := Option.isSome_iff_exists.1 h
  unfold resolveMethod MethodDecl.steps
  cases m.body with
  | none => rfl
  | some body =>
    have hparams : ∀ r : Resolver, m.params.foldl (declareParam voc) r =
        run voc r (m.params.map (.declare .parameter)) := by
      intro r
      rw [run, List.foldl_map]
      rfl
    simp only [hs, hparams, foldl_perform_eq_run, List.cons_append, run_cons, run_append, run_nil]
    rw [step, hs]
    rfl

theorem foldl_resolveMethod_eq_run {r : Resolver} {ms : List MethodDecl}
    (h : ∀ m ∈ ms, (r.declaration? m.id).isSome) :
    ms.foldl (resolveMethod voc) r = run voc r (ms.flatMap MethodDecl.steps) := by
  induction ms generalizing r with
  | nil => rfl
  | cons m rest ih =>
    obtain ⟨hm, hrest⟩ := List.forall_mem_cons.1 h
    rw [List.foldl_cons, resolveMethod_eq_run voc hm, List.flatMap_cons, run_append]
    exact ih fun m hm => isSome_declaration?_run voc (hrest m hm) _

mutual

theorem resolveClass_eq_run {r : Resolver} : (c : ClassDecl) →
    (∀ d ∈ c.withNested, ∀ m ∈ d.methods, (r.declaration? m.id).isSome) →
    resolveClass voc r c = run voc r c.steps
  | ⟨site, name, fields, methods, nested⟩, h => by
    rw [ClassDecl.withNested, List.forall_mem_cons] at h
    -- None of the steps before the methods and the member classes takes a declaration back.
    have hopen := fun i (hi : (r.declaration? i).isSome) =>
      isSome_declaration?_step voc hi (.openClass ⟨site, name, fields, methods, nested⟩)
    rw [resolveClass, ClassDecl.steps]
    simp only [List.cons_append, run_cons, run_append, run_nil]
    rw [foldl_evaluate_eq_run, foldl_resolveMethod_eq_run, resolveClasses_eq_run nested]
    · rfl
    · intro d hd m hm
      exact isSome_declaration?_run voc
        (isSome_declaration?_run voc (hopen _ (h.2 d hd m hm)) _) _
    · intro m hm
      exact isSome_declaration?_run voc (hopen _ (h.1 m hm)) _

theorem resolveClasses_eq_run {r : Resolver} : (cs : List ClassDecl) →
    (∀ d ∈ ClassDecl.withNestedAll cs, ∀ m ∈ d.methods, (r.declaration? m.id).isSome) →
    resolveClasses voc r cs = run voc r (ClassDecl.stepsOf cs)
  | [], _ => by
    rw [resolveClasses, ClassDecl.stepsOf, run_nil]
  | c :: cs, h => by
    rw [ClassDecl.withNestedAll, List.forall_mem_append] at h
    rw [resolveClasses, ClassDecl.stepsOf, run_append, resolveClass_eq_run c h.1]
    exact resolveClasses_eq_run cs fun d hd m hm => isSome_declaration?_run voc (h.2 d hd m hm) _

end

end Resolver

end HandleLint
