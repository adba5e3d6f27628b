import HandleLint.Proofs.ParallelResolution

/-!
# The classes around an expression

A class stands inside other classes. While a unit is gone through, the open scopes are those of the
classes around, with those of a method and of its blocks further in; so an expression is visited
with just the classes around it open.

* `CompilationUnit.nestings`: every class with the classes around it, the innermost first;
* `ClassStack.Returns`: what steps visit inside which classes, where they close what they open;
* `ClassStack.returns_classes`: a unit visits the expressions of each class inside that class and
  those around it;
* `Resolver.Within`: the scopes from the current one outwards are those of a stack;
* `ClassDecl.visit_mem_ownSteps_iff`: a class visits what its fields and its methods mention.
-/

namespace HandleLint

open HandleLint.Resolver (Step Balanced)

/-! ## Nested classes -/

namespace ClassDecl

mutual

/-- A class and the classes inside it, each with the classes around it, the innermost first. -/
def nestings (outer : List ClassDecl) : ClassDecl → List (ClassDecl × List ClassDecl)
  | c@⟨_, _, _, _, nested⟩ => (c, outer) :: nestingsOf (c :: outer) nested

def nestingsOf (outer : List ClassDecl) : List ClassDecl → List (ClassDecl × List ClassDecl)
  | [] => []
  | c :: cs => nestings outer c ++ nestingsOf outer cs

end

mutual

theorem map_fst_nestings (outer : List ClassDecl) : (c : ClassDecl) →
    (c.nestings outer).map Prod.fst = c.withNested
  | ⟨_, _, _, _, nested⟩ => by
    rw [nestings, withNested, List.map_cons, map_fst_nestingsOf _ nested]

theorem map_fst_nestingsOf (outer : List ClassDecl) : (cs : List ClassDecl) →
    (nestingsOf outer cs).map Prod.fst = withNestedAll cs
  | [] => by
    rw [nestingsOf, withNestedAll, List.map_nil]
  | c :: cs => by
    rw [nestingsOf, withNestedAll, List.map_append, map_fst_nestings outer c,
      map_fst_nestingsOf outer cs]

end

mutual

theorem around_of_mem_nestings {outer : List ClassDecl} {x : ClassDecl × List ClassDecl} :
    (c : ClassDecl) → x ∈ c.nestings outer → ∀ d ∈ x.2, d ∈ outer ∨ d ∈ c.withNested
  | ⟨_, _, _, _, nested⟩, hx, d, hd => by
    rw [nestings] at hx
    rw [withNested]
    rcases List.mem_cons.1 hx with rfl | hx
    · exact .inl hd
    · rcases around_of_mem_nestingsOf nested hx d hd with hd | hd
      · rcases List.mem_cons.1 hd with rfl | hd
        · exact .inr List.mem_cons_self
        · exact .inl hd
      · exact .inr (List.mem_cons_of_mem _ hd)

theorem around_of_mem_nestingsOf {outer : List ClassDecl} {x : ClassDecl × List ClassDecl} :
    (cs : List ClassDecl) → x ∈ nestingsOf outer cs → ∀ d ∈ x.2, d ∈ outer ∨ d ∈ withNestedAll cs
  | [], hx, _, _ => by
    rw [nestingsOf] at hx
    cases hx
  | c :: cs, hx, d, hd => by
    rw [nestingsOf] at hx
    rw [withNestedAll, List.mem_append]
    rcases List.mem_append.1 hx with hx | hx
    · exact (around_of_mem_nestings c hx d hd).imp_right .inl
    · exact (around_of_mem_nestingsOf cs hx d hd).imp_right .inr

end

end ClassDecl

/-- Every class of a unit with the classes around it, the innermost first. -/
def CompilationUnit.nestings (u : CompilationUnit) : List (ClassDecl × List ClassDecl) :=
  ClassDecl.nestingsOf [] u.classes

namespace CompilationUnit

variable {u : CompilationUnit} {c : ClassDecl} {outer : List ClassDecl}

theorem exists_nestings (hc : c ∈ u.allClasses) : ∃ outer, (c, outer) ∈ u.nestings := by
  rw [allClasses, ← ClassDecl.map_fst_nestingsOf [] u.classes] at hc
  obtain ⟨⟨d, outer⟩, hx, rfl⟩ := List.mem_map.1 hc
  exact ⟨outer, hx⟩

theorem mem_allClasses_of_nestings (h : (c, outer) ∈ u.nestings) :
    ∀ d ∈ c :: outer, d ∈ u.allClasses := by
  have hclass : c ∈ (ClassDecl.nestingsOf [] u.classes).map Prod.fst := List.mem_map_of_mem h
  rw [ClassDecl.map_fst_nestingsOf] at hclass
  have haround := fun d hd =>
    (ClassDecl.around_of_mem_nestingsOf u.classes h d hd).resolve_left List.not_mem_nil
  exact List.forall_mem_cons.2 ⟨hclass, haround⟩

end CompilationUnit

/-! ## Open classes along steps -/

/-- The open scopes, the innermost first; of each scope of a class, the class. -/
abbrev ClassStack := List (Option ClassDecl)

namespace ClassStack

/-- The classes whose scopes are open. -/
def classes (stack : ClassStack) : List ClassDecl :=
  stack.filterMap fun c => c

def step (stack : ClassStack) : Step → ClassStack
  | .openClass c => some c :: stack
  | .openMethod _ => none :: stack
  | .openBlock => none :: stack
  | .leave => stack.tail
  | .visit _ => stack
  | .declare _ _ => stack

/-- The stack after steps. -/
def run (stack : ClassStack) (steps : List Step) : ClassStack :=
  steps.foldl step stack

/-- The expressions that steps visit, each with the classes that are open at that point. -/
def visitsAlong (stack : ClassStack) : List Step → List (List ClassDecl × Expr)
  | [] => []
  | s :: rest => s.expression?.toList.map (stack.classes, ·) ++ (stack.step s).visitsAlong rest

theorem visitsAlong_append (stack : ClassStack) (first rest : List Step) :
    stack.visitsAlong (first ++ rest) =
      stack.visitsAlong first ++ (stack.run first).visitsAlong rest := by
  induction first generalizing stack with
  | nil => rfl
  | cons s first ih =>
    rw [List.cons_append, visitsAlong, ih, visitsAlong, List.append_assoc]
    rfl

theorem exists_of_mem_visitsAlong {stack : ClassStack} {steps : List Step}
    {classes : List ClassDecl} {e : Expr} (h : (classes, e) ∈ stack.visitsAlong steps) :
    ∃ before after, steps = before ++ .visit e :: after ∧ (stack.run before).classes = classes := by
  induction steps generalizing stack with
  | nil => cases h
  | cons s rest ih =>
    rcases List.mem_append.1 h with h | h
    · obtain ⟨x, hx, heq⟩ := List.mem_map.1 h
      cases heq
      cases s with
      | visit y =>
        cases Option.mem_toList.1 hx
        exact ⟨[], rest, rfl, rfl⟩
      | _ => cases hx
    · obtain ⟨before, after, rfl, hclasses⟩ := ih h
      exact ⟨s :: before, after, rfl, hclasses⟩

/-- From a stack, the steps visit expressions inside the classes given, and in the end the stack is
as it was. -/
structure Returns (stack : ClassStack) (steps : List Step)
    (visits : List (List ClassDecl × Expr)) : Prop where
  visits : stack.visitsAlong steps = visits
  run : stack.run steps = stack

/-- The expressions that steps visit, all inside the same classes. -/
def visitsIn (classes : List ClassDecl) (steps : List Step) : List (List ClassDecl × Expr) :=
  (steps.filterMap Step.expression?).map (classes, ·)

theorem visitsIn_append (classes : List ClassDecl) (first rest : List Step) :
    visitsIn classes (first ++ rest) = visitsIn classes first ++ visitsIn classes rest := by
  rw [visitsIn, List.filterMap_append, List.map_append]
  rfl

variable {stack : ClassStack} {steps first rest : List Step}
  {visits visits' : List (List ClassDecl × Expr)}

theorem Returns.nil (stack : ClassStack) : stack.Returns [] [] :=
  ⟨rfl, rfl⟩

theorem Returns.append (h : stack.Returns first visits) (h' : stack.Returns rest visits') :
    stack.Returns (first ++ rest) (visits ++ visits') where
  visits := by rw [visitsAlong_append, h.run, h.visits, h'.visits]
  run := List.foldl_append.trans ((congrArg (ClassStack.run · rest) h.run).trans h'.run)

/-- Steps between opening a scope and leaving it. -/
theorem Returns.scope {s : Step} {top : Option ClassDecl} (hstep : stack.step s = top :: stack)
    (hs : s.expression? = none) (h : Returns (top :: stack) steps visits) :
    stack.Returns (s :: steps ++ [.leave]) visits where
  visits := by
    rw [List.cons_append, visitsAlong, hs, hstep, visitsAlong_append, h.visits]
    exact List.append_nil visits
  run := by
    have hinner : ClassStack.run (top :: stack) (steps ++ [.leave]) = stack := by
      rw [ClassStack.run, List.foldl_append]
      exact congrArg List.tail h.run
    rw [ClassStack.run, List.cons_append, List.foldl_cons, hstep]
    exact hinner

/-- The steps visit all their expressions inside the classes that are open from the start. -/
def Stays (stack : ClassStack) (steps : List Step) : Prop :=
  stack.Returns steps (visitsIn stack.classes steps)

theorem Stays.append (h : stack.Stays first) (h' : stack.Stays rest) :
    stack.Stays (first ++ rest) := by
  rw [Stays, visitsIn_append]
  exact Returns.append h h'

theorem Stays.flatMap {α : Type} {f : α → List Step} {as : List α}
    (h : ∀ a ∈ as, stack.Stays (f a)) : stack.Stays (as.flatMap f) := by
  induction as with
  | nil => exact .nil stack
  | cons a rest ih =>
    obtain ⟨ha, hrest⟩ := List.forall_mem_cons.1 h
    exact ha.append (ih hrest)

/-- A scope that is not the scope of a class. -/
theorem Stays.scope {s : Step} (hstep : stack.step s = none :: stack)
    (hs : s.expression? = none) (h : Stays (none :: stack) steps) :
    stack.Stays (s :: steps ++ [.leave]) := by
  have hvisits : visitsIn stack.classes (s :: steps ++ [.leave]) =
      visitsIn (classes (none :: stack)) steps := by
    rw [List.cons_append, visitsIn, List.filterMap_cons_none hs, List.filterMap_append]
    exact congrArg (List.map _) (List.append_nil _)
  rw [Stays, hvisits]
  exact Returns.scope hstep hs h

theorem stays_of_balanced (h : Balanced steps) (stack : ClassStack) : stack.Stays steps := by
  induction h generalizing stack with
  | nil => exact .nil stack
  | visit e => exact ⟨rfl, rfl⟩
  | declare kind v => exact ⟨rfl, rfl⟩
  | scope _ ih => exact Stays.scope rfl rfl (ih (none :: stack))
  | append _ _ ih ih' => exact (ih stack).append (ih' stack)

theorem stays_method (stack : ClassStack) (m : MethodDecl) : stack.Stays m.steps := by
  unfold MethodDecl.steps
  cases m.body with
  | none => exact .nil stack
  | some body =>
    have hparams : Balanced (m.params.map (Step.declare .parameter)) := by
      rw [List.map_eq_flatMap]
      exact .flatMap fun v _ => .declare .parameter v
    have hbody : Balanced ((actionsOf body).flatMap Action.steps) :=
      Action.balanced_actionsOf fun s _ => s.balanced
    exact Stays.scope (s := .openMethod m) rfl rfl
      ((stays_of_balanced hparams _).append (stays_of_balanced hbody _))

theorem stays_ownSteps (stack : ClassStack) (c : ClassDecl) : stack.Stays c.ownSteps :=
  Stays.append (stays_of_balanced (Expr.balanced_all _) stack)
    (.flatMap fun m _ => stays_method stack m)

mutual

theorem returns_class (stack : ClassStack) : (c : ClassDecl) →
    stack.Returns c.steps
      ((c.nestings stack.classes).flatMap fun x => visitsIn (x.1 :: x.2) x.1.ownSteps)
  | ⟨site, name, fields, methods, nested⟩ => by
    let c : ClassDecl := ⟨site, name, fields, methods, nested⟩
    have hown : Returns (some c :: stack) c.ownSteps (visitsIn (c :: stack.classes) c.ownSteps) :=
      stays_ownSteps (some c :: stack) c
    have hinner := hown.append (returns_classes (some c :: stack) nested)
    rw [ClassDecl.steps_eq, ClassDecl.nestings]
    exact Returns.scope rfl rfl hinner

theorem returns_classes (stack : ClassStack) : (cs : List ClassDecl) →
    stack.Returns (ClassDecl.stepsOf cs)
      ((ClassDecl.nestingsOf stack.classes cs).flatMap fun x => visitsIn (x.1 :: x.2) x.1.ownSteps)
  | [] => by
    rw [ClassDecl.stepsOf, ClassDecl.nestingsOf]
    exact .nil stack
  | c :: cs => by
    rw [ClassDecl.stepsOf, ClassDecl.nestingsOf, List.flatMap_append]
    exact (returns_class stack c).append (returns_classes stack cs)

end

end ClassStack

/-- What a class visits is visited with that class and those around it open. -/
theorem CompilationUnit.exists_before_visit {u : CompilationUnit} {c : ClassDecl}
    {outer : List ClassDecl} {e : Expr} (hc : (c, outer) ∈ u.nestings)
    (he : .visit e ∈ c.ownSteps) :
    ∃ before after, ClassDecl.stepsOf u.classes = before ++ .visit e :: after ∧
      (ClassStack.run [] before).classes = c :: outer := by
  refine ClassStack.exists_of_mem_visitsAlong ?_
  rw [(ClassStack.returns_classes [] u.classes).visits]
  refine List.mem_flatMap.2 ⟨(c, outer), hc, List.mem_map.2 ⟨e, ?_, rfl⟩⟩
  exact List.mem_filterMap.2 ⟨.visit e, he, rfl⟩

/-! ## The scopes of the resolver -/

theorem ScopeTree.kinds_declared (t : ScopeTree) (name : String) (b : Binding) :
    (t.declared name b).chain.map (·.kind.class?) = t.chain.map (·.kind.class?) := by
  rw [chain_declared]
  cases t.chain <;> rfl

namespace Resolver

variable {r : Resolver} {stack : ClassStack}

/-- The scopes from the current one outwards are those of a stack. -/
structure Within (r : Resolver) (stack : ClassStack) : Prop where
  kinds : r.scopes.chain.map (·.kind.class?) = stack.map (Option.map ClassDecl.id)

namespace Within

theorem enclosingClasses (h : r.Within stack) :
    r.scopes.enclosingClasses = stack.classes.map ClassDecl.id := by
  have hchain : r.scopes.enclosingClasses =
      (r.scopes.chain.map (·.kind.class?)).filterMap fun c => c := by
    rw [ScopeTree.enclosingClasses_eq, List.filterMap_map]
    rfl
  rw [hchain, h.kinds, List.filterMap_map, ClassStack.classes, List.map_filterMap]
  rfl

theorem enter (h : r.Within stack) (kind : ScopeKind) (top : Option ClassDecl)
    (htop : kind.class? = top.map ClassDecl.id) : (r.enter kind).Within (top :: stack) where
  kinds := by
    rw [Resolver.enter, ScopeTree.chain_enter, List.map_cons, List.map_cons, h.kinds, htop]

theorem declared (h : r.Within stack) (name : String) (b : Binding) :
    Within { r with scopes := r.scopes.declared name b } stack where
  kinds := (r.scopes.kinds_declared name b).trans h.kinds

theorem declaredAll (h : r.Within stack) (entries : List (VarDecl × SymbolId)) :
    Within { r with scopes := r.scopes.declaredAll entries } stack := by
  induction entries generalizing r with
  | nil => exact h
  | cons entry rest ih => exact ih (h.declared entry.1.name ⟨entry.2, entry.1.span⟩)

theorem leave (h : r.Within stack) : r.leave.Within stack.tail where
  kinds := by
    rw [Resolver.leave, ScopeTree.chain_leave, List.map_tail, h.kinds, List.map_tail]

theorem step (h : r.Within stack) (voc : Vocabulary) (s : Step) :
    (step voc r s).Within (stack.step s) := by
  cases s with
  | openClass c =>
    obtain ⟨problems, hs⟩ := exists_openClass voc r c
    have hopen := (h.enter (.classBody c.id) (some c) rfl).declaredAll
      (c.fields.zip (r.classMembers c.id).fields)
    rw [hs]
    exact ⟨hopen.kinds⟩
  | openMethod m => exact h.enter _ none rfl
  | openBlock => exact h.enter _ none rfl
  | leave => exact h.leave
  | visit e =>
    obtain ⟨_, _, _, _, hs, -⟩ := exists_visit voc r e
    rw [Resolver.step, hs]
    exact ⟨h.kinds⟩
  | declare kind v =>
    obtain ⟨problems, hs⟩ := exists_declare voc r kind v
    have hbound := h.declared v.name ⟨r.symbols.next, v.span⟩
    rw [hs]
    exact ⟨hbound.kinds⟩

theorem run (h : r.Within stack) (voc : Vocabulary) (steps : List Step) :
    (run voc r steps).Within (stack.run steps) := by
  induction steps generalizing r stack with
  | nil => exact h
  | cons s rest ih => exact ih (h.step voc s)

end Within

end Resolver

theorem CompilationUnit.within_announced (order : ClassOrder) (u : CompilationUnit)
    (signatures : Signatures) : (u.announced order signatures).Within [] := by
  have hscopes := (u.announced_announced order signatures).scopes
  exact ⟨by rw [hscopes]; rfl⟩

/-! ## What a class visits -/

theorem Stmt.mem_visits_iff {s : Stmt} {e : Expr} :
    e ∈ s.actions.flatMap Action.visits ↔ s.Mentions e := by
  induction s using induction_inner with
  | step s ih =>
    have hown : e ∈ (s.expressions ++ s.caughtValues).flatMap Expr.postorder ↔
        ∃ value ∈ s.expressions ++ s.caughtValues, value.Inside e := by
      simp only [List.mem_flatMap, Expr.mem_postorder_iff]
    have hinner : (e ∈ s.inner.flatMap fun t => t.actions.flatMap Action.visits) ↔
        ∃ t ∈ s.inner, t.Mentions e := by
      rw [List.mem_flatMap]
      exact exists_congr fun t => and_congr_right fun ht => ih t ht
    rw [s.visits_perm_level.mem_iff, List.mem_append, hown, hinner, mentions_iff]

theorem MethodDecl.visit_mem_steps_iff {m : MethodDecl} {e : Expr} :
    .visit e ∈ m.steps ↔ ∃ body ∈ m.body, ∃ s ∈ body, s.Mentions e := by
  unfold steps
  cases m.body with
  | none => simp
  | some body =>
    have hbody : .visit e ∈ (actionsOf body).flatMap Action.steps ↔ ∃ s ∈ body, s.Mentions e := by
      have hvisits : e ∈ (actionsOf body).flatMap Action.visits ↔ ∃ s ∈ body, s.Mentions e := by
        rw [flatMap_visits_actionsOf, List.mem_flatMap]
        simp only [Stmt.mem_visits_iff]
      rw [← hvisits, List.mem_flatMap, List.mem_flatMap]
      simp only [Action.visit_mem_steps]
    simpa using hbody

theorem ClassDecl.visit_mem_ownSteps_iff {c : ClassDecl} {e : Expr} :
    .visit e ∈ c.ownSteps ↔ c.Mentions e := by
  rw [ownSteps, List.mem_append, Mentions]
  refine or_congr ?_ ?_
  · simp only [List.flatMap_assoc, List.mem_flatMap, Expr.visit_mem_steps, Option.mem_toList,
      Option.mem_def]
  · simp only [List.mem_flatMap, MethodDecl.visit_mem_steps_iff]

end HandleLint
