import HandleLint.Proofs.BodyTraversals

/-!
# The nodes behind events

Events are read against the tables that resolving fills. Every expression that an event is about is
an expression that resolving the body visits, and every variable that it is about is one that
resolving the body declares.

* `Event.expressions`: what an event is about;
* `MethodDecl.visit_mem_of_event`, `MethodDecl.declare_mem_of_declarationsOf`: the steps of a method
  for what its events are about.
-/

namespace HandleLint

open HandleLint.Resolver (Step)

/-- The expressions that an event is about. -/
def Event.expressions : Event → List Expr
  | .bind (.declared _) value => [value]
  | .bind (.assigned target) value => [target, value]
  | .returned value => [value]
  | .call site receiver method args =>
    .call site receiver method args :: (receiver.toList ++ args)

/-- The events without resource lists are among those with resource lists. -/
theorem mem_eventsOf_visit {lists : ResourceLists} {body : List Stmt} {event : Event}
    (h : event ∈ eventsOf lists body) : event ∈ eventsOf .visit body := by
  cases lists with
  | visit => exact h
  | skip =>
    have harise := Stmt.arise_body body
    rw [← harise.outside, eventsAt] at h
    rw [← harise.all]
    exact (List.filter_sublist.map Prod.snd).subset h

theorem Expr.inside_of_ownEvent? {e x : Expr} {event : Event} (h : e.ownEvent? = some event)
    (hx : x ∈ event.expressions) : e.Inside x := by
  cases e with
  | assign site target value =>
    cases h
    exact .single hx
  | call site receiver method args =>
    cases h
    rcases List.mem_cons.1 hx with rfl | hx
    · exact .refl
    · exact .single hx
  | _ => cases h

/-- What an event of a statement itself is about stands in an expression of the statement. -/
theorem Stmt.inside_of_ownEvents {s : Stmt} {event : Event} {x : Expr} (h : event ∈ s.ownEvents)
    (hx : x ∈ event.expressions) : ∃ e ∈ s.expressions, e.Inside x := by
  simp only [ownEvents, List.mem_append, List.mem_map, List.mem_filterMap, List.mem_flatMap] at h
  rcases h with (⟨value, hv, rfl⟩ | ⟨v, hv, hb⟩) | ⟨e, he, hevent⟩
  · cases List.mem_singleton.1 hx
    refine ⟨x, ?_, .refl⟩
    cases s with
    | returnStmt site returned => exact hv
    | _ => cases hv
  · obtain ⟨value, hvalue, rfl⟩ := Option.map_eq_some_iff.1 hb
    cases List.mem_singleton.1 hx
    refine ⟨x, ?_, .refl⟩
    cases s with
    | tryStmt site rs body catches finallyBlock =>
      simp only [locals, resources, List.not_mem_nil, false_or] at hv
      exact List.mem_flatMap.2 ⟨v, hv, Option.mem_toList.2 hvalue⟩
    | _ => simp_all [locals, resources, expressions]
  · obtain ⟨y, hy, hown⟩ := List.mem_filterMap.1 hevent
    exact ⟨e, he, (Expr.mem_preorder_iff.1 hy).trans (Expr.inside_of_ownEvent? hown hx)⟩

/-- A variable that an event of a statement itself binds is declared by the statement. -/
theorem Stmt.declarations_of_ownEvents {s : Stmt} {v : VarDecl} {value : Expr}
    (h : .bind (.declared v) value ∈ s.ownEvents) : ∃ origin, (origin, v) ∈ s.declarations := by
  simp only [ownEvents, List.mem_append, List.mem_map, List.mem_filterMap, List.mem_flatMap] at h
  rcases h with (⟨value', -, he⟩ | ⟨w, hw, hb⟩) | ⟨e, -, hevent⟩
  · cases he
  · obtain ⟨value', -, he⟩ := Option.map_eq_some_iff.1 hb
    cases he
    cases s <;> simp_all [locals, resources, declarations]
  · obtain ⟨y, -, hown⟩ := List.mem_filterMap.1 hevent
    cases y <;> cases hown

variable {lists : ResourceLists} {body : List Stmt} {event : Event}

/-- What an event of a body is about is visited when the body is resolved. -/
theorem visits_of_event {x : Expr} (h : event ∈ eventsOf lists body) (hx : x ∈ event.expressions) :
    x ∈ (actionsOf body).flatMap Action.visits := by
  obtain ⟨s, hs, hown⟩ := List.mem_flatMap.1 ((events_perm body).mem_iff.1 (mem_eventsOf_visit h))
  obtain ⟨e, he, hin⟩ := Stmt.inside_of_ownEvents hown hx
  refine (visits_perm body).mem_iff.2 (List.mem_flatMap.2 ⟨s, hs, List.mem_flatMap.2 ⟨e, ?_, ?_⟩⟩)
  · exact List.mem_append_left _ he
  · exact Expr.mem_postorder_iff.2 hin

/-- A variable that an event of a body binds is declared in the body. -/
theorem declarationsOf_of_event {v : VarDecl} {value : Expr}
    (h : .bind (.declared v) value ∈ eventsOf lists body) :
    ∃ origin, (origin, v) ∈ declarationsOf body := by
  obtain ⟨s, hs, hown⟩ := List.mem_flatMap.1 ((events_perm body).mem_iff.1 (mem_eventsOf_visit h))
  obtain ⟨origin, ho⟩ := Stmt.declarations_of_ownEvents hown
  exact ⟨origin, List.mem_flatMap.2 ⟨s, hs, ho⟩⟩

/-! ## The steps of a method -/

theorem Action.visit_mem_steps {a : Action} {e : Expr} : .visit e ∈ a.steps ↔ e ∈ a.visits := by
  rw [← Action.filterMap_expression?_steps, List.mem_filterMap]
  constructor
  · intro h
    exact ⟨_, h, rfl⟩
  · rintro ⟨s, hs, he⟩
    cases s <;> cases he
    exact hs

namespace MethodDecl

variable {m : MethodDecl}

/-- The steps of the body of a method are steps of the method. -/
theorem mem_steps_of_mem_action {s : Step} {a : Action} (hb : m.body = some body)
    (ha : a ∈ actionsOf body) (hs : s ∈ a.steps) : s ∈ m.steps := by
  simp only [steps, hb, List.mem_append, List.mem_flatMap]
  exact .inl (.inr ⟨a, ha, hs⟩)

theorem visit_mem_of_event {x : Expr} (hb : m.body = some body) (h : event ∈ eventsOf lists body)
    (hx : x ∈ event.expressions) : .visit x ∈ m.steps := by
  obtain ⟨a, ha, hv⟩ := List.mem_flatMap.1 (visits_of_event h hx)
  exact mem_steps_of_mem_action hb ha (Action.visit_mem_steps.2 hv)

theorem declare_mem_of_declarationsOf {origin : VarOrigin} {v : VarDecl} (hb : m.body = some body)
    (h : (origin, v) ∈ declarationsOf body) : .declare (.var origin) v ∈ m.steps := by
  have ha : .declare origin v ∈ actionsOf body :=
    Action.declare_mem_iff.2 ((declarations_perm body).mem_iff.2 h)
  exact mem_steps_of_mem_action hb ha (Action.declare_mem_steps.2 ⟨origin, rfl, rfl⟩)

end MethodDecl

end HandleLint
